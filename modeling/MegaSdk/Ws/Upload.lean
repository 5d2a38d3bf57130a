/-
  File:      MegaSdk/Ws/Upload.lean
  Subject:   ONE WEBSOCKET UPLOAD: `WsUploadFile` (ws_upload_file.h), the chunks it is cut into
             (wsupload.cpp) and the encryption of one chunk (ws_encryption.cpp).

  The engine cuts a file into chunks at the head position, which moves before the chunk is read.
  An upload that fails starts over from the beginning (`resetAttemptState`): a new attempt. What
  happened to the chunks in the current attempt is recorded beside the fields of the source
  (`Attempt`), for the statements only; no function of the source reads it.

  * `markRangeAcked`, `mem_markRangeAcked` -- the coalesced set of acked ranges holds no byte that
    was not acked.

  Times are deciseconds (`dstime`); a time that the source keeps as `0` for "not set" is an option.
-/
import MegaSdk.Chunk.MacMap

namespace MegaSdk.Ws

open Base

variable {b pos : Nat} {l : List (Nat × Nat)}

/-! ## 1. Chunks -/

structure WsChunk where
  pos : Nat
  len : Nat
  fileno : Nat
  retryCount : Nat := 0
deriving DecidableEq, Repr, Inhabited

def WsChunk.range (c : WsChunk) : Nat × Nat := (c.pos, c.len)

def Covers (r : Nat × Nat) (b : Nat) : Prop := r.1 ≤ b ∧ b < r.1 + r.2

instance (r : Nat × Nat) (b : Nat) : Decidable (Covers r b) := inferInstanceAs (Decidable (_ ∧ _))

def segSize : Nat := 131072

/-- The loop of the constructor `ChunkMap::ChunkMap`, over the numbers of segments. -/
def chunkmapFrom : List Nat → Nat → List (Nat × Nat)
  | [], _ => []
  | i :: is, p => (p, i * segSize) :: chunkmapFrom is (p + i * segSize)

def chunkmap : List (Nat × Nat) := chunkmapFrom [1, 2, 3, 4, 5, 6, 7, 8] 0

def chunkSizeAtPosition (pos : Nat) : Nat :=
  match chunkmap.find? (fun e => e.1 == pos) with
  | some e => e.2
  | none => 8 * segSize

/-- `wsFreshChunkAdvance`: how far the head position moves. -/
def wsFreshChunkAdvance (pos fileSize : Nat) : Nat :=
  min (pos + chunkSizeAtPosition pos) fileSize - pos

/-- At a chunk start of the lattice the table gives the chunk's length. -/
theorem chunkSizeAtPosition_of_isChunk {e : Int} (h : IsChunk pos e) :
    ((pos + chunkSizeAtPosition pos : Nat) : Int) = e := by
  have htable : chunkmap = [(0, 131072), (131072, 262144), (393216, 393216), (786432, 524288),
      (1310720, 655360), (1966080, 786432), (2752512, 917504), (3670016, 1048576)] := rfl
  rw [isChunk_iff] at h
  rcases h with ⟨hp, rfl⟩ | ⟨hp, rfl⟩ | ⟨hp, rfl⟩ | ⟨hp, rfl⟩ | ⟨hp, rfl⟩ | ⟨hp, rfl⟩ | ⟨hp, rfl⟩ |
    ⟨hp, rfl⟩ | ⟨hp, hmod, rfl⟩
  case inr.inr.inr.inr.inr.inr.inr.inr =>
    have hnone : chunkmap.find? (fun e => e.1 == pos) = none := by
      rw [htable, List.find?_eq_none]
      intro e he
      simp only [List.mem_cons, List.not_mem_nil, or_false] at he
      simp only [beq_iff_eq]
      rcases he with rfl | rfl | rfl | rfl | rfl | rfl | rfl | rfl <;> omega
    rw [chunkSizeAtPosition, hnone, segSize]
    push_cast
    omega
  all_goals
    obtain rfl : pos = _ := by exact_mod_cast hp
    rfl

theorem chunkSizeAtPosition_pos (pos) : 0 < chunkSizeAtPosition pos := by
  unfold chunkSizeAtPosition
  split
  · rename_i e he
    have hmem := List.mem_of_find?_eq_some he
    have hall : ∀ e ∈ chunkmap, 0 < e.2 := by decide
    exact hall e hmem
  · decide

theorem wsFreshChunkAdvance_le {fileSize : Nat} (h : pos ≤ fileSize) :
    pos + wsFreshChunkAdvance pos fileSize ≤ fileSize := by
  unfold wsFreshChunkAdvance
  omega

theorem wsFreshChunkAdvance_pos {fileSize : Nat} (h : pos < fileSize) :
    0 < wsFreshChunkAdvance pos fileSize := by
  have := chunkSizeAtPosition_pos pos
  unfold wsFreshChunkAdvance
  omega

/-! ## 2. The state of an upload -/

/-- `WsApiServerEvent`, with one constructor for the negative values. -/
inductive WsApiServerEvent
  | error
  | chunkIngested
  | alreadyOnServer
  | crcFailed
  | uploadCompleted
  | distress
  | throttle
  | finalDataIngested
deriving DecidableEq, Repr

namespace WsApiServerEvent

/-- The events that confirm a chunk: its MAC is applied. -/
def confirms : WsApiServerEvent → Bool
  | chunkIngested | alreadyOnServer | finalDataIngested => true
  | _ => false

/-- The events that count the chunk's bytes as confirmed. -/
def credits : WsApiServerEvent → Bool
  | chunkIngested | finalDataIngested => true
  | _ => false

/-- `event < UploadCompleted || event == FinalDataIngested`: the event names a chunk in flight. -/
def namesChunk : WsApiServerEvent → Bool
  | error | chunkIngested | alreadyOnServer | crcFailed | finalDataIngested => true
  | _ => false

theorem eq_crcFailed {e : WsApiServerEvent} (hnames : e.namesChunk = true)
    (hconf : e.confirms = false) (herr : e ≠ error) : e = crcFailed := by
  revert hnames hconf herr
  cases e <;> decide

end WsApiServerEvent

/-- What happened in the current attempt of an upload. Not part of the source. -/
structure Attempt where
  number : Nat := 0
  /-- The head position at the start, and the bytes confirmed by then. -/
  start : Nat := 0
  carry : Nat := 0
  /-- The ranges handed out at the head position, the latest last. -/
  handed : List (Nat × Nat) := []
  /-- The ranges acked by a confirming event. -/
  acked : List (WsApiServerEvent × Nat × Nat) := []
  /-- The ranges given to a connection. -/
  sent : List (Nat × Nat) := []

/-- `WsUploadFile`. The local file is its content, the key is the block cipher under it; `obj` is
    the identity of the object, which a transfer that is removed and enqueued again changes. -/
structure WsUploadFile where
  mSize : Nat
  obj : Nat := 0
  mHeadPos : Nat := 0
  mBytesConfirmed : Nat := 0
  mEofSet : Bool := false
  mPaused : Bool := false
  mQuotaHeld : Bool := false
  inPool : Bool := false
  mWorkGeneration : Nat := 1
  mUploadStartTime : Option Nat := none
  mUploadCompletionTime : Option Nat := none
  mUploadFailedTime : Option Nat := none
  mRetryUntil : Nat := 0
  mAckedIntervals : List (Nat × Nat) := []
  mConfirmedChunkMacs : List ChunkmacMap := []
  mTransferKey : Block → Block := id
  mCtrIv : UInt64 := 0
  content : List UInt8 := []
  attempt : Attempt := {}

/-- `encryptChunk`: the MAC of the chunk that was read, in a map of its own. -/
def encryptChunk (key : Block → Block) (ctrIv : UInt64) (chunkPos : Nat) (buf : List UInt8) :
    ChunkmacMap :=
  (ChunkmacMap.ctrEncrypt key {} chunkPos buf chunkPos ctrIv false).2

def RETRYINTERVAL : Nat := 60 * 10

/-! ## 3. The acked ranges -/

/-- The loop that merges forward: the intervals that the merged one `iv` reaches are absorbed. -/
def mergeForward (iv : Nat × Nat) : List (Nat × Nat) → List (Nat × Nat)
  | [] => [iv]
  | next :: l =>
    if next.1 ≤ iv.2 then mergeForward (iv.1, max iv.2 next.2) l else iv :: next :: l

/-- `markRangeAcked` behind the intervals that start before `ins`, where `prev` is the last of
    those, if any. -/
def insertAcked (ins : Nat × Nat) : Option (Nat × Nat) → List (Nat × Nat) → List (Nat × Nat)
  | none, l => mergeForward ins l
  | some prev, l =>
    if ins.1 ≤ prev.2 then mergeForward (prev.1, max prev.2 ins.2) l
    else prev :: mergeForward ins l

def insertAckedFrom (ins : Nat × Nat) : Option (Nat × Nat) → List (Nat × Nat) → List (Nat × Nat)
  | prev, [] => insertAcked ins prev []
  | prev, iv :: l =>
    if iv.1 < ins.1 then prev.toList ++ insertAckedFrom ins (some iv) l
    else insertAcked ins prev (iv :: l)

/-- `markRangeAcked` on the list of intervals. -/
def markRangeAcked (begin_ end_ : Nat) (l : List (Nat × Nat)) : List (Nat × Nat) :=
  if end_ ≤ begin_ then l else insertAckedFrom (begin_, end_) none l

def coveredByOne (begin_ end_ : Nat) : List (Nat × Nat) → Bool
  | [] => false
  | iv :: l =>
    if iv.1 ≤ begin_ ∧ end_ ≤ iv.2 then true
    else if begin_ < iv.1 then false
    else coveredByOne begin_ end_ l

def rangeFullyAcked (begin_ end_ : Nat) (l : List (Nat × Nat)) : Bool :=
  if end_ ≤ begin_ then true else coveredByOne begin_ end_ l

/-- The bytes of a list of intervals `[begin, end)`. -/
def InIntervals (l : List (Nat × Nat)) (b : Nat) : Prop := ∃ iv ∈ l, iv.1 ≤ b ∧ b < iv.2

@[simp] theorem inIntervals_nil (b) : ¬ InIntervals [] b := fun ⟨_, h, _⟩ => by cases h

@[simp] theorem inIntervals_cons (iv : Nat × Nat) (l) (b) :
    InIntervals (iv :: l) b ↔ (iv.1 ≤ b ∧ b < iv.2) ∨ InIntervals l b := by
  simp [InIntervals]

theorem inIntervals_append (l l' : List (Nat × Nat)) (b) :
    InIntervals (l ++ l') b ↔ InIntervals l b ∨ InIntervals l' b := by
  simp [InIntervals, or_and_right, exists_or]

theorem mem_mergeForward {iv : Nat × Nat} (h : InIntervals (mergeForward iv l) b) :
    (iv.1 ≤ b ∧ b < iv.2) ∨ InIntervals l b := by
  induction l generalizing iv with
  | nil => simpa [mergeForward] using h
  | cons next l ih =>
    rw [mergeForward] at h
    split_ifs at h with hreach
    · rw [inIntervals_cons]
      rcases ih h with hb | hb
      · simp only [lt_max_iff] at hb
        omega
      · exact .inr (.inr hb)
    · rwa [inIntervals_cons] at h

theorem mem_insertAcked {ins : Nat × Nat} {prev : Option (Nat × Nat)}
    (hprev : ∀ p ∈ prev, p.1 < ins.1) (h : InIntervals (insertAcked ins prev l) b) :
    (ins.1 ≤ b ∧ b < ins.2) ∨ InIntervals (prev.toList ++ l) b := by
  rw [inIntervals_append]
  cases prev with
  | none =>
    rcases mem_mergeForward h with hb | hb
    · exact .inl hb
    · exact .inr (.inr hb)
  | some p =>
    rw [Option.toList_some, inIntervals_cons]
    rw [insertAcked] at h
    split_ifs at h with htouch
    · rcases mem_mergeForward h with hb | hb
      · simp only [lt_max_iff] at hb
        omega
      · exact .inr (.inr hb)
    rw [inIntervals_cons] at h
    rcases h with hb | hb
    · exact .inr (.inl (.inl hb))
    rcases mem_mergeForward hb with hb | hb
    · exact .inl hb
    · exact .inr (.inr hb)

theorem mem_insertAckedFrom (ins : Nat × Nat) (prev : Option (Nat × Nat))
    (hprev : ∀ p ∈ prev, p.1 < ins.1) (h : InIntervals (insertAckedFrom ins prev l) b) :
    (ins.1 ≤ b ∧ b < ins.2) ∨ InIntervals (prev.toList ++ l) b := by
  induction l generalizing prev with
  | nil => exact mem_insertAcked hprev h
  | cons iv l ih =>
    rw [insertAckedFrom] at h
    split_ifs at h with hlt
    · rw [inIntervals_append] at h ⊢
      rcases h with hb | hb
      · exact .inr (.inl hb)
      rcases ih (some iv) (fun p hp => by cases hp; exact hlt) hb with hb | hb
      · exact .inl hb
      · exact .inr (.inr hb)
    · exact mem_insertAcked hprev h

/-- **No byte gets into the acked intervals that is neither in the new range nor was there.** -/
theorem mem_markRangeAcked {begin_ end_ : Nat} (h : InIntervals (markRangeAcked begin_ end_ l) b) :
    (begin_ ≤ b ∧ b < end_) ∨ InIntervals l b := by
  unfold markRangeAcked at h
  split at h
  · exact .inr h
  · exact mem_insertAckedFrom (begin_, end_) none nofun h

/-- A range that counts as fully acked consists of bytes of the acked intervals. -/
theorem inIntervals_of_rangeFullyAcked {begin_ end_ : Nat}
    (h : rangeFullyAcked begin_ end_ l = true) (hb : begin_ ≤ b ∧ b < end_) : InIntervals l b := by
  rw [rangeFullyAcked, if_neg (by omega)] at h
  induction l with
  | nil => cases h
  | cons iv l ih =>
    rw [inIntervals_cons]
    rw [coveredByOne] at h
    split at h
    · rename_i hcov
      exact .inl ⟨by omega, by omega⟩
    split at h
    · cases h
    · exact .inr (ih h)

/-! ## 4. The methods of an upload -/

namespace WsUploadFile

variable (f : WsUploadFile)

/-- `paused`: by the user or by a quota hold. -/
def paused : Bool := f.mPaused || f.mQuotaHeld

def hasFailed : Bool := f.mUploadFailedTime.isSome

def hasPendingBytesOrEofToSend : Bool := decide (f.mHeadPos < f.mSize) || !f.mEofSet

def continuingUpload (now : Nat) : Bool :=
  if f.mUploadCompletionTime.isSome then false
  else
    match f.mUploadFailedTime with
    | some t => decide ((if f.mRetryUntil ≠ 0 then f.mRetryUntil else t + RETRYINTERVAL) ≤ now)
    | none => true

/-- `++mWorkGeneration`; the counter of 64 bits does not wrap here. -/
def invalidateOutstandingWork : WsUploadFile :=
  { f with mWorkGeneration := f.mWorkGeneration + 1 }

def setPaused (p : Bool) : WsUploadFile := { f with mPaused := p }.invalidateOutstandingWork

def setQuotaHeld (q : Bool) : WsUploadFile :=
  let f := { f with mQuotaHeld := q }
  if q then f.invalidateOutstandingWork else f

def setUploadStart (t : Nat) : WsUploadFile :=
  { f.invalidateOutstandingWork with
    mUploadStartTime := some t, mUploadFailedTime := none, mRetryUntil := 0 }

def setRetryUntil (when_ : Nat) : WsUploadFile := { f with mRetryUntil := when_ }

/-- `resetAttemptState`: the upload starts over. -/
def resetAttemptState : WsUploadFile :=
  { f.invalidateOutstandingWork with
    mHeadPos := 0, mBytesConfirmed := 0, mEofSet := false, mUploadStartTime := none,
    mUploadCompletionTime := none, mConfirmedChunkMacs := [], mAckedIntervals := [],
    attempt := { number := f.attempt.number + 1 } }

/-- `markFailed`, private, called by `readData`. -/
def markFailed (now : Nat) : WsUploadFile :=
  { f.resetAttemptState with mUploadFailedTime := some now, mRetryUntil := now + RETRYINTERVAL }

def markFailedForRetry (now retryUntil : Nat) : WsUploadFile :=
  let f := f.resetAttemptState
  let failedTime := f.mUploadFailedTime.getD now
  { f with
    mUploadFailedTime := some failedTime
    mRetryUntil := if retryUntil ≠ 0 then retryUntil else failedTime + RETRYINTERVAL }

/-- `uploadCompleted`, up to the detachment from the pool. -/
def uploadCompleted (now : Nat) : WsUploadFile :=
  { f.invalidateOutstandingWork with
    mUploadCompletionTime := some now, mBytesConfirmed := max f.mBytesConfirmed f.mSize }

/-- `ChunkFingerprintMacUpdate::apply`, with `queueConfirmedChunkMacs`. -/
def applyMacs (macs : ChunkmacMap) : WsUploadFile :=
  if macs.size ≠ 0 then { f with mConfirmedChunkMacs := f.mConfirmedChunkMacs ++ [macs] } else f

theorem applyMacs_eq (macs : ChunkmacMap) : f.applyMacs macs =
    { f with mConfirmedChunkMacs := (f.applyMacs macs).mConfirmedChunkMacs } := by
  unfold applyMacs
  split <;> rfl

theorem foldl_applyMacs_eq (l : List (WsChunk × ChunkmacMap)) (f : WsUploadFile) :
    ∃ macs, l.foldl (fun f x => f.applyMacs x.2) f = { f with mConfirmedChunkMacs := macs } := by
  induction l generalizing f with
  | nil => exact ⟨f.mConfirmedChunkMacs, rfl⟩
  | cons x l ih =>
    obtain ⟨macs, hmacs⟩ := ih (f.applyMacs x.2)
    refine ⟨macs, ?_⟩
    rw [List.foldl_cons, hmacs, applyMacs_eq]

/-- The bytes of the local file that a read of the chunk delivers. -/
def readData (c : WsChunk) : List UInt8 := (f.content.drop c.pos).take c.len

/-- The current attempt is active: started and not failed. A pause does not end it. -/
def Active : Prop := f.mUploadStartTime.isSome = true ∧ f.hasFailed = false

def Acked (b : Nat) : Prop := ∃ a ∈ f.attempt.acked, Covers a.2 b

end WsUploadFile

end MegaSdk.Ws
