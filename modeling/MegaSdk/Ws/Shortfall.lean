/-
  File:      MegaSdk/Ws/Shortfall.lean
  Subject:   THE SILENT BYTE-SHORTFALL WATCHDOG of `WsPoolMgr::checkPools` (ws_pool_mgr.cpp).

  An upload that has sent everything and has nothing in flight or queued, but fewer bytes confirmed
  than it has, is stuck. After a while the watchdog queues again what is not acked, expecting that
  the answers of the server confirm the missing bytes.

  * `Round` -- a run of the pool in which the books of the upload change only by the answers of the
    server;
  * `books_onmessage` -- what one answer does to the books: `AlreadyOnServer` confirms no byte;
  * **`shortfall_recovers_iff`** -- so the upload has all its bytes confirmed afterwards exactly when
    the chunks answered with another event make up for the missing bytes.
-/
import MegaSdk.Ws.Budget
import MegaSdk.Ws.Places
import MegaSdk.Ws.UnackedGaps

namespace MegaSdk.Ws

open Base List

variable {s s' : Pool} {answers : List (WsChunk × WsApiServerEvent)} {confirmed size : Nat}
  {bound : Bool} {event : WsApiServerEvent}

/-! ## 1. The watchdog -/

/-- `isUploading`; nothing in the source aborts an upload of its own. -/
def WsUploadFile.isUploading (f : WsUploadFile) : Bool :=
  f.mUploadStartTime.isSome && !f.mPaused && !f.mQuotaHeld && !f.hasFailed

def WsUploadFile.silentByteShortfallCandidate (f : WsUploadFile) : Bool :=
  decide (0 < f.mSize) && f.isUploading && f.mUploadCompletionTime.isNone &&
    decide (f.mBytesConfirmed < f.mSize) && !f.hasPendingBytesOrEofToSend

namespace Pool

variable (s : Pool)

def fileHasPoolWork (fileno : Nat) : Bool :=
  s.mToResend.any (fun c => c.fileno == fileno) || s.flights.any fun x => x.1.fileno == fileno

def shortfallArmed (fileno : Nat) (f : WsUploadFile) (throttledByServer : Bool) : Bool :=
  f.inPool && !f.paused && !throttledByServer && f.silentByteShortfallCandidate &&
    !s.fileHasPoolWork fileno

/-- The recovery of an upload whose time is over. -/
def recoverShortfall (fileno now : Nat) : Pool :=
  match s.files fileno with
  | none => s
  | some f =>
    let gaps :=
      if f.inPool && s.mAckedChunkRewind then f.collectUnackedGapChunks fileno else []
    let s := { s with mToResend := s.mToResend ++ gaps }
    if gaps.length = 0 then s.restart fileno now else s

/-- One tick of the watchdog for the upload `fileno`, with `mByteShortfallWedgeSinceDs` before and
    after it. -/
def shortfallTick (fileno : Nat) (throttledByServer : Bool) (currentTime shortfallTimeout : Int)
    (mByteShortfallWedgeSinceDs : Int) (now : Nat) : Pool × Int :=
  match s.files fileno with
  | none => (s, mByteShortfallWedgeSinceDs)
  | some f =>
    if s.shortfallArmed fileno f throttledByServer = false then (s, 0)
    else if mByteShortfallWedgeSinceDs = 0 then (s, currentTime)
    else if difference currentTime mByteShortfallWedgeSinceDs > shortfallTimeout then
      (s.recoverShortfall fileno now, 0)
    else (s, mByteShortfallWedgeSinceDs)

end Pool

/-! ## 2. A round -/

/-- The size of an upload, its confirmed bytes, and whether it is bound to the pool. -/
def books (s : Pool) (n : Nat) : Option (Nat × Nat × Bool) :=
  (s.files n).map fun f => (f.mSize, f.mBytesConfirmed, f.inPool)

/-- A run in which the books of the upload `n` change only by confirming answers of the server, with
    the chunks answered. An answer names a chunk in flight, or comes when the upload has left the
    pool. -/
inductive Round (n : Nat) (s : Pool) : List (WsChunk × WsApiServerEvent) → Pool → Prop
  | start : Round n s [] s
  | other {answers : List (WsChunk × WsApiServerEvent)} {s' : Pool} (op : Op) :
      Round n s answers s' → books (s'.exec op) n = books s' n → Round n s answers (s'.exec op)
  | answer {answers : List (WsChunk × WsApiServerEvent)} {s' : Pool} (c now : Nat) (x : WsChunk)
      (event : WsApiServerEvent) : Round n s answers s' → event.confirms = true →
      s'.findFile n = none ∨ (s'.named c n x.pos).map Prod.fst = some x →
      Round n s (answers ++ [(x, event)]) (s'.onmessage c n x.pos event false true now)

theorem Round.execAll {n : Nat} {ops : List Op} (hr : Round n s answers s')
    (h : AllBy Pool.exec (fun op s => books (s.exec op) n = books s n) ops s') :
    Round n s answers (execAll ops s') := by
  induction ops generalizing s' with
  | nil => exact hr
  | cons op ops ih => exact ih (.other op hr h.1) h.2

/-- The bytes of an answered chunk that are counted. -/
def creditOf (a : WsChunk × WsApiServerEvent) : Nat := if a.2.credits then a.1.len else 0

def creditedBytes (answers : List (WsChunk × WsApiServerEvent)) : Nat := (answers.map creditOf).sum

theorem creditedBytes_append (answers) (a : WsChunk × WsApiServerEvent) :
    creditedBytes (answers ++ [a]) = creditedBytes answers + creditOf a := by
  simp [creditedBytes]

section Round

variable {s : Pool} {n c now : Nat} {f : WsUploadFile}

theorem books_eq_some (h : books s n = some (size, confirmed, bound)) :
    ∃ f, s.files n = some f ∧ f.mSize = size ∧ f.mBytesConfirmed = confirmed ∧ f.inPool = bound := by
  obtain ⟨f, hf, he⟩ := Option.map_eq_some_iff.1 h
  cases he
  exact ⟨f, hf, rfl, rfl, rfl⟩

/-- A failed upload has no bytes confirmed and leaves the pool. -/
theorem books_failFile (hf : s.files n = some f) :
    books (s.failFile n now) n = some (f.mSize, 0, false) := by
  have hfiles : (s.purgeFile n).files = s.files := rfl
  unfold books Pool.failFile Pool.uploadFailed
  rw [Pool.files_unsetPool, if_pos rfl, Pool.files_withFile, if_pos rfl, hfiles, hf]
  rfl

theorem books_restart (hf : s.files n = some f) :
    books (s.restart n now) n = some (f.mSize, 0, false) := by
  have hfiles : (s.purgeFile n).files = s.files := rfl
  have hrestart : (s.restart n now).files n =
      (((s.purgeFile n).withFile n (·.markFailedForRetry now 0)).unsetPool n).files n := rfl
  unfold books
  rw [hrestart, Pool.files_unsetPool, if_pos rfl, Pool.files_withFile, if_pos rfl, hfiles, hf]
  rfl

theorem books_takeNamed (x : WsChunk × ChunkmacMap) (event) (m : Nat) :
    books (s.takeNamed c x event) m = books s m := by
  unfold Pool.takeNamed books
  split
  · rw [Pool.files_withFile]
    split_ifs with hm
    · rw [hm, Option.map_map]
      congr 1
      funext f
      simp only [Function.comp_apply]
      rw [WsUploadFile.applyMacs_eq]
    · rfl
  · rfl

theorem books_creditBytes {x : WsChunk} (h : books s x.fileno = some (size, confirmed, bound))
    (hle : confirmed ≤ size) :
    books (s.creditBytes x now) x.fileno =
      if size < confirmed + x.len then some (size, 0, false)
      else some (size, confirmed + x.len, bound) := by
  unfold Pool.creditBytes
  by_cases h0 : x.len = 0
  · rw [if_pos h0, if_neg (by omega), h, h0, add_zero]
  obtain ⟨f, hf, rfl, rfl, rfl⟩ := books_eq_some h
  simp only [if_neg h0]
  have hfiles := Pool.files_withFile s x.fileno (fun f =>
    { f with
      mBytesConfirmed := f.mBytesConfirmed + x.len
      mAckedIntervals := if s.mAckedChunkRewind then
        markRangeAcked x.pos (x.pos + x.len) f.mAckedIntervals else f.mAckedIntervals }) x.fileno
  rw [if_pos rfl, hf, Option.map_some] at hfiles
  rw [hfiles]
  simp only [gt_iff_lt]
  split
  · exact (books_failFile hfiles).trans rfl
  unfold books
  rw [hfiles]
  rfl

/-- **What one confirming answer does to the books.** -/
theorem books_onmessage {x : WsChunk} {event : WsApiServerEvent}
    (hb : books s n = some (size, confirmed, true)) (hle : confirmed ≤ size)
    (hconf : event.confirms = true) (hx : (s.named c n x.pos).map Prod.fst = some x) :
    books (s.onmessage c n x.pos event false true now) n =
      if size < confirmed + creditOf (x, event) then some (size, 0, false)
      else some (size, confirmed + creditOf (x, event), true) := by
  obtain ⟨f, hf, -, -, hin⟩ := books_eq_some hb
  obtain ⟨⟨y, macs⟩, hnamed, rfl⟩ := Option.map_eq_some_iff.1 hx
  have hfile : y.fileno = n := by
    have := find?_some hnamed
    simp only [Bool.and_eq_true, beq_iff_eq] at this
    exact this.2
  subst hfile
  have htake : books (s.takeNamed c (y, macs) event) y.fileno = some (size, confirmed, true) :=
    (books_takeNamed _ _ _).trans hb
  unfold Pool.onmessage
  simp only [Pool.findFile_eq_some.2 ⟨hf, hin⟩, hnamed]
  unfold creditOf
  cases event with
  | chunkIngested | finalDataIngested => exact books_creditBytes htake hle
  | alreadyOnServer =>
    -- the books are as they were
    simp only [reduceCtorEq, if_false, WsApiServerEvent.credits,
      WsApiServerEvent.namesChunk, if_true, add_zero, if_neg hle.not_gt, Pool.handleNamed]
    split
    · exact htake
    · exact htake
  | _ => cases hconf

theorem onmessage_unbound {pos : Nat} (hb : books s n = some (size, confirmed, false)) :
    s.onmessage c n pos event false true now = s := by
  obtain ⟨f, hf, -, -, hin⟩ := books_eq_some hb
  have hnone : s.findFile n = none := by
    rw [Pool.findFile, hf]
    simp [hin]
  rw [Pool.onmessage, hnone]

theorem books_round_unbound (hb : books s n = some (size, confirmed, false))
    (hr : Round n s answers s') : books s' n = some (size, confirmed, false) := by
  induction hr with
  | start => exact hb
  | other op _ hsame ih => exact hsame.trans ih
  | answer c now x event _ _ _ ih => rwa [onmessage_unbound ih]

/-- The books along a round: the answers are counted until they exceed the size. -/
theorem books_round (hb : books s n = some (size, confirmed, true)) (hle : confirmed ≤ size)
    (hr : Round n s answers s') :
    books s' n =
      if size < confirmed + creditedBytes answers then some (size, 0, false)
      else some (size, confirmed + creditedBytes answers, true) := by
  induction hr with
  | start =>
    rw [if_neg (by simpa [creditedBytes] using hle), hb]
    rfl
  | other op _ hsame ih => exact hsame.trans ih
  | @answer answers s' c now x event _ hconf hx ih =>
    rw [creditedBytes_append]
    split at ih
    · -- the upload has left the pool
      rw [if_pos (by omega), onmessage_unbound ih, ih]
    obtain ⟨f, hf, -, -, hin⟩ := books_eq_some ih
    have hnamed := hx.resolve_left (by
      rw [Pool.findFile_eq_some.2 ⟨hf, hin⟩]
      exact nofun)
    rw [books_onmessage ih (by omega) hconf hnamed, add_assoc]

theorem confirms_of_round (hr : Round n s answers s') : ∀ a ∈ answers, a.2.confirms = true := by
  induction hr with
  | start => exact nofun
  | other _ _ _ ih => exact ih
  | answer _ _ x event _ hconf _ ih =>
    intro a ha
    rcases mem_append.1 ha with ha | ha
    · exact ih a ha
    · rwa [mem_singleton.1 ha]

theorem confirmed_iff_books (h : books s n = some (size, confirmed, bound)) :
    (∃ f, s.files n = some f ∧ f.mSize ≤ f.mBytesConfirmed) ↔ size ≤ confirmed := by
  obtain ⟨f, hf, rfl, rfl, -⟩ := books_eq_some h
  refine ⟨fun ⟨g, hg, hle⟩ => ?_, fun hle => ⟨f, hf, hle⟩⟩
  cases hf.symm.trans hg
  exact hle

end Round

/-! ## 3. The recovery -/

/-- The upload `n` is in the silent byte-shortfall state. -/
structure Shortfall (s : Pool) (n : Nat) (f : WsUploadFile) : Prop where
  tracked : s.files n = some f
  armed : s.shortfallArmed n f false = true
  rewind : s.mAckedChunkRewind = true

theorem appendRange_len_pos (fileno : Nat) : ∀ (k g0 g1 : Nat), ∀ c ∈ appendRange fileno k g0 g1,
    0 < c.len
  | 0, _, _, c, hc => absurd hc not_mem_nil
  | k + 1, g0, g1, c, hc => by
      rw [appendRange] at hc
      split at hc
      · simp only at hc
        split_ifs at hc with hlen
        · cases hc
        rcases mem_cons.1 hc with rfl | hc
        · exact pos_of_ne_zero hlen
        · exact appendRange_len_pos fileno k _ _ c hc
      · cases hc

theorem collect_len_pos (f : WsUploadFile) (fileno : Nat) :
    ∀ c ∈ f.collectUnackedGapChunks fileno, 0 < c.len := by
  have hfrom : ∀ (l : List (Nat × Nat)) (cursor : Nat),
      ∀ c ∈ collectFrom fileno f.mHeadPos cursor l, 0 < c.len := by
    intro l
    induction l with
    | nil =>
      intro cursor c hc
      rw [collectFrom] at hc
      split at hc
      · exact appendRange_len_pos _ _ _ _ c hc
      · cases hc
    | cons iv l ih =>
      intro cursor c hc
      rw [collectFrom] at hc
      split at hc
      · cases hc
      rcases mem_append.1 hc with hc | hc
      · split at hc
        · exact appendRange_len_pos _ _ _ _ c hc
        · cases hc
      · exact ih _ c hc
  exact hfrom _ 0

/-- Chunks that all have bytes are all counted when their bytes are. -/
theorem creditedBytes_eq_iff (hpos : ∀ a ∈ answers, 0 < a.1.len) :
    creditedBytes answers ≤ (answers.map fun a => a.1.len).sum ∧
      (creditedBytes answers = (answers.map fun a => a.1.len).sum ↔
        ∀ a ∈ answers, a.2.credits = true) := by
  induction answers with
  | nil => simp [creditedBytes]
  | cons a l ih =>
    obtain ⟨hle, hiff⟩ := ih fun b hb => hpos b (mem_cons_of_mem _ hb)
    have ha := hpos a mem_cons_self
    have hcons : creditedBytes (a :: l) = creditOf a + creditedBytes l := by
      simp [creditedBytes]
    rw [hcons, map_cons, sum_cons, forall_mem_cons]
    unfold creditOf
    cases ha2 : a.2.credits with
    | true =>
      simp only [if_true, true_and]
      rw [← hiff]
      omega
    | false =>
      simp only [Bool.false_eq_true, if_false, false_and, iff_false]
      omega

section Shortfall

variable {s : Pool} {n now : Nat} {f : WsUploadFile}

theorem Shortfall.missing (hs : Shortfall s n f) :
    f.inPool = true ∧ f.mBytesConfirmed < f.mSize := by
  have harmed := hs.armed
  simp only [Pool.shortfallArmed, WsUploadFile.silentByteShortfallCandidate, Bool.and_eq_true,
    decide_eq_true_eq] at harmed
  exact ⟨harmed.1.1.1.1, harmed.1.2.1.2⟩

theorem shortfallTick_expired (hs : Shortfall s n f) {currentTime since timeout : Int}
    (hsince : since ≠ 0) (hover : difference currentTime since > timeout) :
    (s.shortfallTick n false currentTime timeout since now).1 = s.recoverShortfall n now := by
  rw [Pool.shortfallTick, hs.tracked]
  simp [hs.armed, if_neg hsince, if_pos hover]

/-- The recovery keeps the books if it queues a chunk. -/
theorem books_recoverShortfall (now) (hs : Shortfall s n f) :
    books (s.recoverShortfall n now) n =
      if f.collectUnackedGapChunks n = [] then some (f.mSize, 0, false)
      else some (f.mSize, f.mBytesConfirmed, true) := by
  rw [Pool.recoverShortfall, hs.tracked]
  simp only [hs.missing.1, hs.rewind, Bool.and_self, if_true, length_eq_zero_iff]
  split
  · exact books_restart hs.tracked
  · unfold books
    simp [hs.tracked, hs.missing.1]

end Shortfall

/-- **The recovery of a silent byte shortfall.** When its time is over the watchdog queues the gap
    chunks (or starts over, if there are none). After a round in which every one of them is answered
    once with a confirming event the upload has all its bytes confirmed exactly when the chunks
    answered with `ChunkIngested` or `FinalDataIngested` have as many bytes as were missing; if the
    gap chunks are what was missing, exactly when none was answered with `AlreadyOnServer`. -/
theorem shortfall_recovers_iff {s s' : Pool} {n now : Nat} {f : WsUploadFile} (hs : Shortfall s n f)
    {currentTime since timeout : Int} (hsince : since ≠ 0)
    (hover : difference currentTime since > timeout)
    {answers : List (WsChunk × WsApiServerEvent)}
    (hr : Round n (s.shortfallTick n false currentTime timeout since now).1 answers s')
    (hall : (answers.map Prod.fst).Perm (f.collectUnackedGapChunks n)) :
    ((∃ f', s'.files n = some f' ∧ f'.mSize ≤ f'.mBytesConfirmed) ↔
      creditedBytes answers = f.mSize - f.mBytesConfirmed) ∧
    (((f.collectUnackedGapChunks n).map WsChunk.len).sum = f.mSize - f.mBytesConfirmed →
      ((∃ f', s'.files n = some f' ∧ f'.mSize ≤ f'.mBytesConfirmed) ↔
        ∀ a ∈ answers, a.2 ≠ .alreadyOnServer)) := by
  obtain ⟨-, hmiss⟩ := hs.missing
  rw [shortfallTick_expired hs hsince hover] at hr
  have hstart := books_recoverShortfall now hs
  have hcredit : (∃ f', s'.files n = some f' ∧ f'.mSize ≤ f'.mBytesConfirmed) ↔
      creditedBytes answers = f.mSize - f.mBytesConfirmed := by
    split at hstart
    · -- no gap: the upload starts over, and there is nothing to answer
      rename_i hnil
      rw [hnil, perm_nil, map_eq_nil_iff] at hall
      rw [confirmed_iff_books (books_round_unbound hstart hr), hall]
      simp only [creditedBytes, map_nil, sum_nil]
      omega
    have hend := books_round hstart hmiss.le hr
    split at hend
    · rw [confirmed_iff_books hend]
      omega
    · rw [confirmed_iff_books hend]
      omega
  refine ⟨hcredit, fun hsum => ?_⟩
  have hpos : ∀ a ∈ answers, 0 < a.1.len := fun a ha =>
    collect_len_pos f n a.1 (hall.subset (mem_map_of_mem ha))
  have hlens : (answers.map fun a => a.1.len).sum = f.mSize - f.mBytesConfirmed := by
    rw [← hsum, ← (hall.map WsChunk.len).sum_eq, map_map]
    rfl
  rw [hcredit, ← hlens, (creditedBytes_eq_iff hpos).2]
  refine forall₂_congr fun a ha => ?_
  have hconf := confirms_of_round hr a ha
  revert hconf
  cases a.2 <;> decide

/-- An upload of two chunks. The first is acked; the server answers that it already has the second,
    which counts no byte. -/
def shortfallOps : List Op :=
  [.newConn, .enqueue 0 { size := 200000 }, .sendChunk 0 1 true false (some 0),
    .finishRead 0 .ok 2, .finishEncrypt 0, .onmessage 0 0 0 .chunkIngested false true 3,
    .sendChunk 0 4 true false none, .finishRead 0 .ok 5, .finishEncrypt 0,
    .onmessage 0 0 131072 .alreadyOnServer false true 6]

/-- The pool with that upload, and after the recovery. -/
def shortfallPool : Pool := execAll shortfallOps (.fresh true true)

def recoveredPool : Pool := (shortfallPool.shortfallTick 0 false 200 100 50 7).1

def resentPool : Pool :=
  execAll [.sendChunk 0 8 true false none, .finishRead 0 .ok 9, .finishEncrypt 0] recoveredPool

def gapChunk : WsChunk := { pos := 131072, len := 68928, fileno := 0 }

theorem shortfall_shortfallPool : ∃ f, Shortfall shortfallPool 0 f ∧
    f.collectUnackedGapChunks 0 = [gapChunk] ∧ f.mSize - f.mBytesConfirmed = 68928 := by
  have hend : (shortfallPool.files 0).map (fun f => (shortfallPool.shortfallArmed 0 f false,
      f.collectUnackedGapChunks 0, f.mSize - f.mBytesConfirmed)) =
        some (true, [gapChunk], 68928) := by
    decide +kernel
  obtain ⟨f, hf, hfields⟩ := Option.map_eq_some_iff.1 hend
  obtain ⟨harmed, hfields⟩ := Prod.mk.inj hfields
  exact ⟨f, ⟨hf, harmed, rfl⟩, Prod.mk.inj hfields⟩

theorem round_gapChunk (event) (h : event.confirms = true) :
    Round 0 recoveredPool [(gapChunk, event)]
      (resentPool.onmessage 0 0 131072 event false true 10) := by
  have hsent : Round 0 recoveredPool [] resentPool := .execAll .start (by decide +kernel)
  exact .answer 0 10 gapChunk event hsent h (.inr (by decide +kernel))

theorem shortfall_recovers_of_ingested : ∃ s s' f answers, Shortfall s 0 f ∧
    Round 0 (s.shortfallTick 0 false 200 100 50 7).1 answers s' ∧
    (answers.map Prod.fst).Perm (f.collectUnackedGapChunks 0) ∧
      ∃ f', s'.files 0 = some f' ∧ f'.mSize ≤ f'.mBytesConfirmed := by
  obtain ⟨f, hs, hgaps, hmiss⟩ := shortfall_shortfallPool
  have hr := round_gapChunk .chunkIngested rfl
  have hall : ([(gapChunk, WsApiServerEvent.chunkIngested)].map Prod.fst).Perm
      (f.collectUnackedGapChunks 0) := by
    rw [hgaps]
    exact .refl _
  exact ⟨_, _, f, _, hs, hr, hall,
    (shortfall_recovers_iff hs (by decide) (by decide) hr hall).1.2 hmiss.symm⟩

/-- **The shortfall stays**: the server answers again that it already has the chunk. -/
theorem shortfall_stays : ∃ s s' f answers, Shortfall s 0 f ∧
    Round 0 (s.shortfallTick 0 false 200 100 50 7).1 answers s' ∧
    (answers.map Prod.fst).Perm (f.collectUnackedGapChunks 0) ∧
      ¬ ∃ f', s'.files 0 = some f' ∧ f'.mSize ≤ f'.mBytesConfirmed := by
  obtain ⟨f, hs, hgaps, -⟩ := shortfall_shortfallPool
  have hend : books (resentPool.onmessage 0 0 131072 .alreadyOnServer false true 10) 0 =
      some (200000, 131072, true) := by
    decide +kernel
  refine ⟨_, _, f, _, hs, round_gapChunk .alreadyOnServer rfl, ?_, ?_⟩
  · rw [hgaps]
    exact .refl _
  · rw [confirmed_iff_books hend]
    decide

end MegaSdk.Ws
