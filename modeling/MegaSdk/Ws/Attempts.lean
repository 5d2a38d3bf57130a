/-
  File:      MegaSdk/Ws/Attempts.lean
  Subject:   THE COUNT OF CONFIRMED BYTES. What an upload counts as confirmed are the bytes it came
             with and the chunks of its current attempt that were acked, each once.

  Chunks carry no attempt: an ack is matched by file number and position. A reset clears the counters
  of the upload, and where it leaves chunks of the old attempt behind, a late ack counts them in the
  new one (`late_ack_after_markFailed`). The ways to leave some behind are a reset without a purge
  while chunks are in flight or queued, and a worker that took its chunk in an earlier attempt.

  * `Tiles` -- the handed-out ranges follow each other from the start to the head position;
  * `Acct` -- every handed-out range is at most once in flight, queued, in the hands of a worker of
    this attempt or acked, so that no ack is counted twice (`Books.sum_credited`);
  * `confirmed_of_run` -- the count of confirmed bytes in every run that meets the condition.
-/
import MegaSdk.Ws.Places

namespace MegaSdk.Ws.Pool

open Base List Function Bool

variable {s s' : Pool} {hand hand' : List Task} {n c : Nat}
variable {e fileno p pos now : Nat} {l : List (Nat × Nat)} {r : Nat × Nat} {x : WsChunk}
  {f f' : WsUploadFile} {t : Task} {g : WsUploadFile → WsUploadFile} {event : WsApiServerEvent}

/-! ## 1. Ranges that follow each other -/

/-- The ranges of the list follow each other from `p` to `e`, none of them empty. -/
def Tiles : Nat → List (Nat × Nat) → Nat → Prop
  | p, [], e => p = e
  | p, r :: l, e => r.1 = p ∧ 0 < r.2 ∧ Tiles (p + r.2) l e

section

variable (h : Tiles p l e)
include h

theorem Tiles.append {k : Nat} (hk : 0 < k) : Tiles p (l ++ [(e, k)]) (e + k) := by
  induction l generalizing p with
  | nil => exact ⟨h.symm, hk, by rw [h]; rfl⟩
  | cons r l ih => exact ⟨h.1, h.2.1, ih h.2.2⟩

theorem Tiles.le : p ≤ e := by
  induction l generalizing p with
  | nil => exact le_of_eq h
  | cons r l ih =>
    have := ih h.2.2
    omega

theorem Tiles.mem (hr : r ∈ l) : p ≤ r.1 ∧ 0 < r.2 ∧ r.1 + r.2 ≤ e := by
  induction l generalizing p with
  | nil => cases hr
  | cons a l ih =>
    have hle := h.2.2.le
    rcases mem_cons.1 hr with rfl | hr
    · exact ⟨by rw [h.1], h.2.1, h.1 ▸ hle⟩
    · obtain ⟨h₁, h₂⟩ := ih h.2.2 hr
      exact ⟨by omega, h₂⟩

theorem Tiles.sum : p + (l.map (·.2)).sum = e := by
  induction l generalizing p with
  | nil => simpa using show p = e from h
  | cons r l ih =>
    have := ih h.2.2
    rw [map_cons, sum_cons]
    omega

theorem Tiles.nodup : l.Nodup := by
  induction l generalizing p with
  | nil => exact nodup_nil
  | cons r l ih =>
    refine nodup_cons.2 ⟨fun hr => ?_, ih h.2.2⟩
    have := (h.2.2.mem hr).1
    have := h.1
    have := h.2.1
    omega

end

/-! ## 2. The statement -/

/-- The range was acked in the current attempt by an event that counts its bytes. -/
def credited (f : WsUploadFile) (r : Nat × Nat) : Bool :=
  f.attempt.acked.any fun a => a.1.credits && a.2 == r

/-- **The confirmed bytes** are those carried over at the start and the chunks of the current attempt
    acked by an event that counts them, each once; they do not pass the head position. -/
structure Confirmed (f : WsUploadFile) : Prop where
  le_head : f.mBytesConfirmed ≤ f.mHeadPos
  head_le : f.mHeadPos ≤ f.mSize
  nodup : f.attempt.handed.Nodup
  eq : f.mBytesConfirmed =
    f.attempt.carry + ((f.attempt.handed.filter (credited f)).map (·.2)).sum

def quiet (s : Pool) (n : Nat) : Bool :=
  s.flights.all (fun x => x.1.fileno != n) && s.mToResend.all fun x => x.fileno != n

/-- The worker of connection `c` took its chunk in the current attempt of its upload, or the upload
    is no longer bound to the pool. -/
def sameAttempt (s : Pool) (c : Nat) : Bool :=
  match (s.conn c).worker with
  | none => true
  | some t =>
    match s.findFile t.chunk.fileno with
    | none => true
    | some f => t.obj == f.obj && t.attempt == f.attempt.number

/-- An attempt is reset without a purge only when no chunk of its file is in flight or queued, and a
    worker that comes back to a bound upload finds the attempt in which it took its chunk. -/
def OneAttempt : Op → Pool → Prop
  | .markFailed fileno _ _, s => s.quiet fileno = true
  | .clearSessionUrlHintAndRestart fileno pinned, s => pinned = true ∨ s.quiet fileno = true
  | .finishRead c _ _, s => s.sameAttempt c = true
  | .finishEncrypt c, s => s.sameAttempt c = true
  | _, _ => True

instance (op : Op) (s : Pool) : Decidable (OneAttempt op s) := by
  cases op <;> unfold OneAttempt <;> infer_instance

/-! ## 3. The invariant -/

def isRange (n : Nat) (r : Nat × Nat) (x : WsChunk) : Bool := x.fileno == n && x.range == r

/-- The task holds the range `r` of file `n` and belongs to the current attempt of `f`. -/
def live (n : Nat) (r : Nat × Nat) (f : WsUploadFile) (t : Task) : Bool :=
  isRange n r t.chunk && (t.obj == f.obj && t.attempt == f.attempt.number)

theorem isRange_iff : isRange n r x = true ↔ x.fileno = n ∧ x.range = r := by
  simp [isRange]

theorem live_iff : live n r f t = true ↔
    isRange n r t.chunk = true ∧ t.obj = f.obj ∧ t.attempt = f.attempt.number := by
  simp [live]

structure Books (f : WsUploadFile) : Prop where
  tiles : Tiles f.attempt.start f.attempt.handed f.mHeadPos
  head : f.mHeadPos ≤ f.mSize
  carry : f.attempt.carry ≤ f.attempt.start
  bytes : f.mBytesConfirmed = f.attempt.carry +
    ((f.attempt.acked.filter (·.1.credits)).map (·.2.2)).sum

/-- A task is not ahead of its upload, and with the current work generation the upload is bound. -/
def Past (s : Pool) (t : Task) : Prop :=
  t.obj < s.nextObj ∧ ∀ f, s.files t.chunk.fileno = some f → t.obj = f.obj →
    t.attempt ≤ f.attempt.number ∧ t.expectedGeneration ≤ f.mWorkGeneration ∧
      (t.expectedGeneration = f.mWorkGeneration → f.inPool = true)

/-- How often the range `r` of file `n` is in flight or queued. -/
def queued (s : Pool) (n : Nat) (r : Nat × Nat) : Nat := held s [] (isRange n r) fun _ => false

structure Acct (s : Pool) (hand : List Task) : Prop where
  untracked : ∀ n, s.files n = none → ∀ r, 0 < r.2 → queued s n r = 0
  books : ∀ n f, s.files n = some f → f.mUploadCompletionTime = none → Books f
  once : ∀ n f, s.files n = some f → f.mUploadCompletionTime = none → ∀ r, 0 < r.2 →
    held s hand (isRange n r) (live n r f) + (f.attempt.acked.map (·.2)).count r ≤
      f.attempt.handed.count r
  objs : ∀ n f, s.files n = some f → f.obj < s.nextObj
  past : ∀ t ∈ s.tasks ++ hand, Past s t

theorem countP_false_eq {α : Type*} (l : List α) : l.countP (fun _ => false) = 0 := by simp

theorem held_eq_queued (r) (q : Task → Bool) :
    held s hand (isRange n r) q = queued s n r + (s.tasks ++ hand).countP q := by
  unfold queued held
  rw [countP_append, countP_false_eq, countP_nil]
  omega

theorem Past.congr (h : Past s t) (hf : s'.files = s.files) (ho : s'.nextObj = s.nextObj) :
    Past s' t := by
  unfold Past at h ⊢
  rwa [hf, ho]

/-- The uploads stay, and no range is held more often. -/
theorem Acct.of_held (h : Acct s hand) (hf : s'.files = s.files) (ho : s'.nextObj = s.nextObj)
    (ht : ∀ t ∈ s'.tasks ++ hand', t ∈ s.tasks ++ hand ∨ Past s t)
    (hu : ∀ n r, s.files n = none → queued s' n r ≤ queued s n r)
    (hh : ∀ n f r, s.files n = some f → 0 < r.2 →
      held s' hand' (isRange n r) (live n r f) ≤ held s hand (isRange n r) (live n r f)) :
    Acct s' hand' where
  untracked := by
    intro n hn r hr
    rw [hf] at hn
    have := h.untracked n hn r hr
    have := hu n r hn
    omega
  books := hf ▸ h.books
  once := by
    intro n f hfn hcomp r hr
    rw [hf] at hfn
    have := h.once n f hfn hcomp r hr
    have := hh n f r hfn hr
    omega
  objs := by rw [hf, ho]; exact h.objs
  past := by
    intro t htask
    rcases ht t htask with ht | ht
    · exact (h.past t ht).congr hf ho
    · exact ht.congr hf ho

theorem Acct.dropHand (h : Acct s (t :: hand)) : Acct s hand := by
  refine h.of_held rfl rfl (fun t' ht' => .inl ?_) (fun _ _ _ => le_rfl) fun n f r _ _ => ?_
  · simp only [mem_append, mem_cons] at ht' ⊢
    exact ht'.imp id .inr
  · rw [held_cons]
    omega

/-! ## 4. Changes to one upload -/

/-- An upload object gets older. -/
structure Ages (f f' : WsUploadFile) : Prop where
  obj : f'.obj = f.obj
  number : f.attempt.number ≤ f'.attempt.number
  generation : f.mWorkGeneration < f'.mWorkGeneration ∨
    (f'.mWorkGeneration = f.mWorkGeneration ∧ (f.inPool = true → f'.inPool = true))

theorem Past.setFile (h : Past s t) (hf : s.files n = some f) (ha : Ages f f') :
    Past (s.setFile n f') t := by
  refine ⟨h.1, fun g hg hobj => ?_⟩
  rw [files_setFile] at hg
  split at hg
  · rename_i hn
    cases hg
    obtain ⟨h₁, h₂, h₃⟩ := h.2 f (hn ▸ hf) (hobj.trans ha.obj)
    have hnum := ha.number
    rcases ha.generation with hlt | ⟨heq, hin⟩
    · exact ⟨by omega, by omega, fun he => by omega⟩
    · exact ⟨by omega, by omega, fun he => hin (h₃ (by omega))⟩
  · exact h.2 g hg hobj

/-- A change to one upload, with the new books to be shown. -/
theorem Acct.setFile (h : Acct s hand) (hf : s.files n = some f) (ha : Ages f f')
    (hb : f'.mUploadCompletionTime = none → Books f')
    (ho : f'.mUploadCompletionTime = none → ∀ r, 0 < r.2 →
      held s hand (isRange n r) (live n r f') + (f'.attempt.acked.map (·.2)).count r ≤
        f'.attempt.handed.count r) : Acct (s.setFile n f') hand where
  untracked := by
    intro m hm r hr
    rw [files_setFile] at hm
    split at hm
    · cases hm
    · exact h.untracked m hm r hr
  books := forall_setFile hb h.books
  once := forall_setFile ho h.once
  objs := forall_setFile (by rw [ha.obj]; exact h.objs n f hf) h.objs
  past := fun t ht => (h.past t ht).setFile hf ha

theorem Acct.of_sublist (h : Acct s hand) (hf : s'.files = s.files) (ho : s'.nextObj = s.nextObj)
    (hfl : s'.flights.Sublist s.flights) (hre : s'.mToResend.Sublist s.mToResend)
    (ht : s'.tasks = s.tasks) : Acct s' hand :=
  h.of_held hf ho (fun _ htask => .inl (ht ▸ htask)) (fun _ _ _ => held_le hfl hre ht)
    fun _ _ _ _ _ => held_le hfl hre ht

/-- Fields outside the model of the books do not matter. -/
theorem Acct.congr (h : Acct s hand) (hf : s'.files = s.files) (hc : s'.mConns = s.mConns)
    (hr : s'.mToResend = s.mToResend) (ho : s'.nextObj = s.nextObj) : Acct s' hand :=
  h.of_sublist hf ho (by rw [flights_congr hc]) (by rw [hr]) (tasks_congr hc)

theorem Acct.consume (h : Acct s hand) (x) : Acct (s.consumeUploadBudget x) hand :=
  h.congr rfl rfl rfl rfl

theorem Acct.refund (h : Acct s hand) (l) : Acct (s.refundUploadBudget l) hand :=
  h.congr rfl rfl rfl rfl

/-- A change that does not touch the books. -/
structure Keeps (f f' : WsUploadFile) : Prop where
  ages : Ages f f'
  attempt : f'.attempt = f.attempt
  size : f'.mSize = f.mSize
  head : f'.mHeadPos = f.mHeadPos
  bytes : f'.mBytesConfirmed = f.mBytesConfirmed
  completion : f'.mUploadCompletionTime = f.mUploadCompletionTime

theorem live_congr (ho : f'.obj = f.obj) (hn : f'.attempt.number = f.attempt.number) (r) :
    live n r f' = live n r f := by
  funext t
  unfold live
  rw [ho, hn]

theorem Acct.keep (h : Acct s hand) (hf : s.files n = some f) (hk : Keeps f f') :
    Acct (s.setFile n f') hand := by
  refine h.setFile hf hk.ages (fun hcomp => ?_) fun hcomp r hr => ?_
  · have hb := h.books n f hf (hk.completion ▸ hcomp)
    refine ⟨?_, ?_, ?_, ?_⟩
    · rw [hk.attempt, hk.head]
      exact hb.tiles
    · rw [hk.head, hk.size]
      exact hb.head
    · rw [hk.attempt]
      exact hb.carry
    · rw [hk.bytes, hk.attempt]
      exact hb.bytes
  · rw [hk.attempt, live_congr hk.ages.obj (by rw [hk.attempt])]
    exact h.once n f hf (hk.completion ▸ hcomp) r hr

theorem Acct.keepWith (h : Acct s hand) (hg : ∀ f, s.files n = some f → Keeps f (g f)) :
    Acct (s.withFile n g) hand := by
  unfold Pool.withFile
  split
  · rename_i f hf
    exact h.keep hf (hg f hf)
  · exact h

/-- A change that starts the upload over. -/
structure Resets (f f' : WsUploadFile) : Prop where
  obj : f'.obj = f.obj
  attempt : f'.attempt = { number := f.attempt.number + 1 }
  head : f'.mHeadPos = 0
  bytes : f'.mBytesConfirmed = 0
  generation : f.mWorkGeneration < f'.mWorkGeneration

/-- No task belongs to an attempt that has just begun. -/
theorem countP_live_reset {l : List Task} (hp : ∀ t ∈ l, Past s t) (hf : s.files n = some f)
    (hr : Resets f f') (r) : l.countP (live n r f') = 0 := by
  rw [countP_eq_zero]
  intro t ht hlive
  obtain ⟨hrange, hobj, hatt⟩ := live_iff.1 hlive
  have hn := (isRange_iff.1 hrange).1
  have := ((hp t ht).2 f (hn ▸ hf) (hobj.trans hr.obj)).1
  rw [hr.attempt] at hatt
  simp only at hatt
  omega

/-- A reset is in order when no chunk of the upload is in flight or queued. -/
theorem Acct.reset (h : Acct s hand) (hf : s.files n = some f) (hr : Resets f f')
    (hq : ∀ r, 0 < r.2 → queued s n r = 0) : Acct (s.setFile n f') hand := by
  refine h.setFile hf ⟨hr.obj, by rw [hr.attempt]; exact Nat.le_succ _, .inl hr.generation⟩
    (fun _ => ?_) fun _ r hpos => ?_
  · refine ⟨?_, ?_, ?_, ?_⟩
    · rw [hr.attempt, hr.head]
      rfl
    · rw [hr.head]
      exact Nat.zero_le _
    · rw [hr.attempt]
    · rw [hr.bytes, hr.attempt]
      rfl
  · rw [held_eq_queued, hq r hpos, countP_live_reset h.past hf hr, hr.attempt]
    simp

theorem Acct.resetWith (h : Acct s hand) (hg : ∀ f, s.files n = some f → Resets f (g f))
    (hq : ∀ r, 0 < r.2 → queued s n r = 0) : Acct (s.withFile n g) hand := by
  unfold Pool.withFile
  split
  · rename_i f hf
    exact h.reset hf (hg f hf) hq
  · exact h

theorem queued_of_quiet (h : s.quiet n = true) (r) : queued s n r = 0 := by
  unfold quiet at h
  rw [and_eq_true, all_eq_true, all_eq_true] at h
  unfold queued held
  have hfl : s.flights.countP (fun x => isRange n r x.1) = 0 := by
    rw [countP_eq_zero]
    intro x hx hrange
    simpa [(isRange_iff.1 hrange).1] using h.1 x hx
  have hre : s.mToResend.countP (isRange n r) = 0 := by
    rw [countP_eq_zero]
    intro x hx hrange
    simpa [(isRange_iff.1 hrange).1] using h.2 x hx
  rw [hfl, hre, countP_false_eq, countP_nil]

/-! ## 5. Failures -/

theorem Acct.purgeFile (h : Acct s hand) : Acct (s.purgeFile n) hand :=
  h.of_sublist rfl rfl (flights_purgeFile ▸ filter_sublist) filter_sublist
    tasks_purgeFile

theorem queued_purgeFile (r) : queued (s.purgeFile n) n r = 0 := by
  unfold queued
  rw [held_purgeFile_self fun x hx => (isRange_iff.1 hx).1, countP_false_eq, countP_nil]

theorem files_withFile_unsetPool (g) :
    ((s.withFile n g).unsetPool n).files =
      (s.withFile n fun f => { g f with inPool := false }).files := by
  funext m
  rw [files_unsetPool, files_withFile, files_withFile, files_withFile, if_pos rfl]
  split
  · rw [Option.map_map]
    rfl
  · rfl

theorem Acct.purgeReset (h : Acct s hand) (hg : ∀ f, s.files n = some f → Resets f (g f)) :
    Acct (((s.purgeFile n).withFile n g).unsetPool n) hand := by
  have hreset : Acct ((s.purgeFile n).withFile n fun f => { g f with inPool := false }) hand :=
    h.purgeFile.resetWith (fun f hf => by
      have hr := hg f hf
      exact { hr with }) fun r _ => queued_purgeFile r
  exact hreset.congr (files_withFile_unsetPool g) (by simp) (by simp) (by simp)

theorem Resets.markFailed (f now) : Resets f (f.markFailed now) :=
  ⟨rfl, rfl, rfl, rfl, lt_add_one _⟩

theorem Resets.markFailedForRetry (f) (now retryUntil : Nat) :
    Resets f (f.markFailedForRetry now retryUntil) :=
  ⟨rfl, rfl, rfl, rfl, lt_add_one _⟩

theorem Resets.resetAttemptState (f) : Resets f f.resetAttemptState :=
  ⟨rfl, rfl, rfl, rfl, lt_add_one _⟩

theorem Acct.failFile (h : Acct s hand) (now) : Acct (s.failFile n now) hand :=
  h.purgeReset fun f _ => .markFailed f now

theorem Acct.restart (h : Acct s hand) (now) : Acct (s.restart n now) hand := by
  have hreset : Acct (((s.purgeFile n).withFile n (·.markFailedForRetry now 0)).unsetPool n) hand :=
    h.purgeReset fun f _ => .markFailedForRetry f now 0
  exact hreset.congr rfl rfl rfl rfl

theorem purgeFile_withFile (g) : (s.withFile n g).purgeFile n = (s.purgeFile n).withFile n g := by
  unfold Pool.withFile
  cases hf : s.files n with
  | none =>
    rw [show (s.purgeFile n).files n = none from hf]
  | some f =>
    rw [show (s.purgeFile n).files n = some f from hf]
    rfl

theorem Acct.clearSessionUrlHintAndRestart (h : Acct s hand) {pinned : Bool}
    (hq : pinned = true ∨ s.quiet n = true) :
    Acct (s.clearSessionUrlHintAndRestart n pinned) hand := by
  unfold Pool.clearSessionUrlHintAndRestart
  split
  · have hreset : Acct (((s.purgeFile n).withFile n (·.resetAttemptState)).unsetPool n) hand :=
      h.purgeReset fun f _ => .resetAttemptState f
    rw [← purgeFile_withFile] at hreset
    refine hreset.congr ?_ ?_ ?_ ?_
    · funext m
      rw [files_unsetPool, files_unsetPool]
      rfl
    · rw [mConns_unsetPool, mConns_unsetPool]
      rfl
    · rw [mToResend_unsetPool, mToResend_unsetPool]
      rfl
    · rw [nextObj_unsetPool, nextObj_unsetPool]
      rfl
  · rename_i hpin
    have hquiet := hq.resolve_left hpin
    have hreset : Acct (s.withFile n (·.resetAttemptState)) hand :=
      h.resetWith (fun f _ => .resetAttemptState f) fun r _ => queued_of_quiet hquiet r
    exact hreset.congr rfl rfl rfl rfl

theorem Acct.remove (h : Acct s hand) : Acct (s.remove n) hand := by
  have hp := h.purgeFile (n := n)
  have hgone : ∀ m f, (s.remove n).files m = some f → m ≠ n ∧ s.files m = some f := by
    intro m f hf
    rcases ite_eq_iff.1 hf with ⟨_, hf⟩ | ⟨hm, hf⟩
    · cases hf
    · exact ⟨hm, hf⟩
  refine ⟨?_, ?_, ?_, ?_, ?_⟩
  · intro m hm r hr
    by_cases hmn : m = n
    · rw [hmn]
      exact queued_purgeFile r
    · exact hp.untracked m ((if_neg hmn).symm.trans hm) r hr
  · exact fun m f hf => hp.books m f (hgone m f hf).2
  · exact fun m f hf => hp.once m f (hgone m f hf).2
  · exact fun m f hf => hp.objs m f (hgone m f hf).2
  · intro t ht
    exact ⟨(hp.past t ht).1, fun f hf => (hp.past t ht).2 f (hgone _ f hf).2⟩

theorem Acct.enqueue (h : Acct s hand) (u : NewUpload) : Acct (s.enqueue n u) hand := by
  unfold Pool.enqueue
  split
  · exact h
  rename_i hnone
  have hbooks : Books (u.file s.nextObj) :=
    { tiles := rfl
      head := by
        show (if u.hasSessionUrl then min u.pos u.size else 0) ≤ u.size
        split <;> omega
      carry := by
        dsimp only [NewUpload.file]
        split
        · exact Nat.min_le_right _ _
        · exact Nat.zero_le _
      bytes := rfl }
  refine ⟨?_, forall_setFile (fun _ => hbooks) h.books, forall_setFile (fun _ r hr => ?_) h.once,
    forall_setFile (Nat.lt_succ_self _) fun m g hg => Nat.lt_succ_of_lt (h.objs m g hg), ?_⟩
  · intro m hm r hr
    rcases ite_eq_iff.1 hm with ⟨_, hm⟩ | ⟨_, hm⟩
    · cases hm
    · exact h.untracked m hm r hr
  · have htasks : (s.tasks ++ hand).countP (live n r (u.file s.nextObj)) = 0 := by
      rw [countP_eq_zero]
      intro t ht hlive
      have := (h.past t ht).1
      have hobj : t.obj = s.nextObj := (live_iff.1 hlive).2.1
      omega
    have hheld : held s hand (isRange n r) (live n r (u.file s.nextObj)) = 0 := by
      rw [held_eq_queued, htasks, h.untracked n hnone r hr]
    exact Nat.le_of_eq ((Nat.add_eq_zero_iff.2 ⟨hheld, rfl⟩).trans rfl)
  intro t ht
  have hp := h.past t ht
  refine ⟨Nat.lt_succ_of_lt hp.1, fun g hg hobj => ?_⟩
  rcases ite_eq_iff.1 hg with ⟨_, hg⟩ | ⟨_, hg⟩
  · cases hg
    exact absurd hobj (Nat.ne_of_lt hp.1)
  · exact hp.2 g hg hobj

/-! ## 6. Sending -/

theorem queued_setWorker (w : Option Task) (r) : queued (s.setWorker c w) n r = queued s n r := by
  unfold queued held
  simp only [flights_setWorker, countP_false_eq]
  rfl

theorem Acct.takeWorker (h : Acct s hand) (ht : (s.conn c).worker = some t) :
    Acct (s.setWorker c none) (t :: hand) := by
  refine h.of_held rfl rfl (fun t' ht' => .inl ?_)
    (fun n r _ => le_of_eq (queued_setWorker ..)) fun n f r _ _ => ?_
  · rcases mem_append.1 ht' with ht' | ht'
    · rcases mem_tasks_setWorker ht' with hw | ht'
      · cases hw
      · exact mem_append_left _ ht'
    · rcases mem_cons.1 ht' with rfl | ht'
      · exact mem_append_left _ (mem_tasks.2 ⟨c, ht⟩)
      · exact mem_append_right _ ht'
  · rw [held_takeWorker ht]

theorem Acct.giveWorker (h : Acct s (t :: hand)) (hc : c < s.mConns.length)
    (hw : (s.conn c).worker = none) (phase : Phase) (macs : ChunkmacMap) :
    Acct (s.setWorker c (some { t with phase, macs })) hand := by
  refine h.of_held rfl rfl (fun u hu => ?_)
    (fun n r _ => le_of_eq (queued_setWorker _ r)) fun n f r _ _ => ?_
  · rcases mem_append.1 hu with hu | hu
    · rcases mem_tasks_setWorker hu with hu | hu
      · cases hu
        exact .inr (h.past t (mem_append_right _ mem_cons_self))
      · exact .inl (mem_append_left _ hu)
    · exact .inl (mem_append_right _ (mem_cons_of_mem _ hu))
  · rw [held_giveWorker hc hw, held_cons, held_cons]
    exact le_rfl

/-- The task belongs to the current attempt of the bound upload of its chunk. -/
def Current (s : Pool) (t : Task) : Prop :=
  ∃ f, s.findFile t.chunk.fileno = some f ∧ t.obj = f.obj ∧ t.attempt = f.attempt.number

theorem Current.live (h : Current s t) (hf : s.files n = some f) (hr : isRange n r t.chunk = true) :
    live n r f t = true := by
  obtain ⟨g, hg, hobj, hatt⟩ := h
  have hn := (isRange_iff.1 hr).1
  rw [hn] at hg
  cases (findFile_eq_some.1 hg).1.symm.trans hf
  exact live_iff.2 ⟨hr, hobj, hatt⟩

theorem Current.tracked (h : Current s t) (hn : s.files n = none) :
    isRange n r t.chunk = false := by
  obtain ⟨g, hg, _⟩ := h
  cases hr : isRange n r t.chunk
  · rfl
  · rw [(isRange_iff.1 hr).1] at hg
    cases hn.symm.trans (findFile_eq_some.1 hg).1

/-- A chunk of the current attempt goes to the queue or in flight. -/
theorem Acct.store (h : Acct s (t :: hand)) (ht : Current s t) (hf : s'.files = s.files)
    (ho : s'.nextObj = s.nextObj) (htasks : s'.tasks = s.tasks)
    (hheld : ∀ hand n r q, held s' hand (isRange n r) q =
      held s hand (isRange n r) q + (isRange n r t.chunk).toNat) : Acct s' hand := by
  refine h.of_held hf ho (fun u hu => .inl ?_) (fun n r hn => ?_) fun n f r hfn _ => ?_
  · rw [htasks] at hu
    simp only [mem_append, mem_cons] at hu ⊢
    exact hu.imp id .inr
  · unfold queued
    rw [hheld, ht.tracked hn]
    exact le_rfl
  rw [hheld, held_cons]
  cases hr : isRange n r t.chunk
  · simp
  · rw [ht.live hfn hr]

theorem isRange_congr {y : WsChunk} (hn : y.fileno = x.fileno) (hr : y.range = x.range) (m : Nat)
    (r) : isRange m r y = isRange m r x := by
  unfold isRange
  rw [hn, hr]

theorem Acct.requeue (h : Acct s (t :: hand)) (ht : Current s t) (hn : x.fileno = t.chunk.fileno)
    (hr : x.range = t.chunk.range) : Acct (s.requeue x) hand :=
  h.store ht rfl rfl rfl fun hand n r q => by rw [held_requeue, isRange_congr hn hr]

theorem Acct.putInFlight (h : Acct s (t :: hand)) (ht : Current s t) (hc : c < s.mConns.length)
    (macs : ChunkmacMap) : Acct (s.putInFlight c t.chunk macs) hand := by
  have hput : Acct
      { s.setConn c { s.conn c with
          mChunksInFlight := (s.conn c).mChunksInFlight ++ [(t.chunk, macs)] } with
        mNumChunksInFlight := s.mNumChunksInFlight + 1 } hand := by
    refine h.store ht rfl rfl (tasks_setInFlight _) fun hand n r q => ?_
    have hheld := held_putInFlight hand (isRange n r) q hc t.chunk macs
    unfold Pool.putInFlight at hheld
    rwa [held_withFile] at hheld
  -- the record of what was sent is not part of the books
  unfold Pool.putInFlight
  simp only
  unfold Pool.withFile
  split
  · rename_i f hf
    refine hput.setFile hf ⟨rfl, le_rfl, .inr ⟨rfl, id⟩⟩ (fun hcomp => ?_) fun hcomp r hr => ?_
    · have hb := hput.books _ f hf hcomp
      exact { hb with }
    · exact hput.once _ f hf hcomp r hr
  · exact hput

/-- The task that `sendChunk` makes of a chunk of the upload `f`. -/
def taskOf (x : WsChunk) (f : WsUploadFile) : Task where
  chunk := x
  expectedGeneration := f.mWorkGeneration
  obj := f.obj
  attempt := f.attempt.number

/-- The task that `sendChunk` makes of a chunk, if its upload is bound. -/
def taskFor (s : Pool) (x : WsChunk) : List Task := (s.findFile x.fileno).toList.map (taskOf x)

theorem mem_taskFor (h : t ∈ taskFor s x) : ∃ f, s.findFile x.fileno = some f ∧ t = taskOf x f := by
  obtain ⟨f, hf, rfl⟩ := mem_map.1 h
  exact ⟨f, Option.mem_toList.1 hf, rfl⟩

theorem past_taskFor (ho : ∀ n f, s.files n = some f → f.obj < s.nextObj) (h : t ∈ taskFor s x) :
    Past s t := by
  obtain ⟨f, hf, rfl⟩ := mem_taskFor h
  obtain ⟨hfile, hin⟩ := findFile_eq_some.1 hf
  refine ⟨ho _ f hfile, fun g hg _ => ?_⟩
  cases hfile.symm.trans hg
  exact ⟨le_rfl, le_rfl, fun _ => hin⟩

theorem countP_live_taskFor (x r f) :
    (taskFor s x).countP (live n r f) ≤ (isRange n r x).toNat := by
  unfold taskFor
  cases s.findFile x.fileno with
  | none => simp
  | some g =>
    rw [Option.toList_some, map_singleton, countP_singleton]
    unfold live
    rw [show (taskOf x g).chunk = x from rfl]
    cases isRange n r x
    · simp
    · split <;> simp

/-- A chunk becomes a task, if its range was handed out once more than it is held. -/
theorem Acct.takeFor (h : Acct s [])
    (hx : ∀ m g, s.files m = some g → g.mUploadCompletionTime = none → ∀ r, 0 < r.2 →
      isRange m r x = true → held s [] (isRange m r) (live m r g) +
        (g.attempt.acked.map (·.2)).count r + 1 ≤ g.attempt.handed.count r) :
    Acct s (taskFor s x) := by
  refine ⟨h.untracked, h.books, fun m g hg hc r hr => ?_, h.objs, fun t ht => ?_⟩
  · have htask := countP_live_taskFor (s := s) (n := m) x r g
    have honce := h.once m g hg hc r hr
    have hmore := hx m g hg hc r hr
    rw [held_eq_queued, append_nil] at honce hmore
    rw [held_eq_queued, countP_append]
    cases hrange : isRange m r x with
    | false =>
      rw [hrange, toNat_false] at htask
      omega
    | true =>
      have := hmore hrange
      rw [hrange, toNat_true] at htask
      omega
  · rcases mem_append.1 ht with ht | ht
    · exact h.past t (mem_append_left _ ht)
    · exact past_taskFor h.objs ht

theorem Acct.scanResend (h : Acct s []) (budget : Bool) :
    Acct { s with mToResend := (s.scanResend budget s.mToResend).rest }
      ((s.scanResend budget s.mToResend).chunk?.toList.flatMap (taskFor s)) := by
  have hle : ∀ n r, (s.scanResend budget s.mToResend).rest.countP (isRange n r) +
      (s.scanResend budget s.mToResend).chunk?.toList.countP (isRange n r) ≤
        s.mToResend.countP (isRange n r) := fun n r => by
    obtain ⟨k, hk, -⟩ := countP_scanResend (s := s) budget (isRange n r) s.mToResend
    omega
  generalize s.scanResend budget s.mToResend = scan at hle ⊢
  refine h.of_held rfl rfl (fun t ht => ?_) (fun n r _ => ?_) fun n f r _ _ => ?_
  · rcases mem_append.1 ht with ht | ht
    · exact .inl (mem_append_left _ ht)
    · obtain ⟨x, _, hx⟩ := mem_flatMap.1 ht
      exact .inr (past_taskFor h.objs hx)
  · have := hle n r
    unfold queued held
    rw [show ({ s with mToResend := scan.rest } : Pool).flights = s.flights from rfl, countP_false_eq]
    dsimp only
    omega
  have := hle n r
  have htask : (scan.chunk?.toList.flatMap (taskFor s)).countP (live n r f) ≤
      scan.chunk?.toList.countP (isRange n r) := by
    cases scan.chunk? with
    | none => simp
    | some x =>
      have hx := countP_live_taskFor (s := s) (n := n) x r f
      cases hr : isRange n r x <;> simp [hr] at hx ⊢ <;> omega
  unfold held
  rw [show ({ s with mToResend := scan.rest } : Pool).flights = s.flights from rfl,
    show ({ s with mToResend := scan.rest } : Pool).tasks = s.tasks from rfl]
  dsimp only
  omega

theorem Keeps.setUploadStart (f now) (bound : Bool) :
    Keeps f { f.setUploadStart now with inPool := bound } :=
  ⟨⟨rfl, le_rfl, .inl (lt_add_one _)⟩, rfl, rfl, rfl, rfl, rfl⟩

theorem Acct.getWsUploadFile (h : Acct s hand) (now) (pick : Option Nat) :
    Acct (s.getWsUploadFile now pick).1 hand := by
  unfold Pool.getWsUploadFile
  split
  · exact h
  split
  · exact h
  split
  · exact h
  rename_i f hf
  split
  · split
    · exact (h.keep hf (.setUploadStart ..)).congr rfl rfl rfl rfl
    · exact h.keep hf (.setUploadStart f now f.inPool)
  · exact h

section

variable (h : Acct s [])
include h

/-- The head position moves over a range that is recorded as handed out and now in hand. -/
theorem Acct.advanceHead {k : Nat} (hf : s.files n = some f)
    (hk : f.mUploadCompletionTime = none → 0 < k ∧ f.mHeadPos + k ≤ f.mSize) (eof : Bool) :
    Acct (s.setFile n (advanced f eof k)) (taskFor (s.setFile n (advanced f eof k))
      { pos := f.mHeadPos, len := k, fileno := n }) := by
  have hnew : f.mUploadCompletionTime = none → ∀ r, 0 < r.2 →
      held s [] (isRange n r) (live n r f) + (f.attempt.acked.map (·.2)).count r +
        (isRange n r { pos := f.mHeadPos, len := k, fileno := n }).toNat ≤
          (f.attempt.handed ++ [(f.mHeadPos, k)]).count r := by
    intro hc r hr
    have honce := h.once n f hf hc r hr
    rw [count_append]
    have hrange : (isRange n r { pos := f.mHeadPos, len := k, fileno := n }).toNat =
        [(f.mHeadPos, k)].count r := by
      rw [count_singleton]
      unfold isRange WsChunk.range
      cases ((f.mHeadPos, k) == r) <;> simp
    omega
  have hset : Acct (s.setFile n (advanced f eof k)) [] := by
    refine h.setFile hf ⟨rfl, le_rfl, .inr ⟨rfl, id⟩⟩ (fun hc => ?_) fun hc r hr => ?_
    · have hb := h.books n f hf hc
      exact ⟨hb.tiles.append (hk hc).1, (hk hc).2, hb.carry, hb.bytes⟩
    · exact (Nat.le_add_right _ _).trans (hnew hc r hr)
  refine hset.takeFor fun m g hg hc r hr hrange => ?_
  obtain rfl : n = m := (isRange_iff.1 hrange).1
  cases (if_pos rfl).symm.trans hg
  have := hnew hc r hr
  rwa [hrange] at this

theorem Acct.addEmpty (hx : x.len = 0) : Acct s (taskFor s x) :=
  h.takeFor fun m g _ _ r hr hrange => by
    rw [← (isRange_iff.1 hrange).2] at hr
    exact absurd hx (ne_of_gt hr)

theorem Acct.freshChunk (budget : Bool) : Acct (s.freshChunk n budget).1
    ((s.freshChunk n budget).2.toList.flatMap (taskFor (s.freshChunk n budget).1)) := by
  unfold Pool.freshChunk
  cases hf : s.files n with
  | none => exact h
  | some f =>
    simp only
    split
    · have hmark : Acct (s.setFile n { f with mEofSet := true }) [] :=
        h.keep hf ⟨⟨rfl, le_rfl, .inr ⟨rfl, id⟩⟩, rfl, rfl, rfl, rfl, rfl⟩
      rw [Option.toList_some, flatMap_singleton]
      exact hmark.addEmpty rfl
    rename_i hne
    rw [ite_mEofSet]
    split
    · rw [Option.toList_some, flatMap_singleton]
      refine (h.advanceHead hf (fun hcomp => ?_) _).consume _
      have hb := h.books n f hf hcomp
      exact ⟨wsFreshChunkAdvance_pos (lt_of_le_of_ne hb.head hne),
        wsFreshChunkAdvance_le hb.head⟩
    · exact h.keep hf ⟨⟨rfl, le_rfl, .inr ⟨rfl, id⟩⟩, rfl, rfl, rfl, rfl, rfl⟩

theorem Acct.nextChunk (now) (budget enginePaused : Bool)
    (pick : Option Nat) : Acct (s.nextChunk now budget enginePaused pick).1
      ((s.nextChunk now budget enginePaused pick).2.toList.flatMap
        (taskFor (s.nextChunk now budget enginePaused pick).1)) := by
  have hscan := h.scanResend budget
  unfold Pool.nextChunk
  cases hr : s.scanResend budget s.mToResend with
  | taken x rest =>
    rw [hr] at hscan
    exact hscan.consume x
  | denied rest =>
    rwa [hr] at hscan
  | passed rest =>
    rw [hr] at hscan
    replace hscan : Acct { s with mToResend := rest } [] := hscan
    simp only
    cases enginePaused with
    | true => exact hscan
    | false =>
      have hget := hscan.getWsUploadFile now pick
      generalize ({ s with mToResend := rest } : Pool).getWsUploadFile now pick = r at hget
      obtain ⟨s₁, picked⟩ := r
      cases picked with
      | none => exact hget
      | some n => exact hget.freshChunk budget

end

theorem current_taskOf (hf : s.findFile x.fileno = some f) :
    Current s (taskOf x f) := ⟨f, hf, rfl, rfl⟩

theorem Acct.sendChunk (h : Acct s []) (now : Nat) (budget enginePaused : Bool)
    (pick : Option Nat) : Acct (s.sendChunk c now budget enginePaused pick) [] := by
  unfold Pool.sendChunk
  split
  · rename_i hc
    have hnext := h.nextChunk now budget enginePaused pick
    have hconns := mConns_nextChunk (s := s) now budget enginePaused pick
    generalize s.nextChunk now budget enginePaused pick = r at hnext hconns
    obtain ⟨s₁, chunk?⟩ := r
    cases chunk? with
    | none => exact hnext
    | some x =>
      replace hnext : Acct s₁ (taskFor s₁ x) := by simpa using hnext
      replace hconns : s₁.mConns = s.mConns := hconns
      have hlt : c < s₁.mConns.length := hconns ▸ hc.1
      have hfree : (s₁.conn c).worker = none := by
        rw [conn, hconns]
        exact Option.isNone_iff_eq_none.1 hc.2
      unfold taskFor at hnext
      simp only
      cases hfind : s₁.findFile x.fileno with
      | none =>
        rwa [hfind] at hnext
      | some f =>
        rw [hfind] at hnext
        replace hnext : Acct s₁ [taskOf x f] := hnext
        have hcur := current_taskOf hfind
        simp only
        split
        · split
          · exact hnext.requeue hcur rfl rfl
          · split
            · exact hnext.dropHand
            · exact hnext.putInFlight hcur hlt {}
        · exact hnext.giveWorker hlt hfree _ _
  · exact h

theorem current_of_sameAttempt (h : s.sameAttempt c = true) (ht : (s.conn c).worker = some t)
    (hf : s.findFile t.chunk.fileno = some f) : Current s t := by
  unfold sameAttempt at h
  rw [ht] at h
  simp only [hf, and_eq_true, beq_iff_eq] at h
  exact ⟨f, hf, h.1, h.2⟩

theorem Acct.afterFailedRead (h : Acct s (t :: hand))
    (hbound : ∀ f, s.files t.chunk.fileno = some f → f.obj = t.obj → f.inPool = true)
    (hcur : ∀ f, s.findFile t.chunk.fileno = some f → f.obj = t.obj) (now : Nat) :
    Acct (s.afterFailedRead t now) hand := by
  set g : WsUploadFile → WsUploadFile := fun f => if f.obj = t.obj then f.markFailed now else f
    with hg
  have hstate : s.afterFailedRead t now =
      match (s.withFile t.chunk.fileno g).findFile t.chunk.fileno with
      | none => s.withFile t.chunk.fileno g
      | some f =>
        let s := ((s.withFile t.chunk.fileno g).refundUploadBudget [t.chunk]).purgeFile
          t.chunk.fileno
        if f.hasFailed then s.unsetPool t.chunk.fileno
        else s.uploadFailed t.chunk.fileno now := rfl
  rw [hstate]
  cases hf : s.files t.chunk.fileno with
  | none =>
    have hid : s.withFile t.chunk.fileno g = s := by
      unfold Pool.withFile
      rw [hf]
    rw [hid, findFile, hf]
    exact h.dropHand
  | some f =>
    have hfile : (s.withFile t.chunk.fileno g).files t.chunk.fileno = some (g f) := by
      rw [files_withFile, if_pos rfl, hf, Option.map_some]
    by_cases hobj : f.obj = t.obj
    · have hgf : g f = f.markFailed now := if_pos hobj
      have hfind : (s.withFile t.chunk.fileno g).findFile t.chunk.fileno =
          some (f.markFailed now) :=
        findFile_eq_some.2 ⟨hgf ▸ hfile, hbound f hf hobj⟩
      rw [hfind]
      simp only
      rw [refundUploadBudget_withFile, purgeFile_withFile]
      refine (h.dropHand.refund _).purgeReset fun f' hf' => ?_
      cases hf.symm.trans hf'
      rw [hgf]
      exact .markFailed f now
    have hgf : g f = f := if_neg hobj
    have hout : f.inPool = false := by
      cases hin : f.inPool
      · rfl
      · exact absurd (hcur f (findFile_eq_some.2 ⟨hf, hin⟩)) hobj
    have hfind : (s.withFile t.chunk.fileno g).findFile t.chunk.fileno = none := by
      rw [findFile, hfile, hgf]
      simp [hout]
    rw [hfind]
    refine h.dropHand.keepWith fun f' hf' => ?_
    cases hf.symm.trans hf'
    rw [hgf]
    exact ⟨⟨rfl, le_rfl, .inr ⟨rfl, id⟩⟩, rfl, rfl, rfl, rfl, rfl⟩

theorem Acct.finishRead (h : Acct s []) (hcond : s.sameAttempt c = true) (outcome : ReadOutcome)
    (now : Nat) : Acct (s.finishRead c outcome now) [] := by
  unfold Pool.finishRead
  split
  · exact h
  rename_i t ht
  split
  · exact h
  have htake := h.takeWorker ht
  obtain ⟨hlt, hfree⟩ := conn_setWorker_self ht
  have hcur : ∀ f, (s.setWorker c none).findFile t.chunk.fileno = some f →
      Current (s.setWorker c none) t := fun f hf =>
    show Current s t from current_of_sameAttempt hcond ht hf
  simp only
  split
  · unfold Pool.afterInterrupt
    split
    · exact htake.dropHand
    · rename_i f hf
      exact (htake.requeue (hcur f hf) rfl rfl).refund _
  rename_i hwork
  have hsame : s.sameWork t = true := by simpa using fun e => hwork (.inr e)
  split
  · unfold Pool.afterRead
    split
    · exact htake.dropHand.refund _
    rename_i f hf
    split
    · exact (htake.requeue (hcur f hf) rfl rfl).refund _
    split
    · exact htake.dropHand.refund _
    · exact htake.giveWorker hlt hfree _ _
  refine htake.afterFailedRead (fun f hf hobj => ?_) (fun f hf => ?_) now
  · -- with an unchanged work generation the upload is still bound
    have hp := (h.past t (mem_append_left _ (mem_tasks.2 ⟨c, ht⟩))).2 f hf hobj.symm
    unfold sameWork at hsame
    rw [show s.files t.chunk.fileno = some f from hf] at hsame
    simp only [hobj, bne_self_eq_false, Bool.false_or, beq_iff_eq] at hsame
    exact hp.2.2 hsame.symm
  · obtain ⟨g, hg, hobj, _⟩ := hcur f hf
    cases hf.symm.trans hg
    exact hobj.symm

theorem Acct.finishEncrypt (h : Acct s []) (hcond : s.sameAttempt c = true) :
    Acct (s.finishEncrypt c) [] := by
  unfold Pool.finishEncrypt
  split
  · exact h
  rename_i t ht
  split
  · exact h
  have htake := h.takeWorker ht
  obtain ⟨hlt, _⟩ := conn_setWorker_self ht
  unfold Pool.afterEncrypt
  split
  · exact htake.dropHand.refund _
  rename_i f hf
  have hcur : Current (s.setWorker c none) t :=
    show Current s t from current_of_sameAttempt hcond ht hf
  split
  · exact (htake.requeue hcur rfl rfl).refund _
  · exact htake.putInFlight hcur hlt _

/-! ## 7. Losses and frames -/

theorem Acct.retryChunksOnTheWire (h : Acct s hand) : Acct (s.retryChunksOnTheWire c) hand := by
  refine h.of_held rfl rfl (fun t ht => .inl (tasks_retryChunksOnTheWire ▸ ht))
    (fun n r _ => ?_) fun n f r _ _ => ?_
  · have := held_retryChunksOnTheWire (s := s) (c := c) [] (isRange n r) fun _ => false
    unfold queued
    omega
  · have := held_retryChunksOnTheWire (s := s) (c := c) hand (isRange n r) (live n r f)
    omega

theorem Acct.takeNamed (h : Acct s hand) {x : WsChunk × ChunkmacMap}
    (hf : s.findFile fileno = some f) (hx : s.named c fileno pos = some x) :
    Acct (s.takeNamed c x .crcFailed) (taskOf x.1 f :: hand) := by
  have hn : x.1.fileno = fileno := (named_spec hx).2.2
  refine h.of_held rfl rfl (fun t ht => ?_) (fun n r _ => ?_) fun n g r _ _ => ?_
  · rw [tasks_takeNamed] at ht
    rcases mem_append.1 ht with ht | ht
    · exact .inl (mem_append_left _ ht)
    rcases mem_cons.1 ht with rfl | ht
    · refine .inr (past_taskFor (x := x.1) h.objs ?_)
      unfold taskFor
      rw [hn, hf]
      exact mem_singleton.2 rfl
    · exact .inl (mem_append_right _ ht)
  · have := held_takeNamed [] (isRange n r) (fun _ => false) .crcFailed hx
    unfold queued
    omega
  have hheld := held_takeNamed hand (isRange n r) (live n r g) .crcFailed hx
  have hle : (live n r g (taskOf x.1 f)).toNat ≤ (isRange n r x.1).toNat := by
    unfold live
    rw [show (taskOf x.1 f).chunk = x.1 from rfl]
    cases isRange n r x.1
    · simp
    · exact toNat_le _
  rw [held_cons]
  omega

/-- What an ack of the range `r` by `event` makes of an upload. -/
structure Acks (event : WsApiServerEvent) (r : Nat × Nat) (f f' : WsUploadFile) : Prop where
  ages : Ages f f'
  attempt : f'.attempt = { f.attempt with acked := f.attempt.acked ++ [(event, r)] }
  size : f'.mSize = f.mSize
  head : f'.mHeadPos = f.mHeadPos
  bytes : f'.mBytesConfirmed = f.mBytesConfirmed + if event.credits then r.2 else 0
  completion : f'.mUploadCompletionTime = f.mUploadCompletionTime

/-- A chunk of the current attempt is acked; its bytes count if the event says so. -/
theorem Acct.ack (h : Acct s (taskOf x f :: hand)) (hf : s.files x.fileno = some f)
    (ha : Acks event x.range f f') : Acct (s.setFile x.fileno f') hand := by
  have hacked : f'.attempt.acked = f.attempt.acked ++ [(event, x.range)] := by
    rw [ha.attempt]
  have hhanded : f'.attempt.handed = f.attempt.handed := by rw [ha.attempt]
  have hnum : f'.attempt.number = f.attempt.number := by rw [ha.attempt]
  refine h.dropHand.setFile hf ha.ages (fun hc => ?_) fun hc r hr => ?_
  · have hb := h.books _ f hf (ha.completion ▸ hc)
    refine ⟨?_, ?_, ?_, ?_⟩
    · rw [ha.attempt, ha.head]
      exact hb.tiles
    · rw [ha.head, ha.size]
      exact hb.head
    · rw [ha.attempt]
      exact hb.carry
    rw [ha.bytes, hb.bytes, ha.attempt,
      add_assoc]
    cases hev : event.credits <;> simp [hev]
  have honce := h.once _ f hf (ha.completion ▸ hc) r hr
  rw [held_cons] at honce
  rw [live_congr ha.ages.obj hnum, hacked, hhanded, map_append, count_append,
    map_singleton, count_singleton]
  have hlive : (live x.fileno r f (taskOf x f)).toNat = if x.range == r then 1 else 0 := by
    unfold live isRange taskOf
    cases x.range == r <;> simp
  simp only
  omega

theorem Acct.ackWith (h : Acct s (taskOf x f :: hand)) (event) (hf : s.files x.fileno = some f)
    (hg : Acks event x.range f (g f)) : Acct (s.withFile x.fileno g) hand := by
  unfold Pool.withFile
  rw [hf]
  exact h.ack hf hg

theorem withFile_withFile (g g' : WsUploadFile → WsUploadFile) :
    (s.withFile n g).withFile n g' = s.withFile n (g' ∘ g) := by
  cases hf : s.files n with
  | none =>
    unfold Pool.withFile
    simp [hf]
  | some f =>
    unfold Pool.withFile
    simp only [hf, files_setFile, if_pos]
    unfold Pool.setFile
    congr 1
    funext m
    dsimp only
    split
    · rfl
    · rfl

theorem takeNamed_eq (x : WsChunk × ChunkmacMap) (hev : event.confirms = true) :
    s.takeNamed c x event =
      (s.takeNamed c x .crcFailed).withFile x.1.fileno (ackFile x event) := by
  unfold Pool.takeNamed
  rw [hev]
  rfl

theorem Acks.ackFile (f) (x : WsChunk × ChunkmacMap) (h : event.credits = false ∨ x.1.len = 0) :
    Acks event x.1.range f (Pool.ackFile x event f) := by
  rw [ackFile_eq]
  refine ⟨⟨rfl, le_rfl, .inr ⟨rfl, id⟩⟩, rfl, rfl, rfl, ?_, rfl⟩
  rcases h with h | h
  · rw [h]
    rfl
  · rw [show x.1.range.2 = x.1.len from rfl, h]
    simp

/-- A header-only frame fails the upload, whatever the event did to it before. -/
theorem Acct.failNamed {x : WsChunk × ChunkmacMap} (h : Acct s hand) (event)
    (now) : Acct ((s.withFile x.1.fileno (ackFile x event)).failFile x.1.fileno now) hand := by
  unfold Pool.failFile Pool.uploadFailed
  rw [purgeFile_withFile, withFile_withFile]
  refine h.purgeReset fun f _ => ?_
  rw [comp_apply, ackFile_eq]
  exact ⟨rfl, rfl, rfl, rfl, lt_add_one _⟩

theorem Acct.creditBytes {x : WsChunk × ChunkmacMap} (h : Acct s (taskOf x.1 f :: hand))
    (hf : s.files x.1.fileno = some f) (hev : event.credits = true) (now) :
    Acct ((s.withFile x.1.fileno (ackFile x event)).creditBytes x.1 now) hand := by
  unfold Pool.creditBytes
  split
  · rename_i hlen
    exact h.ackWith _ hf (.ackFile f x (.inr hlen))
  simp only
  rw [withFile_withFile]
  set g := (fun f : WsUploadFile =>
    { f with
      mBytesConfirmed := f.mBytesConfirmed + x.1.len
      mAckedIntervals := if (s.withFile x.1.fileno (ackFile x event)).mAckedChunkRewind then
        markRangeAcked x.1.pos (x.1.pos + x.1.len) f.mAckedIntervals else f.mAckedIntervals }) ∘
    ackFile x event with hg
  have hacct : Acct (s.withFile x.1.fileno g) hand := by
    refine h.ackWith event hf ?_
    rw [hg, comp_apply, ackFile_eq]
    refine ⟨⟨rfl, le_rfl, .inr ⟨rfl, id⟩⟩, rfl, rfl, rfl, ?_, rfl⟩
    rw [hev]
    rfl
  split
  · split
    · exact hacct.failFile now
    · exact hacct
  · exact hacct

theorem Acct.purgeQueuedResendForRange (h : Acct s hand) (x) :
    Acct (s.purgeQueuedResendForRange x) hand :=
  h.of_sublist rfl rfl (.refl _) filter_sublist rfl

theorem Acct.handleNamed (h : Acct s []) {x : WsChunk × ChunkmacMap}
    (hf : s.findFile fileno = some f) (hx : s.named c fileno pos = some x)
    (hev : event.namesChunk = true) (herr : event ≠ .error) (headerOnly : Bool) (now : Nat) :
    Acct ((s.takeNamed c x event).handleNamed x.1 event headerOnly now) [] := by
  have hn : x.1.fileno = fileno := (named_spec hx).2.2
  have htake := h.takeNamed hf hx
  have hfile : (s.takeNamed c x .crcFailed).files x.1.fileno = some f := by
    rw [hn]
    exact (findFile_eq_some.1 hf).1
  cases hconf : event.confirms with
  | true =>
    rw [takeNamed_eq x hconf]
    unfold Pool.handleNamed
    split
    · exact htake.dropHand.failNamed event now
    split
    · exact htake.creditBytes hfile rfl now
    · exact htake.creditBytes hfile rfl now
    · have hacked := htake.ackWith (g := Pool.ackFile x .alreadyOnServer) _ hfile
        (.ackFile f x (.inl rfl))
      split
      · exact hacked.purgeQueuedResendForRange x.1
      · exact hacked
    · cases hconf
    rename_i h₁ h₂ h₃ h₄
    cases event <;> first | exact absurd rfl h₁ | exact absurd rfl h₂ |
      exact absurd rfl h₃ | exact absurd rfl h₄ | cases hconf
  | false =>
    rw [WsApiServerEvent.eq_crcFailed hev hconf herr]
    have hfind : (s.takeNamed c x .crcFailed).findFile x.1.fileno = some f := by
      rw [hn, findFile_congr (files_takeNamed_crcFailed s c x), hf]
    unfold Pool.handleNamed
    split
    · exact htake.dropHand.failFile now
    unfold Pool.retryChunk
    simp only
    split
    · rw [hfind]
      exact htake.dropHand.failFile now
    · exact htake.requeue (current_taskOf hfind) rfl rfl

/-- A completion leaves no chunk of its file in flight. -/
theorem Acct.applyInFlight (h : Acct s hand) : Acct (s.applyInFlight n) hand := by
  set g : WsUploadFile → WsUploadFile := fun f =>
    (s.flights.filter fun x => x.1.fileno == n).foldl (fun f x => f.applyMacs x.2) f with hg
  have hkeep : Acct (s.withFile n g) hand := by
    refine h.keepWith fun f _ => ?_
    obtain ⟨macs, hmacs⟩ := WsUploadFile.foldl_applyMacs_eq
      (s.flights.filter fun x => x.1.fileno == n) f
    rw [show g f = _ from hmacs]
    exact ⟨⟨rfl, le_rfl, .inr ⟨rfl, id⟩⟩, rfl, rfl, rfl, rfl, rfl⟩
  refine hkeep.of_sublist rfl rfl ?_ (.refl _) ?_
  · rw [flights_applyInFlight, flights_congr (mConns_withFile _ _ _)]
    exact filter_sublist
  · rw [tasks_applyInFlight, tasks_withFile]

theorem Acct.complete (h : Acct s []) (payloadOk : Bool) (now) :
    Acct (s.complete n payloadOk now) [] := by
  have happly := h.applyInFlight (n := n)
  unfold Pool.complete
  split
  · have hdone : Acct ((s.applyInFlight n).withFile n fun f =>
        { f.uploadCompleted now with inPool := false }) [] := by
      unfold Pool.withFile
      split
      · rename_i f hf
        refine happly.setFile hf ⟨rfl, le_rfl, .inl (lt_add_one _)⟩ (fun hc => ?_)
          fun hc => ?_
        · cases hc
        · cases hc
      · exact happly
    exact hdone.congr (files_withFile_unsetPool _) (by simp) (by simp) (by simp)
  · exact happly.failFile now

theorem Acct.onmessage (h : Acct s []) (event) (headerOnly payloadOk : Bool)
    (now) : Acct (s.onmessage c fileno pos event headerOnly payloadOk now) [] := by
  unfold Pool.onmessage
  split
  · exact h
  rename_i f hf
  split
  · exact h.failFile now
  rename_i herr
  split
  · rename_i hev
    split
    · exact h
    · rename_i x hx
      exact h.handleNamed hf hx hev herr headerOnly now
  split
  · exact h.failFile now
  split
  · exact h.complete ..
  · exact h

/-! ## 8. Runs -/

theorem Acct.newConn (h : Acct s hand) : Acct { s with mConns := s.mConns ++ [{}] } hand :=
  h.of_held rfl rfl (fun t ht => .inl (by rwa [tasks_newConn] at ht))
    (fun _ _ _ => le_of_eq held_newConn) fun _ _ _ _ _ => le_of_eq held_newConn

/-- **Every step that meets the condition keeps the books.** -/
theorem Acct.exec (h : Acct s []) {op : Op} (hop : OneAttempt op s) : Acct (s.exec op) [] := by
  cases op with
  | newConn => exact h.newConn
  | sendChunk c now budget enginePaused pick => exact h.sendChunk now budget enginePaused pick
  | finishRead c outcome now => exact h.finishRead hop outcome now
  | finishEncrypt c => exact h.finishEncrypt hop
  | onmessage c fileno pos event headerOnly payloadOk now =>
    exact h.onmessage event headerOnly payloadOk now
  | closeWS c => exact h.retryChunksOnTheWire
  | setPaused fileno p =>
    exact h.keepWith fun f _ =>
      ⟨⟨rfl, le_rfl, .inl (Nat.lt_succ_self _)⟩, rfl, rfl, rfl, rfl, rfl⟩
  | setQuotaHeld fileno q =>
    refine h.keepWith fun f _ => ?_
    cases q
    · exact ⟨⟨rfl, le_rfl, .inr ⟨rfl, id⟩⟩, rfl, rfl, rfl, rfl, rfl⟩
    · exact ⟨⟨rfl, le_rfl, .inl (Nat.lt_succ_self _)⟩, rfl, rfl, rfl, rfl, rfl⟩
  | setRetryUntil fileno _ | drainConfirmedChunkMacs fileno =>
    exact h.keepWith fun f _ => ⟨⟨rfl, le_rfl, .inr ⟨rfl, id⟩⟩, rfl, rfl, rfl, rfl, rfl⟩
  | markFailed fileno now retryUntil =>
    exact h.resetWith (fun f _ => .markFailedForRetry f now retryUntil) fun r _ =>
      queued_of_quiet hop r
  | restart fileno now => exact h.restart now
  | clearSessionUrlHintAndRestart fileno pinned => exact h.clearSessionUrlHintAndRestart hop
  | enqueue fileno u => exact h.enqueue u
  | remove fileno => exact h.remove
  | bumpQueueVersion => exact h.congr rfl rfl rfl rfl

theorem acct_fresh (a d : Bool) : Acct (fresh a d) [] where
  untracked := fun _ _ _ _ => rfl
  books := nofun
  once := nofun
  objs := nofun
  past := nofun

/-! ## 9. The count of confirmed bytes -/

theorem sum_filter_nonempty (l : List (Nat × Nat)) :
    ((l.filter fun r => decide (0 < r.2)).map (·.2)).sum = (l.map (·.2)).sum := by
  induction l with
  | nil => rfl
  | cons r l ih =>
    rw [filter_cons, map_cons, sum_cons]
    split
    · rw [map_cons, sum_cons, ih]
    rename_i hr
    have hzero : r.2 = 0 := by simpa using hr
    rw [ih, hzero, zero_add]

/-- The ranges acked by a counting event, the empty ones apart. -/
def creditedRanges (f : WsUploadFile) : List (Nat × Nat) :=
  ((f.attempt.acked.filter (·.1.credits)).map (·.2)).filter fun r => decide (0 < r.2)

theorem mem_creditedRanges : r ∈ creditedRanges f ↔ credited f r = true ∧ 0 < r.2 := by
  unfold creditedRanges credited
  simp only [mem_filter, mem_map, decide_eq_true_eq, any_eq_true, and_eq_true,
    beq_iff_eq]
  constructor
  · rintro ⟨⟨a, ⟨ha, hev⟩, rfl⟩, hpos⟩
    exact ⟨⟨a, ha, hev, rfl⟩, hpos⟩
  rintro ⟨⟨a, ha, hev, rfl⟩, hpos⟩
  exact ⟨⟨a, ⟨ha, hev⟩, rfl⟩, hpos⟩

theorem count_creditedRanges_le (f r) :
    (creditedRanges f).count r ≤ (f.attempt.acked.map (·.2)).count r :=
  (filter_sublist.trans (filter_sublist.map _)).count_le r

theorem nodup_of_count_le {l' : List (Nat × Nat)} (hn : l'.Nodup)
    (h : ∀ r ∈ l, l.count r ≤ l'.count r) : l.Nodup ∧ ∀ r ∈ l, r ∈ l' := by
  refine ⟨nodup_iff_count_le_one.2 fun r => ?_, fun r hr => ?_⟩
  · by_cases hr : r ∈ l
    · exact (h r hr).trans (nodup_iff_count_le_one.1 hn r)
    · rw [count_eq_zero_of_not_mem hr]
      exact Nat.zero_le _
  · exact count_pos_iff.1 (lt_of_lt_of_le (count_pos_iff.2 hr) (h r hr))

/-- The ranges that count were handed out, and no range is counted twice. -/
theorem Books.creditedRanges_handed (hb : Books f)
    (honce : ∀ r, 0 < r.2 → (f.attempt.acked.map (·.2)).count r ≤ f.attempt.handed.count r) :
    (creditedRanges f).Nodup ∧ ∀ r ∈ creditedRanges f, r ∈ f.attempt.handed :=
  nodup_of_count_le hb.tiles.nodup fun r hr =>
    (count_creditedRanges_le f r).trans (honce r (mem_creditedRanges.1 hr).2)

theorem sum_creditedRanges (f) : ((creditedRanges f).map (·.2)).sum =
    ((f.attempt.acked.filter (·.1.credits)).map (·.2.2)).sum := by
  unfold creditedRanges
  rw [sum_filter_nonempty, map_map]
  rfl

/-- **Every counting ack is of a handed-out range, and no range is counted twice.** -/
theorem Books.sum_credited (hb : Books f)
    (honce : ∀ r, 0 < r.2 → (f.attempt.acked.map (·.2)).count r ≤ f.attempt.handed.count r) :
    ((f.attempt.acked.filter (·.1.credits)).map (·.2.2)).sum =
      ((f.attempt.handed.filter (credited f)).map (·.2)).sum := by
  obtain ⟨hnodup, hsub⟩ := hb.creditedRanges_handed honce
  have hperm : (creditedRanges f).Perm (f.attempt.handed.filter (credited f)) := by
    refine (perm_ext_iff_of_nodup hnodup (hb.tiles.nodup.filter _)).2 fun r => ?_
    rw [mem_filter]
    constructor
    · intro hr
      exact ⟨hsub r hr, (mem_creditedRanges.1 hr).1⟩
    · intro hr
      exact mem_creditedRanges.2 ⟨hr.2, (hb.tiles.mem hr.1).2.1⟩
  rw [← sum_creditedRanges]
  exact (hperm.map _).sum_eq

theorem Acct.confirmed (h : Acct s []) (hf : s.files n = some f)
    (hcomp : f.mUploadCompletionTime = none) : Confirmed f := by
  have hb := h.books n f hf hcomp
  have hsum := hb.sum_credited fun r hr => by
    have := h.once n f hf hcomp r hr
    omega
  have hle : ((f.attempt.handed.filter (credited f)).map (·.2)).sum ≤
      (f.attempt.handed.map (·.2)).sum :=
    (filter_sublist.map _).sum_le_sum fun _ _ => Nat.zero_le _
  have htotal := hb.tiles.sum
  have hcarry := hb.carry
  have hbytes := hb.bytes
  exact ⟨by omega, hb.head, hb.tiles.nodup, by omega⟩

/-- **The confirmed bytes are right** for every upload that has not completed, in every run whose
    resets leave no chunk of the old attempt behind. -/
theorem confirmed_of_run {a d : Bool} {s : Pool} {n : Nat} {f : WsUploadFile}
    (hr : Relation.ReflTransGen (StepBy Pool.exec OneAttempt) (fresh a d) s) (hf : s.files n = some f)
    (hcomp : f.mUploadCompletionTime = none) : Confirmed f := by
  have hacct : Acct s [] := run_inv (fun s => Acct s [])
    (fun s s' h ⟨op, hop, he⟩ => he ▸ h.exec hop) (acct_fresh a d) hr
  exact hacct.confirmed hf hcomp

/-- Both chunks of an upload are sent, the first is lost with its connection and sent again. -/
def resendOps : List Op :=
  [.newConn, .newConn, .enqueue 0 { size := 200000 }, .sendChunk 0 1 true false (some 0),
    .finishRead 0 .ok 2, .finishEncrypt 0, .sendChunk 1 3 true false none, .finishRead 1 .ok 4,
    .finishEncrypt 1, .closeWS 0, .onmessage 1 0 131072 .chunkIngested false true 5,
    .sendChunk 0 6 true false none, .finishRead 0 .ok 7, .finishEncrypt 0,
    .onmessage 0 0 0 .chunkIngested false true 8]

theorem confirmed_of_run_resend : ∃ s f,
    Relation.ReflTransGen (StepBy Pool.exec OneAttempt) (fresh true true) s ∧ s.files 0 = some f ∧
      f.mUploadCompletionTime = none ∧ f.mBytesConfirmed = 200000 ∧ Confirmed f := by
  have hr : Relation.ReflTransGen (StepBy Pool.exec OneAttempt) (fresh true true)
      (execAll resendOps (fresh true true)) := run_of_allBy (by decide)
  have hend : ((execAll resendOps (fresh true true)).files 0).map
      (fun f => (f.mUploadCompletionTime, f.mBytesConfirmed)) = some (none, 200000) := by
    decide
  obtain ⟨f, hf, hfields⟩ := Option.map_eq_some_iff.1 hend
  obtain ⟨hcomp, hbytes⟩ := Prod.mk.inj hfields
  exact ⟨_, f, hr, hf, hcomp, hbytes, confirmed_of_run hr hf hcomp⟩

/-- A chunk is in flight when the account goes over quota: `markFailed` resets the attempt and leaves
    the chunk. Its ack arrives. -/
def lateAckOps : List Op :=
  [.newConn, .enqueue 0 { size := 200000 }, .sendChunk 0 1 true false (some 0),
    .finishRead 0 .ok 2, .finishEncrypt 0, .markFailed 0 3 4294967295,
    .onmessage 0 0 0 .chunkIngested false true 4]

/-- **A late ack is counted in the new attempt**: 131072 bytes confirmed with the head at 0. -/
theorem late_ack_after_markFailed : ∃ s f,
    Relation.ReflTransGen (StepBy Pool.exec fun _ _ => True) (fresh true true) s ∧ s.files 0 = some f ∧
      f.mUploadCompletionTime = none ∧ f.mHeadPos = 0 ∧ f.mBytesConfirmed = 131072 ∧
        ¬ Confirmed f := by
  have hend : ((execAll lateAckOps (fresh true true)).files 0).map
      (fun f => (f.mUploadCompletionTime, f.mHeadPos, f.mBytesConfirmed)) =
        some (none, 0, 131072) := by
    decide
  obtain ⟨f, hf, hfields⟩ := Option.map_eq_some_iff.1 hend
  obtain ⟨hcomp, hfields⟩ := Prod.mk.inj hfields
  obtain ⟨hhead, hbytes⟩ := Prod.mk.inj hfields
  refine ⟨execAll lateAckOps (fresh true true), f, run_of_allBy (by decide), hf, hcomp, hhead,
    hbytes, fun h => ?_⟩
  have hle := h.le_head
  omega

end MegaSdk.Ws.Pool
