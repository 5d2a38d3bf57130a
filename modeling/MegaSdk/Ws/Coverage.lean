/-
  File:      MegaSdk/Ws/Coverage.lean
  Subject:   NO HANDED-OUT BYTE IS LOST. Every byte between the start of the current attempt and the
             head position is acked, in flight, queued for resend or in a worker's hands.

  The head position moves before the chunk is read, and `sendChunk` drops, queues or sends the chunk
  after each release of the mutex. The invariant `Cov` says of every byte of a bound upload where it
  is; a drop is justified because the upload has left the pool or its head is back at the start.

  One path escapes: `markFailed` of the engine leaves the upload bound, and the active file of the
  pool. When its retry time comes, the fast path of `getWsUploadFile` goes on with it without
  `setUploadStart`, and `sendChunk` drops the chunk it takes because the upload still counts as
  failed (`lost_after_reuse_of_failed`). Without that path nothing is lost (`none_lost_of_run`).
-/
import MegaSdk.Ws.Places

namespace MegaSdk.Ws.Pool

open Base List Option

variable {s s' : Pool} {hand hand' : List Task} {n c : Nat}
variable {x : WsChunk} {t : Task} {f f' : WsUploadFile} {fileno pos now : Nat}
  {event : WsApiServerEvent} {g : WsUploadFile → WsUploadFile} {pick : Option Nat}

/-! ## 1. The statement -/

/-- The byte at `b` of file `n` is in flight, queued, or in a worker's hands. -/
def Located (s : Pool) (n b : Nat) : Prop :=
  (∃ x ∈ s.flights, x.1.fileno = n ∧ Covers x.1.range b) ∨
    (∃ x ∈ s.mToResend, x.fileno = n ∧ Covers x.range b) ∨
      ∃ t ∈ s.tasks, t.chunk.fileno = n ∧ Covers t.chunk.range b

def NoneLost (s : Pool) : Prop :=
  ∀ n f, s.files n = some f → f.inPool = true → f.Active →
    ∀ b, f.attempt.start ≤ b → b < f.mHeadPos → f.Acked b ∨ s.Located n b

/-- `nextChunk` reaches the fast path of `getWsUploadFile`, and the active file has failed. -/
def reusesFailed (s : Pool) (now : Nat) (budget enginePaused : Bool) : Bool :=
  match s.scanResend budget s.mToResend with
  | .passed _ =>
    !enginePaused &&
      match s.canReuse now with
      | some fileno => ((s.files fileno).map (·.hasFailed)).getD false
      | none => false
  | _ => false

/-- Fresh chunks are not taken from an upload that has failed and was not started again. -/
def FreshFromStarted : Op → Pool → Prop
  | .sendChunk _ now budget enginePaused _, s => s.reusesFailed now budget enginePaused = false
  | _, _ => True

instance (op : Op) (s : Pool) : Decidable (FreshFromStarted op s) :=
  decidable_of_iff ((match op with
    | .sendChunk _ now budget enginePaused _ => s.reusesFailed now budget enginePaused
    | _ => false) = false) (by cases op <;> simp [FreshFromStarted])

/-! ## 2. The invariant -/

/-- A chunk of file `n` that covers the byte `b` and ends within `size` bytes. -/
def covering (n size b : Nat) (x : WsChunk) : Bool :=
  x.fileno == n && decide (Covers x.range b) && decide (x.pos + x.len ≤ size)

theorem covering_iff {size b : Nat} : covering n size b x = true ↔
    x.fileno = n ∧ Covers x.range b ∧ x.pos + x.len ≤ size := by
  simp [covering, and_assoc]

def holding (s : Pool) (hand : List Task) (n size b : Nat) : Nat :=
  held s hand (covering n size b) fun t => covering n size b t.chunk

/-- What is true of every tracked upload on its own. -/
structure FileOk (f : WsUploadFile) : Prop where
  /-- Outside the pool, and when failed, nothing is handed out. -/
  idle : (f.inPool = false ∧ f.mUploadCompletionTime = none) ∨ f.hasFailed = true →
    f.mHeadPos = f.attempt.start
  head : f.mHeadPos ≤ f.mSize
  acked : ∀ b, InIntervals f.mAckedIntervals b → f.Acked b

/-- The invariant; `hand` is what the code has in a local variable in the middle of a step. -/
structure Cov (s : Pool) (hand : List Task) : Prop where
  counted : Counted s
  fileOk : ∀ n f, s.files n = some f → FileOk f
  active : ∀ n, s.mUploadingFile = some n → ∃ f, s.files n = some f ∧ f.inPool = true
  cover : ∀ n f, s.files n = some f → f.inPool = true →
    ∀ b, f.attempt.start ≤ b → b < f.mHeadPos → f.Acked b ∨ 0 < holding s hand n f.mSize b

theorem Cov.consume (h : Cov s hand) (x) : Cov (s.consumeUploadBudget x) hand := { h with }

theorem Cov.refund (h : Cov s hand) (l) : Cov (s.refundUploadBudget l) hand := { h with }

theorem located_of_holding {size b : Nat} (h : 0 < holding s [] n size b) : s.Located n b := by
  have hcases : 0 < s.flights.countP (fun x => covering n size b x.1) ∨
      0 < s.mToResend.countP (covering n size b) ∨
        0 < s.tasks.countP fun t => covering n size b t.chunk := by
    unfold holding held at h
    rw [countP_nil] at h
    omega
  rcases hcases with h | h | h
  · obtain ⟨x, hx, hc⟩ := countP_pos_iff.1 h
    exact .inl ⟨x, hx, (covering_iff.1 hc).1, (covering_iff.1 hc).2.1⟩
  · obtain ⟨x, hx, hc⟩ := countP_pos_iff.1 h
    exact .inr (.inl ⟨x, hx, (covering_iff.1 hc).1, (covering_iff.1 hc).2.1⟩)
  · obtain ⟨t, ht, hc⟩ := countP_pos_iff.1 h
    exact .inr (.inr ⟨t, ht, (covering_iff.1 hc).1, (covering_iff.1 hc).2.1⟩)

theorem Cov.noneLost (h : Cov s []) : NoneLost s := by
  intro n f hf hin _ b hstart hhead
  exact (h.cover n f hf hin b hstart hhead).imp id located_of_holding

/-- The uploads stay, and every byte stays held or is acked. -/
theorem Cov.of_held (h : Cov s hand) (hc : Counted s') (hf : s'.files = s.files)
    (ha : s'.mUploadingFile = s.mUploadingFile)
    (hh : ∀ n f b, s.files n = some f → f.inPool = true → ¬ f.Acked b →
      0 < holding s hand n f.mSize b → 0 < holding s' hand' n f.mSize b) : Cov s' hand' where
  counted := hc
  fileOk := hf ▸ h.fileOk
  active := by rw [hf, ha]; exact h.active
  cover := by
    rw [hf]
    intro n f hfn hin b hstart hhead
    by_cases hb : f.Acked b
    · exact .inl hb
    · exact .inr (hh n f b hfn hin hb ((h.cover n f hfn hin b hstart hhead).resolve_left hb))

theorem Cov.dropHand (h : Cov s (t :: hand))
    (hidle : ∀ f, s.findFile t.chunk.fileno = some f → f.mHeadPos = f.attempt.start) :
    Cov s hand where
  counted := h.counted
  fileOk := h.fileOk
  active := h.active
  cover := by
    intro n f hf hin b hstart hhead
    refine (h.cover n f hf hin b hstart hhead).imp id fun hb => ?_
    unfold holding at hb ⊢
    rw [held_cons] at hb
    cases hc : covering n f.mSize b t.chunk
    · simpa [hc] using hb
    obtain ⟨hn, _⟩ := covering_iff.1 hc
    have := hidle f (findFile_eq_some.2 ⟨hn ▸ hf, hin⟩)
    omega

theorem Cov.dropUnbound (h : Cov s (t :: hand)) (hnone : s.findFile t.chunk.fileno = none) :
    Cov s hand := h.dropHand fun f hf => by cases hnone.symm.trans hf

theorem Cov.addHand (h : Cov s hand) (t) : Cov s (t :: hand) :=
  h.of_held h.counted rfl rfl fun n f b _ _ _ hb => by
    unfold holding at hb ⊢
    rw [held_cons]
    omega

theorem Cov.dropEmpty (h : Cov s (t :: hand)) (hlen : t.chunk.len = 0) : Cov s hand := by
  refine h.of_held h.counted rfl rfl fun n f b _ _ _ hb => ?_
  unfold holding at hb ⊢
  rw [held_cons] at hb
  cases hc : covering n f.mSize b t.chunk
  · simpa [hc] using hb
  obtain ⟨_, hcov, _⟩ := covering_iff.1 hc
  unfold Covers WsChunk.range at hcov
  omega

/-! ## 3. Changes to one upload -/

/-- A change to an upload that takes no byte out of sight. -/
structure Upd (f f' : WsUploadFile) : Prop where
  fileOk : FileOk f'
  bound : f.inPool = true → f'.inPool = true
  cover : f'.inPool = true → ∀ b, f'.attempt.start ≤ b → b < f'.mHeadPos →
    f'.mSize = f.mSize ∧ f.inPool = true ∧ f.attempt.start ≤ b ∧ b < f.mHeadPos ∧
      (f.Acked b → f'.Acked b)

theorem Cov.setFile (h : Cov s hand) (hf : s.files n = some f) (hu : Upd f f') :
    Cov (s.setFile n f') hand where
  counted := h.counted.congr rfl rfl
  fileOk := forall_setFile hu.fileOk h.fileOk
  active := by
    intro m hm
    obtain ⟨g, hg, hin⟩ := h.active m hm
    rw [files_setFile]
    split_ifs with hmn
    · rw [hmn, hf] at hg
      cases hg
      exact ⟨f', rfl, hu.bound hin⟩
    · exact ⟨g, hg, hin⟩
  cover := by
    refine forall_setFile (fun hin b hstart hhead => ?_) h.cover
    obtain ⟨hsize, hin', hstart', hhead', hacked⟩ := hu.cover hin b hstart hhead
    rw [hsize]
    exact (h.cover n f hf hin' b hstart' hhead').imp hacked id

theorem Cov.withFile (h : Cov s hand)
    (hu : ∀ f, s.files n = some f → Upd f (g f)) : Cov (s.withFile n g) hand := by
  unfold Pool.withFile
  split
  · rename_i f hf
    exact h.setFile hf (hu f hf)
  · exact h

/-- A change that leaves alone what the invariant speaks about. -/
theorem Upd.of_same (hok : FileOk f) (hin : f'.inPool = f.inPool := by rfl)
    (hcomp : f'.mUploadCompletionTime = f.mUploadCompletionTime := by rfl)
    (hfail : f'.mUploadFailedTime = f.mUploadFailedTime := by rfl)
    (hsize : f'.mSize = f.mSize := by rfl) (hhead : f'.mHeadPos = f.mHeadPos := by rfl)
    (hiv : f'.mAckedIntervals = f.mAckedIntervals := by rfl)
    (hstart : f'.attempt.start = f.attempt.start := by rfl)
    (hacked : f'.attempt.acked = f.attempt.acked := by rfl) : Upd f f' := by
  have hb : ∀ b, f'.Acked b ↔ f.Acked b := fun b => by
    unfold WsUploadFile.Acked
    rw [hacked]
  refine ⟨⟨?_, ?_, ?_⟩, ?_, ?_⟩
  · unfold WsUploadFile.hasFailed
    rw [hin, hcomp, hfail, hhead, hstart]
    exact hok.idle
  · rw [hhead, hsize]
    exact hok.head
  · intro b
    rw [hiv, hb]
    exact hok.acked b
  · rw [hin]
    exact id
  · intro hin' b h₁ h₂
    exact ⟨hsize, hin ▸ hin', hstart ▸ h₁, hhead ▸ h₂, (hb b).2⟩

theorem Upd.of_reset (hin : f'.inPool = f.inPool) (hhead : f'.mHeadPos = 0)
    (hstart : f'.attempt.start = 0) (hiv : f'.mAckedIntervals = []) :
    Upd f f' where
  fileOk :=
    { idle := fun _ => by rw [hhead, hstart]
      head := by rw [hhead]; exact Nat.zero_le _
      acked := fun b hb => by rw [hiv] at hb; exact absurd hb (inIntervals_nil b) }
  bound := hin ▸ id
  cover := fun _ b _ hb => by rw [hhead] at hb; omega

theorem Upd.markFailedForRetry (f) (now retryUntil : Nat) :
    Upd f (f.markFailedForRetry now retryUntil) := .of_reset rfl rfl rfl rfl

theorem Upd.markFailed (f now) : Upd f (f.markFailed now) :=
  .of_reset rfl rfl rfl rfl

theorem Upd.resetAttemptState (f) : Upd f f.resetAttemptState :=
  .of_reset rfl rfl rfl rfl

theorem Upd.setQuotaHeld (hok : FileOk f) (q : Bool) : Upd f (f.setQuotaHeld q) := by
  cases q
  · exact .of_same hok
  · exact .of_same hok

section

variable (h : Cov s hand)
include h

/-- What a step does to one upload whose chunks are dropped: nothing is handed out any more, and
    the other uploads keep their chunks. -/
theorem Cov.drop (hc : Counted s') (hfiles : ∀ m, m ≠ n → s'.files m = s.files m)
    (hn : ∀ f', s'.files n = some f' → FileOk f' ∧ (f'.inPool = true → f'.mHeadPos = f'.attempt.start))
    (hactive : ∀ m, s'.mUploadingFile = some m → m ≠ n ∧ s.mUploadingFile = some m)
    (hheld : ∀ p : WsChunk → Bool, (∀ c, c.fileno = n → p c = false) →
      held s' hand' p (fun t => p t.chunk) = held s hand p fun t => p t.chunk) : Cov s' hand' where
  counted := hc
  fileOk := by
    intro m g hg
    by_cases hm : m = n
    · exact (hn g (hm ▸ hg)).1
    · exact h.fileOk m g (hfiles m hm ▸ hg)
  active := by
    intro m hm
    obtain ⟨hmn, hm⟩ := hactive m hm
    rw [hfiles m hmn]
    exact h.active m hm
  cover := by
    intro m g hg hin b hstart hhead
    by_cases hm : m = n
    · have := (hn g (hm ▸ hg)).2 hin
      omega
    have hother : ∀ c : WsChunk, c.fileno = n → covering m g.mSize b c = false := by
      intro c hcn
      have hne : (c.fileno == m) = false := by simpa [hcn] using fun e => hm e.symm
      simp [covering, hne]
    unfold holding
    rw [hheld _ hother]
    exact h.cover m g (hfiles m hm ▸ hg) hin b hstart hhead

/-! ## 4. Failures -/

theorem Cov.detach (hc : Counted s')
    (hfiles : ∀ m, m ≠ n → s'.files m = s.files m) (hup : s'.mUploadingFile = s.mUploadingFile)
    (hheld : ∀ p : WsChunk → Bool, (∀ c, c.fileno = n → p c = false) →
      held s' hand p (fun t => p t.chunk) = held s hand p fun t => p t.chunk)
    (hg : ∀ f, s'.files n = some f → FileOk { g f with inPool := false }) :
    Cov ((s'.withFile n g).unsetPool n) hand := by
  refine h.drop (n := n) (hc.withFile _).unsetPool ?_ ?_ ?_ ?_
  · intro m hm
    rw [files_unsetPool, if_neg hm, files_withFile, if_neg hm, hfiles m hm]
  · intro f' hf'
    rw [files_unsetPool, if_pos rfl, files_withFile, if_pos rfl] at hf'
    obtain ⟨f₁, hf₁, rfl⟩ := map_eq_some_iff.1 hf'
    obtain ⟨f, hf, rfl⟩ := map_eq_some_iff.1 hf₁
    exact ⟨hg f hf, nofun⟩
  · intro m hm
    obtain ⟨hmn, hm⟩ := mUploadingFile_unsetPool hm
    rw [mUploadingFile_withFile, hup] at hm
    exact ⟨hmn, hm⟩
  · intro p hp
    rw [held_unsetPool, held_withFile, hheld p hp]

theorem Cov.purgeReset
    (hg : ∀ f, s.files n = some f → FileOk (g f) ∧ (g f).mHeadPos = (g f).attempt.start) :
    Cov (((s.purgeFile n).withFile n g).unsetPool n) hand := by
  refine h.detach h.counted.purgeFile (fun _ _ => rfl) rfl (fun p => held_purgeFile_of_ne) ?_
  intro f hf
  obtain ⟨hok, hidle⟩ := hg f hf
  exact ⟨fun _ => hidle, hok.head, hok.acked⟩

theorem Cov.failFile (now) : Cov (s.failFile n now) hand :=
  h.purgeReset fun f _ => ⟨(Upd.markFailed f now).fileOk, rfl⟩

theorem Cov.restart (now) : Cov (s.restart n now) hand := by
  have hcov : Cov (((s.purgeFile n).withFile n (·.markFailedForRetry now 0)).unsetPool n) hand :=
    h.purgeReset fun f _ => ⟨(Upd.markFailedForRetry f now 0).fileOk, rfl⟩
  exact { hcov with counted := hcov.counted.congr rfl rfl }

theorem Cov.clearSessionUrlHintAndRestart (pinned : Bool) :
    Cov (s.clearSessionUrlHintAndRestart n pinned) hand := by
  have hreset : Cov { s.withFile n (·.resetAttemptState) with queueVersion := s.queueVersion + 1 }
      hand := by
    have hcov := h.withFile (n := n) fun f _ => .resetAttemptState f
    exact { hcov with counted := hcov.counted.congr rfl rfl }
  unfold Pool.clearSessionUrlHintAndRestart
  split
  · have hcov := hreset.purgeReset (g := id) fun f hf => by
      refine ⟨hreset.fileOk n f hf, ?_⟩
      rw [files_withFile, if_pos rfl] at hf
      obtain ⟨f₀, _, rfl⟩ := map_eq_some_iff.1 hf
      rfl
    rwa [withFile_id] at hcov
  · exact hreset

theorem Cov.remove : Cov (s.remove n) hand := by
  refine h.drop (n := n) (h.counted.purgeFile.congr rfl rfl) ?_ ?_ ?_ ?_
  · intro m hm
    exact if_neg hm
  · intro f' hf'
    change (if n = n then none else _) = some f' at hf'
    rw [if_pos rfl] at hf'
    cases hf'
  · intro m hm
    change (if s.mUploadingFile = some n then none else s.mUploadingFile) = some m at hm
    split at hm
    · cases hm
    · rename_i hne
      exact ⟨fun hmn => hne (hmn ▸ hm), hm⟩
  · intro p hp
    exact (held_congr rfl rfl).trans (held_purgeFile_of_ne hp)

theorem Cov.enqueue (t : NewUpload) : Cov (s.enqueue n t) hand := by
  unfold Pool.enqueue
  split
  · exact h
  rename_i hnone
  have hok : FileOk (t.file s.nextObj) :=
    { idle := fun _ => rfl
      head := by
        show (if t.hasSessionUrl then min t.pos t.size else 0) ≤ t.size
        split <;> omega
      acked := fun b hb => absurd hb (inIntervals_nil b) }
  refine ⟨h.counted.congr rfl rfl, forall_setFile hok h.fileOk, fun m hm => ?_,
    forall_setFile nofun h.cover⟩
  obtain ⟨g, hg, hin⟩ := h.active m hm
  refine ⟨g, ?_, hin⟩
  exact (if_neg fun hmn => by rw [hmn, hnone] at hg; cases hg).trans hg

/-! ## 5. Sending -/

theorem Cov.takeWorker (ht : (s.conn c).worker = some t) : Cov (s.setWorker c none) (t :: hand) :=
  h.of_held (h.counted.setWorker _) rfl rfl fun n f b _ _ _ hb => by
    unfold holding at hb ⊢
    rwa [held_takeWorker ht]

end

theorem Cov.giveWorker {t' : Task} (h : Cov s (t :: hand)) (hc : c < s.mConns.length)
    (hw : (s.conn c).worker = none) (ht : t'.chunk = t.chunk) :
    Cov (s.setWorker c (some t')) hand :=
  h.of_held (h.counted.setWorker _) rfl rfl fun n f b _ _ _ hb => by
    unfold holding at hb ⊢
    rw [held_giveWorker hc hw, held_cons, ht]
    rwa [held_cons] at hb

theorem covering_congr {y : WsChunk} (hn : y.fileno = x.fileno) (hr : y.range = x.range)
    (m size b : Nat) : covering m size b y = covering m size b x := by
  unfold WsChunk.range at hr
  rw [Prod.mk.injEq] at hr
  unfold covering WsChunk.range
  rw [hn, hr.1, hr.2]

theorem Cov.requeue (h : Cov s (t :: hand)) (hn : x.fileno = t.chunk.fileno)
    (hr : x.range = t.chunk.range) : Cov (s.requeue x) hand :=
  h.of_held (h.counted.congr rfl rfl) rfl rfl fun n f b _ _ _ hb => by
    unfold holding at hb ⊢
    rw [held_requeue, covering_congr hn hr]
    rwa [held_cons] at hb

theorem Cov.putInFlight (h : Cov s (t :: hand)) (hc : c < s.mConns.length) (macs : ChunkmacMap) :
    Cov (s.putInFlight c t.chunk macs) hand := by
  have hput : Cov
      { s.setConn c { s.conn c with
          mChunksInFlight := (s.conn c).mChunksInFlight ++ [(t.chunk, macs)] } with
        mNumChunksInFlight := s.mNumChunksInFlight + 1 } hand := by
    refine h.of_held (h.counted.setInFlight hc rfl rfl (by simp)) rfl rfl ?_
    intro n f b _ _ _ hb
    have hheld := held_putInFlight hand (covering n f.mSize b)
      (fun t => covering n f.mSize b t.chunk) hc t.chunk macs
    unfold Pool.putInFlight at hheld
    rw [held_withFile] at hheld
    unfold holding at hb ⊢
    rw [held_cons] at hb
    rwa [hheld]
  exact hput.withFile fun f hf => .of_same (hput.fileOk _ f hf)

def inHand (x : WsChunk) : Task := { chunk := x, expectedGeneration := 0 }

/-- The loop over the queue keeps or takes what belongs to bound uploads. -/
theorem Cov.scanResend (h : Cov s hand) (budget : Bool) :
    Cov { s with mToResend := (s.scanResend budget s.mToResend).rest }
      ((s.scanResend budget s.mToResend).chunk?.toList.map inHand ++ hand) := by
  refine h.of_held (h.counted.congr rfl rfl) rfl rfl fun n f b hf hin _ hb => ?_
  obtain ⟨k, hcount, hzero⟩ := countP_scanResend budget (covering n f.mSize b) s.mToResend
  have hk := hzero fun x hx => by
    obtain ⟨hn, _, hfit⟩ := covering_iff.1 hx
    exact ⟨f, findFile_eq_some.2 ⟨hn ▸ hf, hin⟩, fun hbig => by omega⟩
  generalize s.scanResend budget s.mToResend = scan at hcount hb ⊢
  have hmap : (scan.chunk?.toList.map inHand).countP (fun t => covering n f.mSize b t.chunk) =
      scan.chunk?.toList.countP (covering n f.mSize b) := by
    rw [countP_map]
    rfl
  unfold holding held at hb ⊢
  rw [countP_append]
  have hfl : ({ s with mToResend := scan.rest } : Pool).flights = s.flights := rfl
  have htk : ({ s with mToResend := scan.rest } : Pool).tasks = s.tasks := rfl
  rw [hfl, htk]
  dsimp only
  omega

theorem Upd.setUploadStart (hok : FileOk f) (now) (bound : Bool)
    (hb : f.inPool = true → bound = true) (hcomp : f.mUploadCompletionTime = none) :
    Upd f { f.setUploadStart now with inPool := bound } where
  fileOk :=
    { idle := fun hcase => by
        rcases hcase with ⟨hout, _⟩ | hfail
        · refine hok.idle (.inl ⟨?_, hcomp⟩)
          cases hin : f.inPool
          · rfl
          · exact absurd (hb hin) (by rw [show bound = false from hout]; decide)
        · cases hfail
      head := hok.head
      acked := hok.acked }
  bound := hb
  cover := by
    intro _ b hstart hhead
    replace hstart : f.attempt.start ≤ b := hstart
    replace hhead : b < f.mHeadPos := hhead
    refine ⟨rfl, ?_, hstart, hhead, id⟩
    cases hin : f.inPool
    · have hidle := hok.idle (.inl ⟨hin, hcomp⟩)
      omega
    · rfl

/-- What `getWsUploadFile` leaves: the invariant, and with a file that it returns a bound upload
    that has not failed, if the fast path did not meet a failed one. -/
theorem Cov.getWsUploadFile (h : Cov s hand) (now : Nat) (pick : Option Nat)
    (hreuse : ∀ n f, s.canReuse now = some n → s.files n = some f → f.hasFailed = false) :
    Cov (s.getWsUploadFile now pick).1 hand ∧ ∀ n, (s.getWsUploadFile now pick).2 = some n →
      ∃ f, (s.getWsUploadFile now pick).1.files n = some f ∧ f.inPool = true ∧
        f.hasFailed = false := by
  unfold Pool.getWsUploadFile
  split
  · rename_i m hm
    refine ⟨h, fun n hn => ?_⟩
    cases hn
    obtain ⟨f, hf, hin⟩ := h.active m (canReuse_spec hm).1
    exact ⟨f, hf, hin, hreuse m f hm hf⟩
  split
  · exact ⟨h, nofun⟩
  rename_i m
  split
  · exact ⟨h, nofun⟩
  rename_i f hf
  split
  · rename_i hcond
    simp only [Bool.and_eq_true] at hcond
    have hcomp := continuingUpload_completion hcond.1.2
    have hok := h.fileOk m f hf
    split
    · -- the file becomes the active file of the pool
      have hcov := h.setFile hf (Upd.setUploadStart hok now true (fun _ => rfl) hcomp)
      refine ⟨⟨hcov.counted.congr rfl rfl, hcov.fileOk, ?_, hcov.cover⟩, fun n hn => ?_⟩
      · intro k hk
        cases hk
        exact ⟨_, if_pos rfl, rfl⟩
      · cases hn
        exact ⟨_, if_pos rfl, rfl, rfl⟩
    -- it is the active file already, so it is bound
    rename_i hsame
    have hact : s.mUploadingFile = some m := not_not.1 hsame
    obtain ⟨g, hg, hin⟩ := h.active m hact
    rw [hf] at hg
    cases hg
    refine ⟨h.setFile hf (Upd.setUploadStart hok now f.inPool id hcomp),
      fun n hn => ?_⟩
    cases hn
    exact ⟨_, if_pos rfl, hin, rfl⟩
  · exact ⟨h, nofun⟩

theorem Cov.advanceHead (h : Cov s hand) {k : Nat} (hf : s.files n = some f) (hin : f.inPool = true)
    (hfail : f.hasFailed = false) (hk : f.mHeadPos + k ≤ f.mSize) (eof : Bool) :
    Cov (s.setFile n (advanced f eof k))
      (inHand { pos := f.mHeadPos, len := k, fileno := n } :: hand) := by
  have hok' : FileOk (advanced f eof k) := by
    refine ⟨fun hcase => ?_, hk, (h.fileOk n f hf).acked⟩
    rcases hcase with ⟨hout, _⟩ | hfailed
    · cases hin.symm.trans hout
    · cases hfail.symm.trans hfailed
  refine ⟨h.counted.congr rfl rfl, forall_setFile hok' h.fileOk, ?_, ?_⟩
  · intro m hm
    obtain ⟨g, hg, hing⟩ := h.active m hm
    rw [files_setFile]
    split
    · exact ⟨_, rfl, hin⟩
    · exact ⟨g, hg, hing⟩
  intro m g hg hing b hstart hhead
  have hheld : holding (s.setFile n (advanced f eof k))
      (inHand { pos := f.mHeadPos, len := k, fileno := n } :: hand) m g.mSize b =
        holding s hand m g.mSize b +
          (covering m g.mSize b { pos := f.mHeadPos, len := k, fileno := n }).toNat := by
    unfold holding
    rw [held_cons]
    rfl
  rw [hheld]
  rw [files_setFile] at hg
  split at hg
  · rename_i hmn
    cases hg
    rw [hmn]
    by_cases hlt : b < f.mHeadPos
    · exact (h.cover n f hf hin b hstart hlt).imp id fun hpos => Nat.add_pos_left hpos _
    · -- the byte lies in the new chunk
      have hcov : covering n f.mSize b { pos := f.mHeadPos, len := k, fileno := n } = true :=
        covering_iff.2 ⟨rfl, ⟨not_lt.1 hlt, hhead⟩, hk⟩
      exact .inr (Nat.add_pos_right _ (hcov ▸ Nat.zero_lt_one))
  · exact (h.cover m g hg hing b hstart hhead).imp id fun hpos => by omega

theorem Cov.freshChunk (h : Cov s hand) (hf : s.files n = some f) (hin : f.inPool = true)
    (hfail : f.hasFailed = false) (budget : Bool) :
    Cov (s.freshChunk n budget).1 ((s.freshChunk n budget).2.toList.map inHand ++ hand) := by
  have hok := h.fileOk n f hf
  have hadv := wsFreshChunkAdvance_le hok.head
  unfold Pool.freshChunk
  rw [hf]
  simp only
  split
  · have hmark : Cov (s.setFile n { f with mEofSet := true }) hand :=
      h.setFile hf (.of_same hok)
    exact hmark.addHand _
  · -- the end of the file may be marked before the budget is asked
    rw [ite_mEofSet]
    split
    · exact (h.advanceHead hf hin hfail hadv _).consume _
    · exact h.setFile hf (.of_same hok)

theorem Cov.nextChunk (h : Cov s []) {now : Nat} {budget enginePaused : Bool} (pick : Option Nat)
    (hcond : s.reusesFailed now budget enginePaused = false) :
    Cov (s.nextChunk now budget enginePaused pick).1
      ((s.nextChunk now budget enginePaused pick).2.toList.map inHand) := by
  have hscan := h.scanResend budget
  unfold reusesFailed at hcond
  unfold Pool.nextChunk
  cases hr : s.scanResend budget s.mToResend with
  | taken x rest =>
    rw [hr] at hscan
    exact hscan.consume x
  | denied rest =>
    rwa [hr] at hscan
  | passed rest =>
    rw [hr] at hscan hcond
    replace hscan : Cov { s with mToResend := rest } [] := hscan
    simp only at hcond ⊢
    cases enginePaused with
    | true => exact hscan
    | false =>
      have hreuse : ∀ n f, ({ s with mToResend := rest } : Pool).canReuse now = some n →
          ({ s with mToResend := rest } : Pool).files n = some f → f.hasFailed = false := by
        intro n f hn hf
        rw [show s.canReuse now = some n from hn] at hcond
        simpa [show s.files n = some f from hf] using hcond
      obtain ⟨hcov, hfile⟩ := hscan.getWsUploadFile now pick hreuse
      generalize ({ s with mToResend := rest } : Pool).getWsUploadFile now pick = r at hcov hfile
      obtain ⟨s₁, picked⟩ := r
      cases picked with
      | none => exact hcov
      | some n =>
        obtain ⟨f, hf, hin, hfail⟩ := hfile n rfl
        have hfresh := hcov.freshChunk hf hin hfail budget
        rwa [append_nil] at hfresh

theorem Cov.sendChunk (h : Cov s []) {budget enginePaused : Bool}
    (hcond : s.reusesFailed now budget enginePaused = false) :
    Cov (s.sendChunk c now budget enginePaused pick) [] := by
  unfold Pool.sendChunk
  split
  · rename_i hc
    have hnext := h.nextChunk pick hcond
    have hconns := mConns_nextChunk (s := s) now budget enginePaused pick
    generalize s.nextChunk now budget enginePaused pick = r at hnext hconns
    obtain ⟨s₁, chunk?⟩ := r
    cases chunk? with
    | none => exact hnext
    | some x =>
      replace hnext : Cov s₁ [inHand x] := hnext
      replace hconns : s₁.mConns = s.mConns := hconns
      have hlt : c < s₁.mConns.length := hconns ▸ hc.1
      have hfree : (s₁.conn c).worker = none := by
        rw [conn, hconns]
        exact isNone_iff_eq_none.1 hc.2
      simp only
      split
      · rename_i hnone
        exact hnext.dropUnbound hnone
      split
      · rename_i hlen
        split
        · exact hnext.requeue rfl rfl
        split
        · exact hnext.dropEmpty hlen
        · exact hnext.putInFlight hlt {}
      · exact hnext.giveWorker hlt hfree rfl
  · exact h

section

variable (h : Cov s (t :: hand))
include h

theorem Cov.afterInterrupt : Cov (s.afterInterrupt t) hand := by
  unfold Pool.afterInterrupt
  split
  · rename_i hnone
    exact h.dropUnbound hnone
  · exact (h.requeue rfl rfl).refund _

/-- After a successful read the chunk is dropped only when its file left the pool or failed. -/
theorem Cov.afterRead (hc : c < s.mConns.length)
    (hw : (s.conn c).worker = none) : Cov (s.afterRead c t) hand := by
  unfold Pool.afterRead
  split
  · rename_i hnone
    exact (h.dropUnbound hnone).refund _
  rename_i f hf
  split
  · exact (h.requeue rfl rfl).refund _
  split
  · rename_i hfail
    refine (h.dropHand fun g hg => ?_).refund _
    cases hf.symm.trans hg
    exact (h.fileOk _ f (findFile_eq_some.1 hf).1).idle (.inr hfail)
  · exact h.giveWorker hc hw rfl

theorem Cov.afterFailedRead (now) : Cov (s.afterFailedRead t now) hand := by
  have hmark : Cov (s.withFile t.chunk.fileno fun f =>
      if f.obj = t.obj then f.markFailed now else f) (t :: hand) := by
    refine h.withFile fun f hf => ?_
    split
    · exact .markFailed f now
    · exact .of_same (h.fileOk _ f hf)
  unfold Pool.afterFailedRead
  simp only
  split
  · rename_i hnone
    exact hmark.dropUnbound hnone
  rename_i f hf
  replace hmark := hmark.refund [t.chunk]
  have hfile := (findFile_eq_some.1 hf).1
  split
  · rename_i hfail
    have hcov := hmark.purgeReset (g := id) fun g hg => by
      cases hfile.symm.trans hg
      exact ⟨hmark.fileOk _ f hg, (hmark.fileOk _ f hg).idle (.inr hfail)⟩
    rw [withFile_id] at hcov
    exact hcov.dropUnbound findFile_unsetPool
  · have hcov := hmark.failFile (n := t.chunk.fileno) now
    exact hcov.dropUnbound findFile_unsetPool

end

theorem Cov.finishRead (h : Cov s []) (outcome : ReadOutcome) (now) :
    Cov (s.finishRead c outcome now) [] := by
  unfold Pool.finishRead
  split
  · exact h
  rename_i t ht
  split
  · exact h
  have htake := h.takeWorker ht
  obtain ⟨hlt, hfree⟩ := conn_setWorker_self ht
  split
  · exact htake.afterInterrupt
  split
  · exact htake.afterRead hlt hfree
  · exact htake.afterFailedRead now

theorem Cov.finishEncrypt (h : Cov s []) : Cov (s.finishEncrypt c) [] := by
  unfold Pool.finishEncrypt
  split
  · exact h
  rename_i t ht
  split
  · exact h
  have htake := h.takeWorker ht
  obtain ⟨hlt, _⟩ := conn_setWorker_self ht
  unfold Pool.afterEncrypt
  split
  · rename_i hnone
    exact (htake.dropUnbound hnone).refund _
  split
  · exact (htake.requeue rfl rfl).refund _
  · exact htake.putInFlight hlt _

/-! ## 6. Losses and frames -/

/-- A lost connection: what is not queued again is acked. -/
theorem Cov.retryChunksOnTheWire (h : Cov s hand) : Cov (s.retryChunksOnTheWire c) hand := by
  refine h.of_held h.counted.retryChunksOnTheWire rfl rfl fun n f b hf hin hnot hb => ?_
  have hheld := held_retryChunksOnTheWire (s := s) (c := c) hand
    (covering n f.mSize b) fun t => covering n f.mSize b t.chunk
  have hskip : ((s.conn c).mChunksInFlight.filter s.alreadyAcked).countP
      (fun x => covering n f.mSize b x.1) = 0 := by
    rw [countP_eq_zero]
    intro x hx hcov
    obtain ⟨hn, hbx, _⟩ := covering_iff.1 hcov
    have hacked := (mem_filter.1 hx).2
    unfold alreadyAcked at hacked
    rw [hn, findFile_eq_some.2 ⟨hf, hin⟩, Bool.and_eq_true] at hacked
    exact hnot ((h.fileOk n f hf).acked b (inIntervals_of_rangeFullyAcked hacked.2 hbx))
  unfold holding at hb ⊢
  omega

theorem acked_ackFile (x : WsChunk × ChunkmacMap) (event) (f)
    (b : Nat) : (ackFile x event f).Acked b ↔ f.Acked b ∨ Covers x.1.range b := by
  rw [ackFile_eq]
  simp [WsUploadFile.Acked]

theorem Upd.ackFile (hok : FileOk f) (x : WsChunk × ChunkmacMap) (event) :
    Upd f (Pool.ackFile x event f) := by
  have hacked := acked_ackFile x event f
  rw [ackFile_eq] at hacked ⊢
  exact
    { fileOk := ⟨hok.idle, hok.head, fun b hb => (hacked b).2 (.inl (hok.acked b hb))⟩
      bound := id
      cover := fun hin b hstart hhead =>
        ⟨rfl, hin, hstart, hhead, fun hb => (hacked b).2 (.inl hb)⟩ }

section

variable (h : Cov s hand)
include h

/-- A chunk that the server rejects is in hand when it has left the list. -/
theorem Cov.takeRejected {x : WsChunk × ChunkmacMap} (hx : s.named c fileno pos = some x) :
    Cov (s.takeNamed c x .crcFailed) (inHand x.1 :: hand) := by
  refine h.of_held (h.counted.takeNamed _ hx) rfl rfl fun n f b _ _ _ hb => ?_
  have hheld := held_takeNamed hand (covering n f.mSize b)
    (fun t => covering n f.mSize b t.chunk) .crcFailed hx
  unfold holding at hb ⊢
  rw [held_cons]
  show 0 < _ + (covering n f.mSize b x.1).toNat
  omega

/-- A chunk that a confirming event names is acked when it leaves the list. -/
theorem Cov.takeNamed {x : WsChunk × ChunkmacMap} {event : WsApiServerEvent}
    (hx : s.named c fileno pos = some x) (hev : event.confirms = true) :
    Cov (s.takeNamed c x event) hand ∧
      ∀ f b, (s.takeNamed c x event).files x.1.fileno = some f → Covers x.1.range b →
        f.Acked b := by
  rw [takeNamed_confirms s c x hev]
  have hack : Cov (s.withFile x.1.fileno (Pool.ackFile x event)) hand :=
    h.withFile fun f hf => .ackFile (h.fileOk _ f hf) x event
  have hx' : (s.withFile x.1.fileno (Pool.ackFile x event)).named c fileno pos = some x := by
    unfold named conn at hx ⊢
    rwa [mConns_withFile]
  have hacked : ∀ f b, (s.withFile x.1.fileno (Pool.ackFile x event)).files x.1.fileno = some f →
      Covers x.1.range b → f.Acked b := by
    intro f b hf hb
    rw [files_withFile, if_pos rfl] at hf
    obtain ⟨f₀, _, rfl⟩ := map_eq_some_iff.1 hf
    exact (acked_ackFile x event f₀ b).2 (.inr hb)
  refine ⟨?_, hacked⟩
  refine hack.of_held (hack.counted.takeNamed _ hx') rfl rfl fun n f b hf _ hnot hb => ?_
  have hheld := held_takeNamed hand (covering n f.mSize b)
    (fun t => covering n f.mSize b t.chunk) .crcFailed hx'
  have hno : covering n f.mSize b x.1 = false := by
    cases hcov : covering n f.mSize b x.1
    · rfl
    · obtain ⟨hn, hbx, _⟩ := covering_iff.1 hcov
      exact absurd (hacked f b (hn ▸ hf) hbx) hnot
  rw [hno, Bool.toNat_false] at hheld
  unfold holding at hb ⊢
  omega

theorem Cov.creditBytes (now)
    (hacked : ∀ f b, s.files x.fileno = some f → Covers x.range b → f.Acked b) :
    Cov (s.creditBytes x now) hand := by
  unfold Pool.creditBytes
  split
  · exact h
  simp only
  have hcredit : Cov (s.withFile x.fileno fun f =>
      { f with
        mBytesConfirmed := f.mBytesConfirmed + x.len
        mAckedIntervals := if s.mAckedChunkRewind then
          markRangeAcked x.pos (x.pos + x.len) f.mAckedIntervals
          else f.mAckedIntervals }) hand := by
    refine h.withFile fun f hf => ?_
    have hok := h.fileOk _ f hf
    refine ⟨⟨hok.idle, hok.head, fun b hb => ?_⟩, id, fun hin b hstart hhead =>
      ⟨rfl, hin, hstart, hhead, id⟩⟩
    split at hb
    · rcases mem_markRangeAcked hb with hb | hb
      · exact hacked f b hf hb
      · exact hok.acked b hb
    · exact hok.acked b hb
  split
  · split
    · exact hcredit.failFile now
    · exact hcredit
  · exact hcredit

/-- Queued copies of a range that is acked may go. -/
theorem Cov.purgeQueuedResendForRange
    (hacked : ∀ f b, s.files x.fileno = some f → Covers x.range b → f.Acked b) :
    Cov (s.purgeQueuedResendForRange x) hand := by
  refine h.of_held (h.counted.congr rfl rfl) rfl rfl fun n f b hf _ hnot hb => ?_
  have hkeep : (s.purgeQueuedResendForRange x).mToResend.countP (covering n f.mSize b) =
      s.mToResend.countP (covering n f.mSize b) := by
    unfold Pool.purgeQueuedResendForRange
    rw [countP_filter]
    refine countP_congr fun y _ => ?_
    rw [Bool.and_eq_true, and_iff_left_iff_imp]
    intro hy
    obtain ⟨hn, hby, _⟩ := covering_iff.1 hy
    by_contra hsame
    simp only [Bool.not_eq_true, Bool.not_eq_false', Bool.and_eq_true, beq_iff_eq] at hsame
    obtain ⟨⟨hfn, hp⟩, hl⟩ := hsame
    refine hnot (hacked f b (by rw [← hfn, hn]; exact hf) ?_)
    unfold WsChunk.range at hby ⊢
    rwa [hp, hl] at hby
  unfold holding held at hb ⊢
  rwa [hkeep]

end

/-- A rejected chunk is queued again, or its upload fails. -/
theorem Cov.retryChunk (h : Cov s (inHand x :: hand)) (now)
    (hf : s.findFile x.fileno = some f) : Cov (s.retryChunk x now) hand := by
  unfold Pool.retryChunk
  simp only
  split
  · rw [hf]
    exact (h.failFile now).dropUnbound findFile_unsetPool
  · exact h.requeue rfl rfl

theorem Cov.handleNamed (h : Cov s []) {x : WsChunk × ChunkmacMap} {event : WsApiServerEvent}
    (hf : s.findFile fileno = some f) (hx : s.named c fileno pos = some x)
    (hev : event.namesChunk = true) (herr : event ≠ .error) (headerOnly : Bool) (now : Nat) :
    Cov ((s.takeNamed c x event).handleNamed x.1 event headerOnly now) [] := by
  have hn : x.1.fileno = fileno := (named_spec hx).2.2
  cases hconf : event.confirms with
  | true =>
    obtain ⟨hcov, hacked⟩ := h.takeNamed hx hconf
    unfold Pool.handleNamed
    split
    · exact hcov.failFile now
    split
    · exact hcov.creditBytes now hacked
    · exact hcov.creditBytes now hacked
    · split
      · exact hcov.purgeQueuedResendForRange hacked
      · exact hcov
    · cases hconf
    · exact hcov
  | false =>
    -- the only other event that names a chunk
    rw [WsApiServerEvent.eq_crcFailed hev hconf herr]
    have hcov := h.takeRejected hx
    have hfind : (s.takeNamed c x .crcFailed).findFile x.1.fileno = some f := by
      rw [hn, findFile_congr (files_takeNamed_crcFailed s c x), hf]
    unfold Pool.handleNamed
    split
    · exact (hcov.failFile now).dropUnbound findFile_unsetPool
    · exact hcov.retryChunk now hfind

theorem Cov.complete (h : Cov s []) (payloadOk : Bool) (now : Nat) :
    Cov (s.complete n payloadOk now) [] := by
  have hother : ∀ m, m ≠ n → (s.applyInFlight n).files m = s.files m := fun m hm => by
    rw [files_applyInFlight, if_neg hm]
  have hactive : (s.applyInFlight n).mUploadingFile = s.mUploadingFile :=
    mUploadingFile_withFile _ s n
  unfold Pool.complete
  split
  · refine h.detach h.counted.applyInFlight hother hactive
      (fun p hp => held_applyInFlight_of_ne hp) fun f hf => ?_
    rw [files_applyInFlight, if_pos rfl] at hf
    obtain ⟨f₀, hf₀, rfl⟩ := map_eq_some_iff.1 hf
    obtain ⟨macs, hmacs⟩ := WsUploadFile.foldl_applyMacs_eq
      (s.flights.filter fun x => x.1.fileno == n) f₀
    rw [hmacs]
    have hok := h.fileOk n f₀ hf₀
    refine ⟨fun hcase => ?_, hok.head, hok.acked⟩
    rcases hcase with ⟨_, hcomp⟩ | hfail
    · cases hcomp
    · exact hok.idle (.inr hfail)
  · refine h.detach h.counted.applyInFlight.purgeFile hother hactive (fun p hp => ?_) fun f _ => ?_
    · rw [held_purgeFile_of_ne hp, held_applyInFlight_of_ne hp]
    · exact ⟨fun _ => rfl, Nat.zero_le _, fun b hb => absurd hb (inIntervals_nil b)⟩

theorem Cov.onmessage (h : Cov s []) (event) (headerOnly payloadOk : Bool)
    (now) : Cov (s.onmessage c fileno pos event headerOnly payloadOk now) [] := by
  unfold Pool.onmessage
  split
  · exact h
  rename_i f hf
  split
  · exact h.failFile now
  rename_i herr
  split
  · rename_i hev
    split
    · exact h
    · rename_i x hx
      exact h.handleNamed hf hx hev herr headerOnly now
  split
  · exact h.failFile now
  split
  · exact h.complete payloadOk now
  · exact h

/-! ## 7. Runs -/

theorem Cov.newConn (h : Cov s hand) : Cov { s with mConns := s.mConns ++ [{}] } hand := by
  refine h.of_held ?_ rfl rfl fun n f b _ _ _ hb => ?_
  · have hcount := h.counted
    unfold Counted at hcount ⊢
    rwa [flights_newConn]
  · unfold holding at hb ⊢
    rwa [held_newConn]

/-- **Every step that meets the condition keeps the invariant.** -/
theorem Cov.exec (h : Cov s []) {op : Op} (hop : FreshFromStarted op s) : Cov (s.exec op) [] := by
  cases op with
  | newConn => exact h.newConn
  | sendChunk c now budget enginePaused pick => exact h.sendChunk hop
  | finishRead c outcome now => exact h.finishRead outcome now
  | finishEncrypt c => exact h.finishEncrypt
  | onmessage c fileno pos event headerOnly payloadOk now =>
    exact h.onmessage event headerOnly payloadOk now
  | closeWS c => exact h.retryChunksOnTheWire
  | setPaused fileno _ | setRetryUntil fileno _ | drainConfirmedChunkMacs fileno =>
    exact h.withFile fun f hf => .of_same (h.fileOk _ f hf)
  | setQuotaHeld fileno q => exact h.withFile fun f hf => .setQuotaHeld (h.fileOk _ f hf) q
  | markFailed fileno now retryUntil =>
    exact h.withFile fun f _ => .markFailedForRetry f now retryUntil
  | restart fileno now => exact h.restart now
  | clearSessionUrlHintAndRestart fileno pinned => exact h.clearSessionUrlHintAndRestart pinned
  | enqueue fileno t => exact h.enqueue t
  | remove fileno => exact h.remove
  | bumpQueueVersion => exact { h with counted := h.counted.congr rfl rfl }

theorem cov_fresh (a d : Bool) : Cov (fresh a d) [] where
  counted := rfl
  fileOk := nofun
  active := nofun
  cover := nofun

/-- **No byte is lost.** In every run in which fresh chunks are not taken from a failed upload, every
    byte of an active attempt up to the head position is acked, in flight, queued or in a worker's
    hands, and the counter is the number of chunks in flight. -/
theorem none_lost_of_run {a d : Bool} {s : Pool}
    (hr : Relation.ReflTransGen (StepBy Pool.exec FreshFromStarted) (fresh a d) s) :
    NoneLost s ∧ Counted s := by
  have hcov : Cov s [] := run_inv (fun s => Cov s [])
    (fun s s' h ⟨op, hop, he⟩ => he ▸ h.exec hop) (cov_fresh a d) hr
  exact ⟨hcov.noneLost, hcov.counted⟩

/-- A chunk is sent, its connection is lost, and another worker takes it from the queue. -/
def lossOps : List Op :=
  [.newConn, .newConn, .enqueue 0 { size := 200000 }, .sendChunk 0 1 true false (some 0),
    .finishRead 0 .ok 2, .finishEncrypt 0, .closeWS 0, .sendChunk 1 3 true false none]

theorem none_lost_of_run_loss : ∃ s : Pool,
    Relation.ReflTransGen (StepBy Pool.exec FreshFromStarted) (fresh true true) s ∧
      (s.files 0).map (·.mHeadPos) = some 131072 ∧ s.tasks.length = 1 ∧ NoneLost s ∧ Counted s := by
  have hr : Relation.ReflTransGen (StepBy Pool.exec FreshFromStarted) (fresh true true)
      (execAll lossOps (fresh true true)) := run_of_allBy (by decide)
  exact ⟨_, hr, rfl, rfl, none_lost_of_run hr⟩

/-- The upload is started, but the budget denies its first chunk. The account goes over quota
    (`markFailed`), and the user lifts the backoff (`setRetryUntil`). The fast path takes the first
    chunk, which is dropped after the read. The next file in the queue makes the pool start the
    upload again, behind that chunk. -/
def reuseOps : List Op :=
  [.newConn, .enqueue 0 { size := 200000 }, .sendChunk 0 1 false false (some 0),
    .markFailed 0 2 4294967295, .setRetryUntil 0 3, .sendChunk 0 4 true false none,
    .finishRead 0 .ok 5, .enqueue 1 { size := 1 }, .sendChunk 0 6 false false (some 0)]

/-- **The first chunk of an active attempt is nowhere.** -/
theorem lost_after_reuse_of_failed : ∃ s : Pool,
    Relation.ReflTransGen (StepBy Pool.exec fun _ _ => True) (fresh true true) s ∧
      ¬ (NoneLost s ∧ Counted s) := by
  refine ⟨execAll reuseOps (fresh true true), run_of_allBy (by decide), fun h => ?_⟩
  have hflights : (execAll reuseOps (fresh true true)).flights = [] := rfl
  have hresend : (execAll reuseOps (fresh true true)).mToResend = [] := rfl
  have htasks : (execAll reuseOps (fresh true true)).tasks = [] := rfl
  obtain ⟨f, hf, hin, hact, hstart, hhead, hacked⟩ :
      ∃ f, (execAll reuseOps (fresh true true)).files 0 = some f ∧ f.inPool = true ∧
        (f.mUploadStartTime.isSome = true ∧ f.hasFailed = false) ∧ f.attempt.start = 0 ∧
          f.mHeadPos = 131072 ∧ f.attempt.acked = [] :=
    ⟨_, rfl, rfl, ⟨rfl, rfl⟩, rfl, rfl, rfl⟩
  rcases h.1 0 f hf hin hact 0 (by omega) (by omega) with hb | hb
  · obtain ⟨r, hr, _⟩ := hb
    rw [hacked] at hr
    cases hr
  rcases hb with ⟨x, hx, _⟩ | ⟨x, hx, _⟩ | ⟨t, ht, _⟩
  · rw [hflights] at hx
    cases hx
  · rw [hresend] at hx
    cases hx
  · rw [htasks] at ht
    cases ht

end MegaSdk.Ws.Pool
