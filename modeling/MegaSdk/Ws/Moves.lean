/-
  File:      MegaSdk/Ws/Moves.lean
  Subject:   WHAT ONE STEP CAN DO WHEN NO UPLOAD FAILS. Workers send, the server acks or completes,
             connections are lost and their chunks queued again.

  The steps that reset an attempt are left out (`Op.regular`). What is left is said once, in terms of
  the chunks in flight and the workers' tasks before the step, and everything about such runs is
  derived from that.

  * `Change` -- what a step can do to one upload: at most one range more is handed out or acked, and
    a range that goes to a connection was in a worker's hands;
  * `Moves` -- with the chunks in flight and the tasks that are new after the step;
  * `moves_exec` -- every regular step does no more; an ack never overflows the confirmed bytes
    (`Acct.credit_le`), so it fails nothing;
  * `Steady` -- no upload has failed, and every task belongs to the only attempt of its upload. With
    it regular steps meet the conditions `FreshFromStarted` and `OneAttempt`.
-/
import MegaSdk.Ws.Attempts
import MegaSdk.Ws.Coverage

namespace MegaSdk.Ws

open Base List

variable {f f' : WsUploadFile} {x : WsChunk × ChunkmacMap}

/-! ## 1. The steps -/

/-- A step of uploads that go well: a worker sends, the server acks a chunk (events 1, 2 and 7) or
    completes an upload, a connection is lost, the user pauses or resumes. -/
def Op.regular : Op → Bool
  | .newConn | .sendChunk .. | .finishEncrypt _ | .closeWS _ | .setPaused .. | .setQuotaHeld ..
  | .setRetryUntil .. | .bumpQueueVersion => true
  | .finishRead _ outcome _ => outcome != .failed
  | .onmessage _ _ _ event headerOnly payloadOk _ =>
    (event.confirms || event == .uploadCompleted) && !headerOnly && payloadOk
  | _ => false

/-- The upload that the step completes. -/
def Op.completes : Op → Option Nat
  | .onmessage _ fileno _ .uploadCompleted _ _ _ => some fileno
  | _ => none

/-- What no regular step changes of an upload. -/
def WsUploadFile.ident (f : WsUploadFile) :
    (Block → Block) × UInt64 × List UInt8 × Nat × Nat × Nat × Nat :=
  (f.mTransferKey, f.mCtrIv, f.content, f.mSize, f.obj, f.attempt.number, f.attempt.start)

theorem WsUploadFile.ident_eq (h : f'.ident = f.ident) :
    f'.mTransferKey = f.mTransferKey ∧ f'.mCtrIv = f.mCtrIv ∧ f'.content = f.content ∧
      f'.mSize = f.mSize ∧ f'.obj = f.obj ∧ f'.attempt.number = f.attempt.number ∧
        f'.attempt.start = f.attempt.start := by
  simpa [ident] using h

/-- The MAC of the range `r` of the file, in a map of its own. -/
def WsUploadFile.macsOf (f : WsUploadFile) (r : Nat × Nat) : ChunkmacMap :=
  encryptChunk f.mTransferKey f.mCtrIv r.1 ((f.content.drop r.1).take r.2)

theorem WsUploadFile.macsOf_congr (h : f'.ident = f.ident) : f'.macsOf = f.macsOf := by
  obtain ⟨hkey, hiv, hcontent, _⟩ := ident_eq h
  funext r
  unfold macsOf
  rw [hkey, hiv, hcontent]

namespace Pool

variable {op : Op} {s s' : Pool} {c n : Nat} {T : List Task} {F : List (WsChunk × ChunkmacMap)}
variable (now : Nat)

/-- How the acks and the confirmed MACs of upload `n` can change, with the chunks `F` in flight. -/
inductive Confirms (op : Op) (F : List (WsChunk × ChunkmacMap)) (n : Nat) (f f' : WsUploadFile) :
    Prop
  | stays (hacked : f'.attempt.acked = f.attempt.acked)
      (hmacs : f'.mConfirmedChunkMacs = f.mConfirmedChunkMacs)
      (hcomp : f'.mUploadCompletionTime = f.mUploadCompletionTime)
  | acks (x : WsChunk × ChunkmacMap) (hx : x ∈ F) (hn : x.1.fileno = n) (event : WsApiServerEvent)
      (hbound : f.inPool = true)
      (hacked : f'.attempt.acked = f.attempt.acked ++ [(event, x.1.range)])
      (hmacs : f'.mConfirmedChunkMacs = (f.applyMacs x.2).mConfirmedChunkMacs)
      (hcomp : f'.mUploadCompletionTime = f.mUploadCompletionTime)
  | done (hop : op.completes = some n) (hbound : f.inPool = true)
      (hacked : f'.attempt.acked = f.attempt.acked)
      (hmacs : f'.mConfirmedChunkMacs = ((F.filter fun x => x.1.fileno == n).foldl
        (fun f x => f.applyMacs x.2) f).mConfirmedChunkMacs)
      (hcomp : f'.mUploadCompletionTime.isSome = true)
  | drained (hop : op = .drainConfirmedChunkMacs n) (hacked : f'.attempt.acked = f.attempt.acked)
      (hmacs : f'.mConfirmedChunkMacs = [])
      (hcomp : f'.mUploadCompletionTime = f.mUploadCompletionTime)

theorem Confirms.congr {f'' : WsUploadFile} (h : Confirms op F n f f')
    (hacked : f''.attempt.acked = f'.attempt.acked)
    (hmacs : f''.mConfirmedChunkMacs = f'.mConfirmedChunkMacs)
    (hcomp : f''.mUploadCompletionTime = f'.mUploadCompletionTime) : Confirms op F n f f'' := by
  cases h with
  | stays ha hm hc => exact .stays (hacked.trans ha) (hmacs.trans hm) (hcomp.trans hc)
  | acks x hx hn event hb ha hm hc =>
    exact .acks x hx hn event hb (hacked.trans ha) (hmacs.trans hm) (hcomp.trans hc)
  | done hop hb ha hm hc =>
    exact .done hop hb (hacked.trans ha) (hmacs.trans hm) (hcomp ▸ hc)
  | drained hop ha hm hc =>
    exact .drained hop (hacked.trans ha) (hmacs.trans hm) (hcomp.trans hc)

/-- What a step can do to upload `n`, with the tasks `T` and the chunks `F` in flight before it. -/
structure Change (op : Op) (T : List Task) (F : List (WsChunk × ChunkmacMap)) (n : Nat)
    (f f' : WsUploadFile) : Prop where
  ident : f'.ident = f.ident
  failed : f.hasFailed = false → f'.hasFailed = false
  bound : (f.inPool = true → f.mUploadCompletionTime = none) →
    f'.inPool = true → f'.mUploadCompletionTime = none
  handed : (f'.attempt.handed = f.attempt.handed ∧ f'.mHeadPos = f.mHeadPos) ∨
    (f.mHeadPos ≠ f.mSize ∧
      f'.attempt.handed = f.attempt.handed ++
        [(f.mHeadPos, wsFreshChunkAdvance f.mHeadPos f.mSize)] ∧
      f'.mHeadPos = f.mHeadPos + wsFreshChunkAdvance f.mHeadPos f.mSize)
  sent : ∀ r ∈ f'.attempt.sent, r ∈ f.attempt.sent ∨ r.2 = 0 ∨
    ∃ t ∈ T, t.chunk.fileno = n ∧ t.chunk.range = r
  confirms : Confirms op F n f f'

/-- A change to nothing that `Change` tracks. -/
structure Quiet (f f' : WsUploadFile) : Prop where
  ident : f'.ident = f.ident
  failed : f.hasFailed = false → f'.hasFailed = false
  bound : (f.inPool = true → f.mUploadCompletionTime = none) →
    f'.inPool = true → f'.mUploadCompletionTime = none
  attempt : f'.attempt = f.attempt
  head : f'.mHeadPos = f.mHeadPos
  macs : f'.mConfirmedChunkMacs = f.mConfirmedChunkMacs
  comp : f'.mUploadCompletionTime = f.mUploadCompletionTime

theorem Quiet.of_eq (hident : f'.ident = f.ident := by rfl) (hin : f'.inPool = f.inPool := by rfl)
    (hfail : f'.mUploadFailedTime = f.mUploadFailedTime := by rfl)
    (hcomp : f'.mUploadCompletionTime = f.mUploadCompletionTime := by rfl)
    (ha : f'.attempt = f.attempt := by rfl) (hhead : f'.mHeadPos = f.mHeadPos := by rfl)
    (hmacs : f'.mConfirmedChunkMacs = f.mConfirmedChunkMacs := by rfl) : Quiet f f' where
  ident := hident
  failed := by unfold WsUploadFile.hasFailed; rw [hfail]; exact id
  bound := by rw [hin, hcomp]; exact id
  attempt := ha
  head := hhead
  macs := hmacs
  comp := hcomp

theorem Quiet.refl (f) : Quiet f f := .of_eq

theorem Quiet.change (h : Quiet f f') : Change op T F n f f' where
  __ := h
  handed := .inl ⟨by rw [h.attempt], h.head⟩
  sent := fun r hr => .inl (h.attempt ▸ hr)
  confirms := .stays (by rw [h.attempt]) h.macs h.comp

variable (f op n T F) in
theorem Change.refl : Change op T F n f f := (Quiet.refl f).change

theorem Change.after {f₁ : WsUploadFile} (h : Change op T F n f₁ f') (hq : Quiet f f₁)
    (hin : f'.mUploadCompletionTime = f₁.mUploadCompletionTime)
    (hmacs : f'.mConfirmedChunkMacs = f₁.mConfirmedChunkMacs)
    (hacked : f'.attempt.acked = f₁.attempt.acked) : Change op T F n f f' where
  ident := h.ident.trans hq.ident
  failed := h.failed ∘ hq.failed
  bound := h.bound ∘ hq.bound
  handed := by
    have hsize := (WsUploadFile.ident_eq hq.ident).2.2.2.1
    have hh := h.handed
    rwa [hq.head, hq.attempt, hsize] at hh
  sent := by
    have hs := h.sent
    rwa [hq.attempt] at hs
  confirms := .stays (hacked.trans (by rw [hq.attempt])) (hmacs.trans hq.macs) (hin.trans hq.comp)

/-- A range goes to a connection: it is empty, or a worker had it in its hands. -/
theorem Change.send (h : Change op T F n f f') {r : Nat × Nat}
    (hr : r.2 = 0 ∨ ∃ t ∈ T, t.chunk.fileno = n ∧ t.chunk.range = r) :
    Change op T F n f
      { f' with attempt := { f'.attempt with sent := f'.attempt.sent ++ [r] } } where
  __ := h
  sent := by
    intro r' hr'
    rcases mem_append.1 hr' with hr' | hr'
    · exact h.sent r' hr'
    · rw [mem_singleton.1 hr']
      exact .inr hr
  confirms := h.confirms.congr rfl rfl rfl

theorem Change.quiet {f'' : WsUploadFile} (h : Change op T F n f f') (hq : Quiet f' f'') :
    Change op T F n f f'' where
  ident := hq.ident.trans h.ident
  failed := hq.failed ∘ h.failed
  bound := hq.bound ∘ h.bound
  handed := by rw [hq.attempt, hq.head]; exact h.handed
  sent := hq.attempt ▸ h.sent
  confirms := h.confirms.congr (by rw [hq.attempt]) hq.macs hq.comp

/-! ## 2. What a step can do -/

/-- The uploads are the same ones, each with a change of its own. -/
def FilesMove (op : Op) (T : List Task) (F : List (WsChunk × ChunkmacMap)) (s s' : Pool) : Prop :=
  (∀ n, s.files n = none → s'.files n = none) ∧
    ∀ n f, s.files n = some f → ∃ f', s'.files n = some f' ∧ Change op T F n f f'

/-- Each upload is related to what it becomes. -/
def FilesRel (R : WsUploadFile → WsUploadFile → Nat → Prop) (s s' : Pool) : Prop :=
  (∀ n, s.files n = none → s'.files n = none) ∧
    ∀ n f, s.files n = some f → ∃ f', s'.files n = some f' ∧ R f f' n

/-- One upload is replaced, the others are as the step before left them. -/
theorem FilesRel.setFile {R Q : WsUploadFile → WsUploadFile → Nat → Prop} {s₁ : Pool}
    (h : FilesRel R s s₁) (hm : s₁.files n = some f) (hR : ∀ g g' m, R g g' m → Q g g' m)
    (hQ : ∀ g, R g f n → Q g f' n) (hs : s'.files = (s₁.setFile n f').files) : FilesRel Q s s' := by
  refine ⟨fun m hnone => ?_, fun m g hg => ?_⟩
  · rw [hs, files_setFile, if_neg fun hmn => by rw [← hmn, h.1 m hnone] at hm; cases hm]
    exact h.1 m hnone
  obtain ⟨g', hg', hr⟩ := h.2 m g hg
  rw [hs, files_setFile]
  split
  · subst_vars
    cases hm.symm.trans hg'
    exact ⟨f', rfl, hQ g hr⟩
  · exact ⟨g', hg', hR g g' m hr⟩

/-- A task that was not there before the step: its worker has just taken a chunk, or has read one. -/
def NewTask (s s' : Pool) (t : Task) : Prop :=
  (t.phase = .reading ∧ t.chunk.len ≠ 0 ∧ ∃ f, s'.files t.chunk.fileno = some f ∧
      t.obj = f.obj ∧ t.attempt = f.attempt.number) ∨
    (∃ t₀ ∈ s.tasks, t.chunk = t₀.chunk ∧ t.obj = t₀.obj ∧ t.attempt = t₀.attempt) ∧
      ∃ f, s.files t.chunk.fileno = some f ∧ t.macs = f.macsOf t.chunk.range

/-- A chunk in flight that was not there before the step: the empty one, or one that a worker has
    encrypted. -/
def NewFlight (s : Pool) (x : WsChunk × ChunkmacMap) : Prop :=
  (x.1.len = 0 ∧ x.2 = {}) ∨ ∃ t ∈ s.tasks, t.phase = .encrypting ∧ x = (t.chunk, t.macs)

/-- **What a regular step can do.** -/
structure Moves (op : Op) (s s' : Pool) : Prop where
  files : FilesMove op s.tasks s.flights s s'
  flights : ∀ x ∈ s'.flights, x ∈ s.flights ∨ NewFlight s x
  tasks : ∀ t ∈ s'.tasks, t ∈ s.tasks ∨ NewTask s s' t

theorem FilesMove.of_eq (h : s'.files = s.files) : FilesMove op T F s s' :=
  ⟨fun _ hn => h ▸ hn, fun _ f hf => ⟨f, h ▸ hf, .refl ..⟩⟩

section

variable (h : FilesMove op T F s s')
include h

theorem FilesMove.withFile {g : WsUploadFile → WsUploadFile}
    (hg : ∀ f f', s.files n = some f → s'.files n = some f' → Change op T F n f f' →
      Change op T F n f (g f')) : FilesMove op T F s (s'.withFile n g) := by
  refine ⟨fun m hm => ?_, fun m f hf => ?_⟩
  · rw [files_withFile]
    split_ifs with hmn
    · rw [← hmn, h.1 m hm, Option.map_none]
    · exact h.1 m hm
  obtain ⟨f', hf', hc⟩ := h.2 m f hf
  rw [files_withFile]
  split
  · subst_vars
    exact ⟨g f', by rw [hf', Option.map_some], hg f f' hf hf' hc⟩
  · exact ⟨f', hf', hc⟩

theorem FilesMove.congr {s'' : Pool} (he : s''.files = s'.files) : FilesMove op T F s s'' := by
  unfold FilesMove
  rwa [he]

/-- An upload after the step was there before it. -/
theorem FilesMove.before (hf' : s'.files n = some f') :
    ∃ f, s.files n = some f ∧ Change op T F n f f' := by
  cases hf : s.files n with
  | none => cases (h.1 n hf).symm.trans hf'
  | some f =>
    obtain ⟨g, hg, hc⟩ := h.2 n f hf
    cases hg.symm.trans hf'
    exact ⟨f, rfl, hc⟩

end

theorem Moves.of_files (hf : FilesMove op s.tasks s.flights s s') (hc : s'.mConns = s.mConns) :
    Moves op s s' where
  files := hf
  flights := fun x hx => .inl (by rwa [flights_congr hc] at hx)
  tasks := fun t ht => .inl (by rwa [tasks_congr hc] at ht)

theorem Moves.refl (s) : Moves op s s := .of_files (.of_eq rfl) rfl

theorem Moves.withFile {g : WsUploadFile → WsUploadFile}
    (hg : ∀ f, Change op s.tasks s.flights n f (g f)) : Moves op s (s.withFile n g) := by
  refine .of_files (FilesMove.withFile (.of_eq rfl) fun f f' hf hf' _ => ?_) (mConns_withFile _ _ _)
  cases hf.symm.trans hf'
  exact hg f

/-! ## 3. Sending -/

theorem Quiet.setUploadStart {now} (hcomp : f.mUploadCompletionTime = none) (bound : Bool) :
    Quiet f { f.setUploadStart now with inPool := bound } where
  ident := rfl
  failed := fun _ => rfl
  bound := fun _ _ => hcomp
  attempt := rfl
  head := rfl
  macs := rfl
  comp := rfl

/-- `getWsUploadFile` starts uploads, which is not seen here. -/
theorem getWsUploadFile_quiet (pick : Option Nat) :
    FilesRel (fun f f' _ => Quiet f f') s (s.getWsUploadFile now pick).1 := by
  have hself : FilesRel (fun f f' _ => Quiet f f') s s :=
    ⟨fun _ => id, fun _ f hf => ⟨f, hf, .refl f⟩⟩
  have hset : ∀ m f f', s.files m = some f → Quiet f f' →
      FilesRel (fun f f' _ => Quiet f f') s (s.setFile m f') := by
    intro m f f' hf hq
    have hsame : FilesRel (fun g g' _ => g' = g) s s := ⟨fun _ => id, fun _ g hg => ⟨g, hg, rfl⟩⟩
    exact hsame.setFile hf (fun g g' _ he => he ▸ .refl g) (fun g he => he ▸ hq) rfl
  unfold Pool.getWsUploadFile
  split
  · exact hself
  split
  · exact hself
  rename_i m
  split
  · exact hself
  rename_i f hf
  split
  · rename_i hcond
    simp only [Bool.and_eq_true] at hcond
    have hcomp := continuingUpload_completion hcond.1.2
    split
    · exact hset m f _ hf (.setUploadStart hcomp true)
    · exact hset m f _ hf (.setUploadStart hcomp f.inPool)
  · exact hself

/-- One chunk more is handed out at the head position, or nothing that is seen here happens. -/
theorem freshChunk_change (budget : Bool) (hf : s.files n = some f) :
    ∃ f', (s.freshChunk n budget).1.files = (s.setFile n f').files ∧ Change op T F n f f' ∧
      f'.mUploadCompletionTime = f.mUploadCompletionTime ∧
        f'.mConfirmedChunkMacs = f.mConfirmedChunkMacs ∧
          f'.attempt.acked = f.attempt.acked := by
  have hquiet : ∀ eof, Quiet f { f with mEofSet := eof } := fun _ => .of_eq
  unfold Pool.freshChunk
  rw [hf]
  simp only
  split
  · exact ⟨_, rfl, (hquiet true).change, rfl, rfl, rfl⟩
  rename_i hne
  rw [ite_mEofSet]
  split
  · refine ⟨_, rfl, ?_, rfl, rfl, rfl⟩
    exact { Change.refl f op n T F with
      handed := .inr ⟨hne, rfl, rfl⟩, confirms := .stays rfl rfl rfl }
  · exact ⟨_, rfl, (hquiet _).change, rfl, rfl, rfl⟩

theorem FilesMove.nextChunk (budget enginePaused : Bool) (pick : Option Nat) :
    FilesMove op T F s (s.nextChunk now budget enginePaused pick).1 := by
  unfold Pool.nextChunk
  split
  · exact .of_eq rfl
  · exact .of_eq rfl
  rename_i rest _
  simp only
  split
  · exact .of_eq rfl
  have hrel := getWsUploadFile_quiet (s := { s with mToResend := rest }) now pick
  generalize ({ s with mToResend := rest } : Pool).getWsUploadFile now pick = r at hrel
  obtain ⟨s₁, picked⟩ := r
  replace hrel : FilesRel (fun f f' _ => Quiet f f') s s₁ := hrel
  have hquiet : FilesMove op T F s s₁ := ⟨hrel.1, fun n f hf => by
    obtain ⟨f', hf', hq⟩ := hrel.2 n f hf
    exact ⟨f', hf', hq.change⟩⟩
  cases picked with
  | none => exact hquiet
  | some m =>
    simp only
    cases hm : s₁.files m with
    | none =>
      refine hquiet.congr ?_
      unfold Pool.freshChunk
      rw [hm]
    | some f₁ =>
      obtain ⟨f', hfiles, hc, hcomp, hmacs, hacked⟩ :=
        freshChunk_change budget hm
      exact hrel.setFile hm (fun _ _ _ hq => hq.change)
        (fun _ hq => hc.after hq hcomp hmacs hacked) hfiles

theorem mem_flights_setInFlight {l : List (WsChunk × ChunkmacMap)}
    (h : x ∈ (s.setConn c { s.conn c with mChunksInFlight := l }).flights) :
    x ∈ s.flights ∨ x ∈ l := by
  obtain ⟨k, hk, hx⟩ := mem_flatMap.1 h
  rcases mem_or_eq_of_mem_set hk with hk | rfl
  · exact .inl (mem_flatMap.2 ⟨k, hk, hx⟩)
  · exact .inr hx

theorem mem_flights_putInFlight {chunk : WsChunk} {macs : ChunkmacMap}
    (h : x ∈ (s.putInFlight c chunk macs).flights) : x ∈ s.flights ∨ x = (chunk, macs) := by
  unfold Pool.putInFlight Pool.flights at h
  rw [mConns_withFile] at h
  rcases mem_flights_setInFlight h with hx | hx
  · exact .inl hx
  rcases mem_append.1 hx with hx | hx
  · exact .inl (mem_flights.2 ⟨c, hx⟩)
  · exact .inr (mem_singleton.1 hx)

section

variable (hf : FilesMove op s.tasks s.flights s s') (hfl : ∀ x ∈ s'.flights, x ∈ s.flights)
  (htk : ∀ t ∈ s'.tasks, t ∈ s.tasks)
include hf hfl htk

/-- What a step does that puts a chunk on a connection. -/
theorem Moves.putInFlight {chunk : WsChunk} {macs : ChunkmacMap} (hnew : NewFlight s (chunk, macs)) :
    Moves op s (s'.putInFlight c chunk macs) where
  files := by
    have hput : FilesMove op s.tasks s.flights s
        { s'.setConn c { s'.conn c with
            mChunksInFlight := (s'.conn c).mChunksInFlight ++ [(chunk, macs)] } with
          mNumChunksInFlight := s'.mNumChunksInFlight + 1 } := hf.congr rfl
    refine hput.withFile fun f f' _ _ hc => hc.send ?_
    rcases hnew with ⟨hlen, _⟩ | ⟨t, ht, _, he⟩
    · exact .inl hlen
    · cases he
      exact .inr ⟨t, ht, rfl, rfl⟩
  flights := by
    intro x hx
    rcases mem_flights_putInFlight hx with hx | rfl
    · exact .inl (hfl x hx)
    · exact .inr hnew
  tasks := fun t ht => .inl (htk t (by rwa [tasks_putInFlight] at ht))

/-- What a step does that queues a chunk again or drops it. -/
theorem Moves.drop : Moves op s s' where
  files := hf
  flights := fun x hx => .inl (hfl x hx)
  tasks := fun t ht => .inl (htk t ht)

/-- What a step does that leaves the worker of connection `c` with a new task. -/
theorem Moves.giveWorker {t : Task} (hnew : NewTask s s' t) :
    Moves op s (s'.setWorker c (some t)) where
  files := hf.congr rfl
  flights := fun x hx => .inl (hfl x (by rwa [flights_setWorker] at hx))
  tasks := by
    intro t' ht'
    rcases mem_tasks_setWorker ht' with he | ht'
    · cases he
      exact .inr hnew
    · exact .inl (htk t' ht')

end

theorem Moves.sendChunk (budget enginePaused : Bool) (pick : Option Nat) :
    Moves op s (s.sendChunk c now budget enginePaused pick) := by
  unfold Pool.sendChunk
  split
  · have hfiles : FilesMove op s.tasks s.flights s (s.nextChunk now budget enginePaused pick).1 :=
      .nextChunk now budget enginePaused pick
    have hconns := mConns_nextChunk (s := s) now budget enginePaused pick
    generalize s.nextChunk now budget enginePaused pick = r at hfiles hconns
    obtain ⟨s₁, chunk?⟩ := r
    replace hfiles : FilesMove op s.tasks s.flights s s₁ := hfiles
    replace hconns : s₁.mConns = s.mConns := hconns
    have hfl : ∀ x ∈ s₁.flights, x ∈ s.flights := by rw [flights_congr hconns]; exact fun _ => id
    have htk : ∀ t ∈ s₁.tasks, t ∈ s.tasks := by rw [tasks_congr hconns]; exact fun _ => id
    cases chunk? with
    | none => exact .drop hfiles hfl htk
    | some x =>
      simp only
      split
      · exact .drop hfiles hfl htk
      rename_i f hf
      split
      · rename_i hlen
        split
        · exact .drop (hfiles.congr rfl) hfl htk
        · split
          · exact .drop hfiles hfl htk
          · exact .putInFlight hfiles hfl htk (.inl ⟨hlen, rfl⟩)
      rename_i hlen
      exact .giveWorker hfiles hfl htk
        (.inl ⟨rfl, hlen, f, (findFile_eq_some.1 hf).1, rfl, rfl⟩)
  · exact .refl s

theorem takeWorker_subset : (∀ x ∈ (s.setWorker c none).flights, x ∈ s.flights) ∧
    ∀ t ∈ (s.setWorker c none).tasks, t ∈ s.tasks := by
  refine ⟨fun x hx => by rwa [flights_setWorker] at hx, fun t ht => ?_⟩
  rcases mem_tasks_setWorker ht with he | ht
  · cases he
  · exact ht

theorem Moves.finishRead {outcome : ReadOutcome} (h : outcome ≠ .failed) (now) :
    Moves op s (s.finishRead c outcome now) := by
  unfold Pool.finishRead
  split
  · exact .refl s
  rename_i t ht
  have hmem : t ∈ s.tasks := mem_tasks.2 ⟨c, ht⟩
  obtain ⟨hfl, htk⟩ := takeWorker_subset
  have hf : FilesMove op s.tasks s.flights s (s.setWorker c none) := .of_eq rfl
  split
  · exact .refl s
  simp only
  split
  · unfold Pool.afterInterrupt
    split
    · exact .drop hf hfl htk
    · exact .drop (hf.congr rfl) hfl htk
  rw [if_pos (by cases outcome <;> simp_all)]
  unfold Pool.afterRead
  split
  · exact .drop (hf.congr rfl) hfl htk
  rename_i f hfind
  split
  · exact .drop (hf.congr rfl) hfl htk
  split
  · exact .drop (hf.congr rfl) hfl htk
  · exact .giveWorker hf hfl htk (.inr ⟨⟨t, hmem, rfl, rfl, rfl⟩, f,
      (findFile_eq_some.1 hfind).1, rfl⟩)

theorem Moves.finishEncrypt : Moves op s (s.finishEncrypt c) := by
  unfold Pool.finishEncrypt
  split
  · exact .refl s
  rename_i t ht
  obtain ⟨hfl, htk⟩ := takeWorker_subset
  have hf : FilesMove op s.tasks s.flights s (s.setWorker c none) := .of_eq rfl
  split
  · exact .refl s
  rename_i hphase
  unfold Pool.afterEncrypt
  split
  · exact .drop (hf.congr rfl) hfl htk
  split
  · exact .drop (hf.congr rfl) hfl htk
  refine .putInFlight hf hfl htk (.inr ⟨t, mem_tasks.2 ⟨c, ht⟩, ?_, rfl⟩)
  cases hp : t.phase with
  | reading => exact absurd hp hphase
  | encrypting => rfl

/-! ## 4. Losses and frames -/

theorem Moves.retryChunksOnTheWire : Moves op s (s.retryChunksOnTheWire c) := by
  refine .drop (.of_eq rfl) (fun x hx => ?_) fun t ht => ?_
  · rcases mem_flights_setInFlight hx with hx | hx
    · exact hx
    · cases hx
  · rwa [tasks_retryChunksOnTheWire] at ht

/-- **An ack does not overflow the confirmed bytes**: the chunk in flight was handed out and not
    acked before. -/
theorem Acct.credit_le (h : Acct s []) (hf : s.files n = some f)
    (hcomp : f.mUploadCompletionTime = none) (hx : x ∈ s.flights) (hn : x.1.fileno = n)
    (hlen : 0 < x.1.len) : f.mBytesConfirmed + x.1.len ≤ f.mSize := by
  have hb := h.books n f hf hcomp
  have honce : ∀ r, 0 < r.2 → (f.attempt.acked.map (·.2)).count r ≤ f.attempt.handed.count r :=
    fun r hr => by
      have := h.once n f hf hcomp r hr
      omega
  obtain ⟨hnodup, hsub⟩ := hb.creditedRanges_handed honce
  -- the chunk is in flight, so of its range nothing is acked
  have hfly : 0 < s.flights.countP fun y => isRange n x.1.range y.1 :=
    countP_pos_iff.2 ⟨x, hx, isRange_iff.2 ⟨hn, rfl⟩⟩
  have hheld := h.once n f hf hcomp x.1.range hlen
  have hle := nodup_iff_count_le_one.1 hb.tiles.nodup x.1.range
  unfold held at hheld
  have hnew : x.1.range ∉ creditedRanges f := by
    intro hmem
    have hpos := count_pos_iff.2 hmem
    have := count_creditedRanges_le f x.1.range
    omega
  have hhanded : x.1.range ∈ f.attempt.handed := count_pos_iff.1 (by omega)
  have hsubperm : (x.1.range :: creditedRanges f).Subperm f.attempt.handed := by
    refine (nodup_cons.2 ⟨hnew, hnodup⟩).subperm fun r hr => ?_
    rcases mem_cons.1 hr with rfl | hr
    · exact hhanded
    · exact hsub r hr
  have hsum : ((x.1.range :: creditedRanges f).map (·.2)).sum ≤
      (f.attempt.handed.map (·.2)).sum := by
    obtain ⟨l, hperm, hl⟩ := hsubperm
    rw [← (hperm.map _).sum_eq]
    exact (hl.map _).sum_le_sum fun _ _ => Nat.zero_le _
  rw [map_cons, sum_cons, sum_creditedRanges] at hsum
  replace hsum : x.1.len + ((f.attempt.acked.filter (·.1.credits)).map (·.2.2)).sum ≤
    (f.attempt.handed.map (·.2)).sum := hsum
  have htotal := hb.tiles.sum
  have hcarry := hb.carry
  have hbytes := hb.bytes
  have hhead := hb.head
  omega

/-- The upload of an acked chunk: the ack is recorded and the MACs are confirmed. -/
theorem change_ackFile (hx : x ∈ F) (event : WsApiServerEvent) (hbound : f.inPool = true) :
    Change op T F x.1.fileno f (ackFile x event f) := by
  rw [ackFile_eq]
  exact { Change.refl f op _ T F with confirms := .acks x hx rfl event hbound rfl rfl rfl }

theorem FilesMove.takeNamed (hx : x ∈ s.flights)
    (hbound : ∀ f, s.files x.1.fileno = some f → f.inPool = true) {event : WsApiServerEvent}
    (hev : event.confirms = true) : FilesMove op T s.flights s (s.takeNamed c x event) := by
  have hack : FilesMove op T s.flights s (s.withFile x.1.fileno (ackFile x event)) := by
    refine FilesMove.withFile (.of_eq rfl) fun f f' hf hf' _ => ?_
    cases hf.symm.trans hf'
    exact change_ackFile hx event (hbound f hf)
  rw [takeNamed_confirms s c x hev]
  exact hack.congr (files_takeNamed_crcFailed _ _ _)

theorem takeNamed_subset (x) (event : WsApiServerEvent) :
    (∀ y ∈ (s.takeNamed c x event).flights, y ∈ s.flights) ∧
      ∀ t ∈ (s.takeNamed c x event).tasks, t ∈ s.tasks := by
  have hconns : (s.takeNamed c x event).mConns =
      (s.setConn c { s.conn c with
        mChunksInFlight := (s.conn c).mChunksInFlight.eraseP fun y =>
          y.1.pos == x.1.pos && y.1.fileno == x.1.fileno }).mConns := by
    unfold Pool.takeNamed
    split
    · rw [mConns_withFile]
    · rfl
  refine ⟨fun y hy => ?_, fun t ht => ?_⟩
  · rw [flights_congr hconns] at hy
    rcases mem_flights_setInFlight hy with hy | hy
    · exact hy
    · exact mem_flights.2 ⟨c, mem_of_mem_eraseP hy⟩
  · rwa [tasks_congr hconns, tasks_setInFlight] at ht

/-- An ack: the chunk leaves the list, its range is acked, its bytes are counted. -/
theorem Moves.ack (h : Acct s []) {fileno pos : Nat} (hf : s.files fileno = some f)
    (hin : f.inPool = true) (hcomp : f.mUploadCompletionTime = none)
    (hx : s.named c fileno pos = some x) {event : WsApiServerEvent} (hev : event.confirms = true)
    (now : Nat) : Moves op s ((s.takeNamed c x event).handleNamed x.1 event false now) := by
  obtain ⟨hmem, _, hn⟩ := named_spec hx
  have hfly : x ∈ s.flights := mem_flights.2 ⟨c, hmem⟩
  have hfiles : FilesMove op s.tasks s.flights s (s.takeNamed c x event) :=
    .takeNamed hfly (fun g hg => by rw [hn, hf] at hg; cases hg; exact hin) hev
  obtain ⟨hfl, htk⟩ := takeNamed_subset ..
  have hack : (s.takeNamed c x event).files x.1.fileno = some (ackFile x event f) := by
    rw [takeNamed_confirms s c x hev, files_takeNamed_crcFailed, files_withFile, if_pos rfl, hn, hf,
      Option.map_some]
  generalize s.takeNamed c x event = s₁ at hfiles hfl htk hack
  have hcredit : Moves op s (s₁.creditBytes x.1 now) := by
    unfold Pool.creditBytes
    split
    · exact .drop hfiles hfl htk
    rename_i hlen
    simp only
    have hle := h.credit_le hf hcomp hfly hn (pos_of_ne_zero hlen)
    split
    · rename_i f' hf'
      rw [files_withFile, if_pos rfl, hack, ackFile_eq] at hf'
      cases hf'
      rw [if_neg (by show ¬ f.mBytesConfirmed + x.1.len > f.mSize; omega)]
      refine .drop (hfiles.withFile fun g g' _ _ hc => hc.quiet ?_) ?_ ?_
      · exact .of_eq
      · rwa [flights_congr (mConns_withFile _ _ _)]
      · rwa [tasks_congr (mConns_withFile _ _ _)]
    rename_i hnone
    rw [files_withFile, if_pos rfl, hack] at hnone
    cases hnone
  unfold Pool.handleNamed
  rw [if_neg (by decide)]
  cases event with
  | chunkIngested | finalDataIngested => exact hcredit
  | alreadyOnServer =>
    simp only
    split
    · exact .drop (hfiles.congr rfl) hfl htk
    · exact .drop hfiles hfl htk
  | _ => cases hev

/-- A completion: the MACs of what is in flight are confirmed, and the upload leaves the pool. -/
theorem Moves.complete (hop : op.completes = some n) (hf : s.findFile n = some f) (now : Nat) :
    Moves op s (s.complete n true now) := by
  obtain ⟨hfile, hbound⟩ := findFile_eq_some.1 hf
  have hconns : (s.complete n true now).mConns = (s.applyInFlight n).mConns := by
    unfold Pool.complete
    simp
  have hother : ∀ m, m ≠ n → (s.complete n true now).files m = s.files m := by
    intro m hmn
    unfold Pool.complete
    simp only [if_true]
    rw [files_unsetPool, if_neg hmn, files_withFile, if_neg hmn, files_applyInFlight, if_neg hmn]
  refine .drop ⟨fun m hm => ?_, fun m g hg => ?_⟩ (fun x hx => ?_) fun t ht => ?_
  · rw [hother m fun he => by rw [he, hfile] at hm; cases hm]
    exact hm
  · by_cases hmn : m = n
    · subst hmn
      cases hfile.symm.trans hg
      unfold Pool.complete
      simp only [if_true]
      rw [files_unsetPool, files_withFile, files_applyInFlight, hfile]
      simp only [Option.map_some]
      refine ⟨_, rfl, ?_⟩
      obtain ⟨macs, hmacs⟩ := WsUploadFile.foldl_applyMacs_eq
        (s.flights.filter fun x => x.1.fileno == m) f
      rw [hmacs]
      exact { Change.refl f op m s.tasks s.flights with
        bound := nofun, confirms := .done hop hbound rfl (by rw [hmacs]; rfl) rfl }
    · rw [hother m hmn]
      exact ⟨g, hg, .refl ..⟩
  · rw [flights_congr hconns, flights_applyInFlight] at hx
    exact mem_of_mem_filter hx
  · rwa [tasks_congr hconns, tasks_applyInFlight] at ht

/-! ## 5. Runs without failures -/

/-- No upload has failed, a bound upload has not completed, and every task was taken in the current
    attempt of its upload. -/
structure Steady (s : Pool) : Prop where
  unfailed : ∀ n f, s.files n = some f → f.hasFailed = false
  bound : ∀ n f, s.files n = some f → f.inPool = true → f.mUploadCompletionTime = none
  tasks : ∀ t ∈ s.tasks, t.chunk.len ≠ 0 ∧ ∃ f, s.files t.chunk.fileno = some f ∧
    t.obj = f.obj ∧ t.attempt = f.attempt.number

/-- **Every regular step moves.** -/
theorem moves_exec (h : Acct s []) (hs : Steady s) (hop : op.regular = true) :
    Moves op s (s.exec op) := by
  cases op with
  | newConn =>
    exact .drop (.of_eq rfl) (fun x hx => (flights_newConn ▸ hx :))
      fun t ht => (tasks_newConn ▸ ht :)
  | sendChunk c now budget enginePaused pick => exact .sendChunk now budget enginePaused pick
  | finishRead c outcome now =>
    exact .finishRead (by simpa [Op.regular] using hop) now
  | finishEncrypt c => exact .finishEncrypt
  | onmessage c fileno pos event headerOnly payloadOk now =>
    simp only [Op.regular, Bool.and_eq_true, Bool.or_eq_true, beq_iff_eq, Bool.not_eq_true'] at hop
    obtain ⟨⟨hev, rfl⟩, rfl⟩ := hop
    unfold Pool.exec
    simp only
    unfold Pool.onmessage
    split
    · exact .refl s
    rename_i f hf
    obtain ⟨hfile, hin⟩ := findFile_eq_some.1 hf
    rcases hev with hev | rfl
    · rw [if_neg (by rintro rfl; cases hev), if_pos (by cases event <;> first | rfl | cases hev)]
      split
      · exact .refl s
      · rename_i x hx
        exact .ack h hfile hin (hs.bound _ f hfile hin) hx hev now
    · exact .complete rfl hf now
  | closeWS c => exact .retryChunksOnTheWire
  | setPaused fileno p => exact .withFile fun f => Quiet.change .of_eq
  | setQuotaHeld fileno q =>
    refine .withFile fun f => Quiet.change ?_
    cases q <;> exact .of_eq
  | setRetryUntil fileno when_ => exact .withFile fun f => Quiet.change .of_eq
  | bumpQueueVersion => exact .of_files (.of_eq rfl) rfl
  | _ => cases hop

theorem moves_drain :
    Moves (.drainConfirmedChunkMacs n) s (s.exec (.drainConfirmedChunkMacs n)) := by
  exact .withFile fun f => { Change.refl f (.drainConfirmedChunkMacs n) n s.tasks s.flights with
    confirms := .drained rfl rfl rfl rfl }

theorem Steady.moves (h : Steady s) (hm : Moves op s s') : Steady s' where
  unfailed := by
    intro n f' hf'
    obtain ⟨f, hf, hc⟩ := hm.files.before hf'
    exact hc.failed (h.unfailed n f hf)
  bound := by
    intro n f' hf'
    obtain ⟨f, hf, hc⟩ := hm.files.before hf'
    exact hc.bound (h.bound n f hf)
  tasks := by
    have hkeep : ∀ t ∈ s.tasks, t.chunk.len ≠ 0 ∧ ∃ f', s'.files t.chunk.fileno = some f' ∧
        t.obj = f'.obj ∧ t.attempt = f'.attempt.number := by
      intro t ht
      obtain ⟨hlen, f, hf, ho, ha⟩ := h.tasks t ht
      obtain ⟨f', hf', hc⟩ := hm.files.2 _ f hf
      obtain ⟨_, _, _, _, hobj, hnum, _⟩ := WsUploadFile.ident_eq hc.ident
      exact ⟨hlen, f', hf', ho.trans hobj.symm, ha.trans hnum.symm⟩
    intro t ht
    rcases hm.tasks t ht with ht | ⟨_, hlen, hfile⟩ | ⟨⟨t₀, ht₀, hchunk, hobj, hatt⟩, _⟩
    · exact hkeep t ht
    · exact ⟨hlen, hfile⟩
    · rw [hchunk, hobj, hatt]
      exact hkeep t₀ ht₀

/-- No upload has failed, so fresh chunks come from uploads that are started. -/
theorem Steady.freshFromStarted (h : Steady s) (hop : op.regular = true) :
    FreshFromStarted op s := by
  cases op with
  | sendChunk c now budget enginePaused pick =>
    show s.reusesFailed now budget enginePaused = false
    unfold reusesFailed
    split
    · cases enginePaused with
      | true => rfl
      | false =>
        split
        · rename_i m hm
          obtain ⟨_, f, hf, _⟩ := canReuse_spec hm
          rw [hf]
          exact h.unfailed m f hf
        · rfl
    · rfl
  | _ => trivial

/-- A worker that comes back finds the attempt in which it took its chunk. -/
theorem Steady.sameAttempt (h : Steady s) : s.sameAttempt c = true := by
  unfold Pool.sameAttempt
  split
  · rfl
  rename_i t ht
  split
  · rfl
  rename_i f hf
  obtain ⟨_, g, hg, ho, ha⟩ := h.tasks t (mem_tasks.2 ⟨c, ht⟩)
  cases (findFile_eq_some.1 hf).1.symm.trans hg
  simp [ho, ha]

theorem Steady.oneAttempt (h : Steady s) (hop : op.regular = true) : OneAttempt op s := by
  cases op with
  | finishRead _ _ _ | finishEncrypt _ => exact h.sameAttempt
  | markFailed _ _ _ | clearSessionUrlHintAndRestart _ _ => cases hop
  | _ => trivial

end Pool

end MegaSdk.Ws
