/-
  File:      MegaSdk/Ws/Billing.lean
  Subject:   WHO PAYS FOR A CHUNK THAT IS NOT SENT (ws_pool.cpp, `WsPool::sendChunk`).

  With a cap set, `nextChunk` charges the bytes of the chunk it takes to the upload budget. On its
  way to the connection the chunk can be dropped or queued again, at nine exits of `sendChunk`; its
  bytes are then refunded, or every pool waits for them.

  * `Bill`, `billOf` -- how often the step put such a chunk in flight and refunded it, read off the
    pool before and after it;
  * `unread` -- the exit without a refund: the chunk was not read, and its upload is not found;
  * **`settled_iff`** -- in a run every chunk that was charged is put in flight or refunded once,
    exactly if no call of it ends there.
-/
import MegaSdk.Ws.Places

namespace MegaSdk.Ws

open Base List

/-- What became of a chunk that left a worker's hands: how often it was put in flight, and how often
    its bytes were refunded. -/
structure Bill where
  chunk : WsChunk
  inFlight : Nat
  refunds : Nat
deriving DecidableEq

def Bill.Settled (b : Bill) : Prop := b.inFlight + b.refunds = 1

instance (b : Bill) : Decidable b.Settled := inferInstanceAs (Decidable (_ = _))

namespace Pool

variable (s s' : Pool)

/-! ## 1. Charges and bills -/

def inHands : List WsChunk := s.tasks.map (·.chunk)

/-- The chunks that were in a worker's hands, or were charged in the step from `s` to `s'`, and are
    in nobody's hands after it. -/
def letGo : List WsChunk := (s.inHands ++ s'.consumed.drop s.consumed.length).diff s'.inHands

/-- What the step did to a chunk. -/
def billOf (x : WsChunk) : Bill where
  chunk := x
  inFlight := s'.flights.countP (·.1 = x) - s.flights.countP (·.1 = x)
  refunds := s'.refunded.count x - s.refunded.count x

def bills : List Op → Pool → List Bill
  | [], _ => []
  | op :: ops, s => (s.letGo (s.exec op)).map (s.billOf (s.exec op)) ++ bills ops (s.exec op)

/-- The call returns with a chunk that it could not read, and the upload is not found. -/
def unread : Op → Bool
  | .sendChunk c now budget enginePaused pick =>
    let (s₁, chunk) := s.nextChunk now budget enginePaused pick
    decide (c < s.mConns.length ∧ (s.conn c).worker.isNone) &&
      chunk.any fun x => x.len != 0 && (s₁.findFile x.fileno).isNone
  | .finishRead c outcome _ =>
    (s.conn c).worker.any fun t => t.phase == .reading && (outcome != .ok || !s.sameWork t) &&
      (s.findFile t.chunk.fileno).isNone
  | _ => false

variable {s s'} {c n : Nat} (now : Nat) (x : WsChunk) {t : Task} {new out l : List WsChunk}

/-! ## 2. Who touches the workers' hands and the budget -/

theorem consumed_withFile (s : Pool) (n) (g) : (s.withFile n g).consumed = s.consumed := by
  unfold withFile
  split <;> rfl

theorem refunded_withFile (s : Pool) (n) (g) : (s.withFile n g).refunded = s.refunded := by
  unfold withFile
  split <;> rfl

/-- The workers' hands are as before, and nothing is charged. -/
structure SameHands (s s' : Pool) : Prop where
  tasks : s'.tasks = s.tasks
  consumed : s'.consumed = s.consumed

namespace SameHands

theorem refl (s) : SameHands s s := ⟨rfl, rfl⟩

variable (h : SameHands s s')
include h

theorem congr {s₁ : Pool} (ht : s₁.mConns = s'.mConns) (hc : s₁.consumed = s'.consumed) :
    SameHands s s₁ := ⟨(tasks_congr ht).trans h.tasks, hc.trans h.consumed⟩

theorem withFile (n) (g) : SameHands s (s'.withFile n g) :=
  h.congr (mConns_withFile _ _ _) (consumed_withFile s' n g)

theorem unsetPool (n) : SameHands s (s'.unsetPool n) :=
  (h.withFile n fun f => { f with inPool := false }).congr rfl rfl

theorem purgeFile (n) : SameHands s (s'.purgeFile n) :=
  ⟨tasks_purgeFile.trans h.tasks, h.consumed⟩

theorem uploadFailed (n now) : SameHands s (s'.uploadFailed n now) :=
  (h.withFile n (·.markFailed now)).unsetPool n

theorem failFile (n now) : SameHands s (s'.failFile n now) := (h.purgeFile n).uploadFailed n now

theorem putInFlight (c) (x) (macs : ChunkmacMap) : SameHands s (s'.putInFlight c x macs) :=
  ⟨(tasks_putInFlight x macs).trans h.tasks, (consumed_withFile ..).trans h.consumed⟩

theorem takeNamed (c) (x) (event : WsApiServerEvent) : SameHands s (s'.takeNamed c x event) := by
  refine ⟨(tasks_takeNamed event x).trans h.tasks, Eq.trans ?_ h.consumed⟩
  unfold Pool.takeNamed
  split
  · exact consumed_withFile ..
  · rfl

theorem creditBytes (x now) : SameHands s (s'.creditBytes x now) := by
  unfold Pool.creditBytes
  split
  · exact h
  simp only
  split
  · split
    · exact (h.withFile ..).failFile ..
    · exact h.withFile ..
  · exact h.withFile ..

theorem retryChunk (x now) : SameHands s (s'.retryChunk x now) := by
  unfold Pool.retryChunk
  simp only
  split
  · split
    · exact (h.purgeFile _).uploadFailed ..
    · exact h.purgeFile _
  · exact h.congr rfl rfl

theorem handleNamed (x) (event : WsApiServerEvent) (headerOnly : Bool) (now) :
    SameHands s (s'.handleNamed x event headerOnly now) := by
  unfold Pool.handleNamed
  split
  · exact h.failFile ..
  split
  · exact h.creditBytes x now
  · exact h.creditBytes x now
  · split
    · exact h.congr rfl rfl
    · exact h
  · exact h.retryChunk x now
  · exact h

theorem complete (n) (payloadOk : Bool) (now) : SameHands s (s'.complete n payloadOk now) := by
  have happly : SameHands s (s'.applyInFlight n) :=
    ⟨tasks_purgeFile.trans h.tasks, (h.withFile n _).consumed⟩
  unfold Pool.complete
  split
  · exact (happly.withFile ..).unsetPool n
  · exact happly.failFile n now

theorem onmessage (c n pos : Nat) (event : WsApiServerEvent) (headerOnly payloadOk : Bool) (now) :
    SameHands s (s'.onmessage c n pos event headerOnly payloadOk now) := by
  unfold Pool.onmessage
  split
  · exact h
  split
  · exact h.failFile n now
  split
  · split
    · exact h
    · exact (h.takeNamed c _ event).handleNamed ..
  split
  · exact h.failFile n now
  split
  · exact h.complete n payloadOk now
  · exact h

end SameHands

def Op.ofWorker : Op → Bool
  | .sendChunk .. | .finishRead .. | .finishEncrypt _ => true
  | _ => false

theorem sameHands_exec {op : Op} (h : Op.ofWorker op = false) : SameHands s (s.exec op) := by
  have hs := SameHands.refl s
  cases op with
  | sendChunk | finishRead | finishEncrypt => cases h
  | newConn => exact ⟨tasks_newConn, rfl⟩
  | onmessage => exact hs.onmessage ..
  | closeWS => exact ⟨tasks_retryChunksOnTheWire, rfl⟩
  | restart n now => exact (((hs.purgeFile n).withFile ..).unsetPool n).congr rfl rfl
  | clearSessionUrlHintAndRestart n pinned =>
    have hset : SameHands s { s.withFile n (·.resetAttemptState) with
        queueVersion := s.queueVersion + 1 } := (hs.withFile n _).congr rfl rfl
    show SameHands s (s.clearSessionUrlHintAndRestart n pinned)
    unfold Pool.clearSessionUrlHintAndRestart
    split
    · exact (hset.purgeFile n).unsetPool n
    · exact hset
  | enqueue n t =>
    show SameHands s (s.enqueue n t)
    unfold Pool.enqueue
    split
    · exact hs
    · exact hs.congr rfl rfl
  | remove n => exact (hs.purgeFile n).congr rfl rfl
  | bumpQueueVersion => exact hs.congr rfl rfl
  | _ => exact hs.withFile ..

/-! ## 3. What a step does to the chunks in the workers' hands -/

/-- The step charges the chunks `new`, and those of `out` leave the workers' hands. -/
structure Hands (s s' : Pool) (new out : List WsChunk) : Prop where
  consumed : s'.consumed = s.consumed ++ new
  paid : ∀ x ∈ new, x.len ≠ 0
  hands : (s.inHands ++ new).Perm (out ++ s'.inHands)

theorem SameHands.hands (h : SameHands s s') : Hands s s' [] [] where
  consumed := by rw [h.consumed, append_nil]
  paid := forall_mem_nil _
  hands := by rw [inHands, inHands, h.tasks, append_nil, nil_append]

theorem Hands.letGo (h : Hands s s' new out) : (s.letGo s').Perm out := by
  have hcount : ∀ x ∈ s'.inHands, s'.inHands.count x ≤ (s.inHands ++ new).count x := by
    intro x _
    rw [h.hands.count_eq, count_append]
    exact Nat.le_add_left ..
  have hdiff := subperm_append_diff_self_of_count_le hcount
  unfold Pool.letGo
  rw [h.consumed, drop_left]
  exact (perm_append_left_iff _).1 ((hdiff.trans h.hands).trans perm_append_comm)

theorem Hands.trans {s₁ : Pool} {new' out' : List WsChunk} (h : Hands s s' new out)
    (h' : Hands s' s₁ new' out') : Hands s s₁ (new ++ new') (out ++ out') where
  consumed := by rw [h'.consumed, h.consumed, append_assoc]
  paid := forall_mem_append.2 ⟨h.paid, h'.paid⟩
  hands := by
    have hstep := h.hands.append_right new'
    have hrest := h'.hands.append_left out
    simp only [append_assoc] at hstep hrest ⊢
    exact hstep.trans hrest

theorem Hands.len_ne_zero (h : Hands s s' new out) (hs : ∀ x ∈ s.inHands, x.len ≠ 0) :
    ∀ x ∈ s'.inHands, x.len ≠ 0 := fun x hx =>
  forall_mem_append.2 ⟨hs, h.paid⟩ x (h.hands.mem_iff.2 (mem_append_right _ hx))

theorem inHands_setWorker (hc : c < s.mConns.length) (w : Option Task) :
    ((s.setWorker c w).inHands ++ (s.conn c).worker.toList.map (·.chunk)).Perm
      (s.inHands ++ w.toList.map (·.chunk)) := by
  rw [perm_iff_count]
  intro x
  have hcount := countP_tasks_setWorker hc w fun t => t.chunk == x
  simp only [inHands, count_eq_countP, countP_append, countP_map]
  exact hcount

theorem Hands.leave (h : (s.conn c).worker = some t) (hs : SameHands (s.setWorker c none) s') :
    Hands s s' [] [t.chunk] where
  consumed := by rw [hs.consumed, append_nil]; rfl
  paid := forall_mem_nil _
  hands := by
    have hperm := inHands_setWorker (worker_lt h) none
    rw [h, Option.toList_none, map_nil, append_nil] at hperm
    rw [append_nil, inHands, inHands, hs.tasks]
    exact hperm.symm.trans perm_append_comm

theorem inHands_giveWorker (hc : c < s.mConns.length) (h : (s.conn c).worker = none)
    (ht : t.chunk = x) : (s.inHands ++ [x]).Perm ([] ++ (s.setWorker c (some t)).inHands) := by
  have hperm := inHands_setWorker hc (some t)
  rw [h, Option.toList_none, map_nil, append_nil] at hperm
  exact ht ▸ hperm.symm

/-! ## 4. What a step settles -/

/-- The step settles every chunk that leaves the workers' hands, or `lost`. -/
def Settles (s s' : Pool) (lost : Bool) : Prop :=
  ∃ new out, Hands s s' new out ∧ ((∀ x ∈ out, (s.billOf s' x).Settled) ↔ lost = false)

theorem SameHands.settles (h : SameHands s s') : Settles s s' false :=
  ⟨[], [], h.hands, by simp⟩

/-- A chunk that is not put in flight is settled if it is refunded. -/
theorem settled_billOf (hfl : s'.flights.Sublist s.flights) (hre : s'.refunded = s.refunded ++ l) :
    (s.billOf s' x).Settled ↔ l.count x = 1 := by
  have hle := hfl.countP_le (p := fun y => decide (y.1 = x))
  unfold Bill.Settled billOf
  rw [hre, count_append]
  simp only
  omega

theorem nextChunk_charges (budget enginePaused : Bool) (pick : Option Nat) :
    (s.nextChunk now budget enginePaused pick).1.consumed = s.consumed ++
        (s.nextChunk now budget enginePaused pick).2.toList.filter (fun x => x.len != 0) ∧
      (s.nextChunk now budget enginePaused pick).1.refunded = s.refunded := by
  have hfresh : ∀ (s : Pool) n, (s.freshChunk n budget).1.consumed = s.consumed ++
      (s.freshChunk n budget).2.toList.filter (fun x => x.len != 0) ∧
        (s.freshChunk n budget).1.refunded = s.refunded := by
    intro s n
    unfold freshChunk
    (repeat' split) <;> simp [setFile, consumeUploadBudget]
  have hget : ∀ s : Pool, (s.getWsUploadFile now pick).1.consumed = s.consumed ∧
      (s.getWsUploadFile now pick).1.refunded = s.refunded := by
    intro s
    unfold getWsUploadFile
    (repeat' split) <;> exact ⟨rfl, rfl⟩
  unfold nextChunk
  split
  · exact ⟨rfl, rfl⟩
  · exact ⟨(append_nil _).symm, rfl⟩
  rename_i rest _
  simp only
  split
  · exact ⟨(append_nil _).symm, rfl⟩
  obtain ⟨hcon, href⟩ := hget { s with mToResend := rest }
  generalize ({ s with mToResend := rest } : Pool).getWsUploadFile now pick = r at hcon href
  obtain ⟨s₁, picked⟩ := r
  cases picked with
  | none => exact ⟨hcon.trans (append_nil _).symm, href⟩
  | some n =>
    refine ⟨(hfresh s₁ n).1.trans ?_, (hfresh s₁ n).2.trans href⟩
    rw [show s₁.consumed = s.consumed from hcon]

theorem settles_sendChunk (budget enginePaused : Bool) (pick : Option Nat) :
    Settles s (s.sendChunk c now budget enginePaused pick)
      (s.unread (.sendChunk c now budget enginePaused pick)) := by
  have hconns := mConns_nextChunk (s := s) now budget enginePaused pick
  have hcharge := nextChunk_charges (s := s) now budget enginePaused pick
  simp only [Pool.sendChunk, unread]
  generalize s.nextChunk now budget enginePaused pick = r at hconns hcharge ⊢
  obtain ⟨s₁, chunk?⟩ := r
  obtain ⟨hcon, href⟩ := hcharge
  replace hconns : s₁.mConns = s.mConns := hconns
  split
  · rename_i hc
    rw [decide_eq_true hc, Bool.true_and]
    cases chunk? with
    | none =>
      exact (SameHands.mk (tasks_congr hconns) (hcon.trans (append_nil _))).settles
    | some x =>
      rw [Option.any_some]
      have hin : s₁.inHands = s.inHands := by rw [inHands, inHands, tasks_congr hconns]
      by_cases hlen : x.len = 0
      · -- the empty chunk costs nothing
        have hsame : SameHands s s₁ := ⟨tasks_congr hconns, by simpa [hlen] using hcon⟩
        rw [hlen]
        refine SameHands.settles ?_
        simp only [hlen, if_true]
        split
        · exact hsame
        split
        · exact hsame.congr rfl rfl
        split
        · exact hsame
        · exact hsame.putInFlight ..
      have hnew : s₁.consumed = s.consumed ++ [x] := by simpa [hlen] using hcon
      have hpaid : ∀ y ∈ [x], y.len ≠ 0 := by simpa using hlen
      have hlost : (x.len != 0) = true := by simpa using hlen
      rw [hlost, Bool.true_and]
      cases hf : s₁.findFile x.fileno with
      | none =>
        simp only [hf]
        refine ⟨[x], [x], ⟨hnew, hpaid, by rw [hin]; exact perm_append_comm⟩, ?_⟩
        have hset : (s.billOf s₁ x).Settled ↔ ([] : List WsChunk).count x = 1 :=
          settled_billOf x (by rw [flights_congr hconns]) (by rw [append_nil]; exact href)
        simp [hset]
      | some f =>
        have hfree : (s₁.conn c).worker = none := by
          rw [conn, hconns]
          exact Option.isNone_iff_eq_none.1 hc.2
        simp only [hf, hlen, if_false]
        refine ⟨[x], [], ⟨hnew, hpaid, ?_⟩, by simp⟩
        rw [← hin]
        exact inHands_giveWorker x (hconns ▸ hc.1) hfree rfl
  · rename_i hc
    rw [decide_eq_false hc, Bool.false_and]
    exact (SameHands.refl s).settles

theorem isNone_findFile_withFile {g : WsUploadFile → WsUploadFile}
    (hg : ∀ f, (g f).inPool = f.inPool) :
    ((s.withFile n g).findFile n).isNone = (s.findFile n).isNone := by
  rw [findFile, findFile, files_withFile, if_pos rfl]
  cases s.files n with
  | none => rfl
  | some f =>
    rw [Option.map_some, Option.filter_some, Option.filter_some, hg]
    cases f.inPool <;> rfl

section

variable (ht : (s.conn c).worker = some t) (hlen : t.chunk.len ≠ 0)
include ht hlen

/-- A worker comes back with a chunk, and it is not put in flight. -/
theorem Settles.leave {lost : Bool} (hs : SameHands (s.setWorker c none) s')
    (hfl : s'.flights.Sublist (s.setWorker c none).flights)
    (hre : s'.refunded = s.refunded ++ (if lost then [] else [t.chunk]).filter fun x => x.len != 0) :
    Settles s s' lost := by
  refine ⟨[], [t.chunk], .leave ht hs, ?_⟩
  rw [flights_setWorker] at hfl
  simp only [mem_singleton, forall_eq, settled_billOf _ hfl hre]
  cases lost <;> simp [hlen]

theorem Settles.afterInterrupt : Settles s ((s.setWorker c none).afterInterrupt t)
    (s.findFile t.chunk.fileno).isNone := by
  unfold Pool.afterInterrupt
  have hfind : (s.setWorker c none).findFile t.chunk.fileno = s.findFile t.chunk.fileno := rfl
  rw [hfind]
  cases s.findFile t.chunk.fileno with
  | none => exact .leave ht hlen (.refl _) (.refl _) (append_nil _).symm
  | some f => exact .leave ht hlen ((SameHands.refl _).congr rfl rfl) (.refl _) rfl

theorem Settles.afterRead : Settles s ((s.setWorker c none).afterRead c t) false := by
  obtain ⟨hlt, hfree⟩ := conn_setWorker_self ht
  have hs := SameHands.refl (s.setWorker c none)
  unfold Pool.afterRead
  split
  · exact .leave ht hlen (hs.congr rfl rfl) (.refl _) rfl
  split
  · exact .leave ht hlen (hs.congr rfl rfl) (.refl _) rfl
  split
  · exact .leave ht hlen (hs.congr rfl rfl) (.refl _) rfl
  · -- the worker goes on with the chunk
    have hout := (Hands.leave ht hs).hands
    refine ⟨[], [], ⟨(append_nil _).symm, forall_mem_nil _, ?_⟩, by simp⟩
    exact (hout.trans perm_append_comm).trans (inHands_giveWorker t.chunk hlt hfree rfl)

/-- The chunk is refunded, and its upload is purged and leaves the pool. -/
theorem Settles.purgeFile {s₁ : Pool} (hs : SameHands (s.setWorker c none) s₁)
    (hfl : s₁.flights = (s.setWorker c none).flights) (hre : s₁.refunded = s.refunded) (n) (g) :
    Settles s ((((s₁.refundUploadBudget [t.chunk]).purgeFile n).withFile n g).unsetPool n) false := by
  replace hs : SameHands (s.setWorker c none) (s₁.refundUploadBudget [t.chunk]) := hs.congr rfl rfl
  refine .leave ht hlen (((hs.purgeFile n).withFile n g).unsetPool n) ?_ ?_
  · rw [flights_congr (mConns_unsetPool _ _), flights_congr (mConns_withFile _ _ _),
      flights_purgeFile, ← hfl]
    exact filter_sublist
  · refine (refunded_withFile ..).trans ((refunded_withFile ..).trans ?_)
    exact congrArg (· ++ [t.chunk].filter fun x => x.len != 0) hre

theorem Settles.afterFailedRead : Settles s ((s.setWorker c none).afterFailedRead t now)
    (s.findFile t.chunk.fileno).isNone := by
  set g : WsUploadFile → WsUploadFile := fun f => if f.obj = t.obj then f.markFailed now else f
  set s₁ := (s.setWorker c none).withFile t.chunk.fileno g with hs₁
  have hmark : (s₁.findFile t.chunk.fileno).isNone = (s.findFile t.chunk.fileno).isNone :=
    isNone_findFile_withFile fun f => by unfold g; split <;> rfl
  have hs : SameHands (s.setWorker c none) s₁ := (SameHands.refl _).withFile ..
  have hre : s₁.refunded = s.refunded := refunded_withFile ..
  have hfl : s₁.flights = (s.setWorker c none).flights := flights_congr (mConns_withFile _ _ _)
  have hpurge := Settles.purgeFile ht hlen hs hfl hre t.chunk.fileno
  rw [← hmark]
  unfold Pool.afterFailedRead
  simp only
  rw [← hs₁]
  cases s₁.findFile t.chunk.fileno with
  | none => exact .leave ht hlen hs (by rw [hfl]) (hre.trans (append_nil _).symm)
  | some f =>
    simp only
    split
    · have hid := hpurge id
      rwa [withFile_id] at hid
    · exact hpurge (·.markFailed now)

theorem Settles.afterEncrypt : Settles s ((s.setWorker c none).afterEncrypt c t) false := by
  have hs := SameHands.refl (s.setWorker c none)
  unfold Pool.afterEncrypt
  split
  · exact .leave ht hlen (hs.congr rfl rfl) (.refl _) rfl
  split
  · exact .leave ht hlen (hs.congr rfl rfl) (.refl _) rfl
  · -- one chunk in flight more
    have hput := countP_flights_putInFlight (conn_setWorker_self ht).1 t.chunk t.macs
      fun y => decide (y.1 = t.chunk)
    have hre : ((s.setWorker c none).putInFlight c t.chunk t.macs).refunded = s.refunded :=
      refunded_withFile ..
    refine ⟨[], [t.chunk], .leave ht (hs.putInFlight ..), ?_⟩
    rw [flights_setWorker] at hput
    simp [Bill.Settled, billOf, hre, hput]

end

theorem settles_exec (h : ∀ x ∈ s.inHands, x.len ≠ 0) (op : Op) :
    Settles s (s.exec op) (s.unread op) := by
  have hloaded : ∀ c t, (s.conn c).worker = some t → t.chunk.len ≠ 0 := fun c t ht =>
    h _ (mem_map_of_mem (mem_tasks.2 ⟨c, ht⟩))
  have hsame := (SameHands.refl s).settles
  cases op with
  | sendChunk c now budget enginePaused pick => exact settles_sendChunk ..
  | finishRead c outcome now =>
    show Settles s (s.finishRead c outcome now) _
    simp only [Pool.finishRead, unread]
    cases ht : (s.conn c).worker with
    | none => exact hsame
    | some t =>
      have hlen := hloaded c t ht
      simp only [Option.any_some]
      cases hp : t.phase with
      | encrypting => exact hsame
      | reading =>
        by_cases hint : outcome = .interrupted ∨ s.sameWork t = false
        · have hnot : (outcome != .ok || !s.sameWork t) = true := by
            rcases hint with rfl | h
            · rfl
            · simp [h]
          simp only [hint, hnot]
          exact .afterInterrupt ht hlen
        rw [if_neg nofun, if_neg hint]
        rw [not_or, Bool.not_eq_false] at hint
        rw [hint.2]
        by_cases hok : outcome = .ok
        · rw [if_pos hok, hok]
          exact .afterRead ht hlen
        · have hnot : (outcome != .ok || !true) = true := by simpa using hok
          rw [if_neg hok, hnot]
          exact .afterFailedRead now ht hlen
  | finishEncrypt c =>
    show Settles s (s.finishEncrypt c) false
    unfold Pool.finishEncrypt
    split
    · exact hsame
    rename_i t ht
    split
    · exact hsame
    · exact .afterEncrypt ht (hloaded c t ht)
  | _ => exact (sameHands_exec rfl).settles

/-! ## 5. Runs -/

/-- **Every chunk that a run charges is in a worker's hands or has its bill**, and the bills are
    settled exactly if no call ends at the last exit. -/
theorem run_settles (ops : List Op) (s) (h : ∀ x ∈ s.inHands, x.len ≠ 0) :
    (∃ new, Hands s (execAll ops s) new ((bills ops s).map (·.chunk))) ∧
      ((∀ b ∈ bills ops s, b.Settled) ↔ AllBy exec (fun op s => s.unread op = false) ops s) := by
  induction ops generalizing s with
  | nil => exact ⟨⟨[], (SameHands.refl s).hands⟩, by simp [bills, AllBy]⟩
  | cons op ops ih =>
    obtain ⟨new, out, hstep, hsettle⟩ := settles_exec h op
    obtain ⟨⟨new', hrun⟩, hiff⟩ := ih (s.exec op) (hstep.len_ne_zero h)
    have hout := hstep.letGo
    have hbilled : ((s.letGo (s.exec op)).map (s.billOf (s.exec op))).map (·.chunk) =
        s.letGo (s.exec op) := by
      rw [map_map]
      exact map_id _
    refine ⟨⟨new ++ new', ?_⟩, ?_⟩
    · rw [bills, map_append, hbilled]
      exact Hands.trans ⟨hstep.consumed, hstep.paid, hstep.hands.trans (hout.symm.append_right _)⟩ hrun
    · rw [bills, AllBy, ← hiff, ← hsettle, forall_mem_append, forall_mem_map]
      simp only [hout.mem_iff]

/-- **Charged chunks.** In every run, whatever the workers, pauses, removals and failures: the chunks
    that were charged are those in the workers' hands and those that have a bill. And every bill is
    settled -- put in flight or refunded, exactly once -- exactly if no call of `sendChunk` ends with
    a chunk that it could not read and whose upload is not found. -/
theorem settled_iff (a d : Bool) (ops : List Op) :
    (execAll ops (fresh a d)).consumed.Perm
        ((bills ops (fresh a d)).map (·.chunk) ++ (execAll ops (fresh a d)).inHands) ∧
      ((∀ b ∈ bills ops (fresh a d), b.Settled) ↔
        AllBy exec (fun op s => s.unread op = false) ops (fresh a d)) := by
  obtain ⟨⟨new, hrun⟩, hiff⟩ := run_settles ops (fresh a d) (forall_mem_nil _)
  have hnew : (execAll ops (fresh a d)).consumed = new := hrun.consumed
  exact ⟨hnew ▸ hrun.hands, hiff⟩

/-- While a worker reads the first chunk the upload is restarted: it leaves the pool, and the read is
    interrupted. -/
def restartedOps : List Op :=
  [.newConn, .enqueue 0 { size := 200000 }, .sendChunk 0 1 true false (some 0), .restart 0 2,
    .finishRead 0 .interrupted 3]

/-- **Its bytes are not refunded.** -/
theorem restarted_not_refunded :
    bills restartedOps (fresh true true) = [⟨{ pos := 0, len := 131072, fileno := 0 }, 0, 0⟩] ∧
      ¬ ∀ b ∈ bills restartedOps (fresh true true), b.Settled := by
  have hbills : bills restartedOps (fresh true true) =
      [⟨{ pos := 0, len := 131072, fileno := 0 }, 0, 0⟩] := by
    decide +kernel
  refine ⟨hbills, fun h => ?_⟩
  exact absurd (h _ (hbills ▸ mem_cons_self)) (by decide)

end Pool

end MegaSdk.Ws
