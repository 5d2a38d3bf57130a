/-
  File:      MegaSdk/Http/Gencash.lean
  Subject:   THE CANCELLATION OF `gencash` (hashcash.cpp).

  The coordinator waits for a winner, for the cancel epoch or for the deadline. A winner is stored
  under `winnerMx`, but the epoch is bumped elsewhere, and a worker that sees it notifies without
  the mutex: the last notification may come between the coordinator's test and its sleep.

  * `lastSignal` -- where the coordinator was when it was last notified or woken;
  * **`cancelled_iff`** -- when the workers have ended, a cancelled `gencash` goes on to return an
    empty string unless that was between its test and its sleep.
-/
import Mathlib

namespace MegaSdk.Hashcash

open Function

/-! ## 1. The code -/

inductive Worker
  /-- In the loop of `gencashWorker`. -/
  | hashing
  /-- With a nonce, before it locks `winnerMx`. -/
  | won
  /-- Before it looks at the epoch; `shouldNotify` if its nonce is the winner. -/
  | left (shouldNotify : Bool)
  /-- Before `stop.store` and `cv.notify_all`. -/
  | notifies
  | ended
deriving DecidableEq

inductive Coordinator
  /-- Before a look at the predicate of `cv.wait_until`. -/
  | tests
  /-- The predicate was false; with `winnerMx`, before the sleep. -/
  | tested
  | asleep
  | joins (cancelTriggered : Bool)
  | returned (empty : Bool)
deriving DecidableEq

structure State (T : Type) where
  triggered : Bool := false
  stop : Bool := false
  winner : Bool := false
  workers : T → Worker := fun _ => .hashing
  coordinator : Coordinator := .tests

inductive Event (T : Type)
  | coordinator
  /-- The next step of a worker; `found` if the hash that ends is small enough. -/
  | worker (t : T) (found : Bool)
  /-- The epoch is bumped while `gencash` runs. -/
  | cancel
  /-- The coordinator wakes without a reason. -/
  | wake
  | deadline

variable {T : Type} [DecidableEq T]

namespace State

variable (s : State T)

def leaveWait : State T :=
  { s with stop := s.stop || !s.winner || s.triggered, coordinator := .joins s.triggered }

def gencash [Fintype T] : State T :=
  match s.coordinator with
  | .tests => if s.winner || s.triggered then s.leaveWait else { s with coordinator := .tested }
  | .tested => { s with coordinator := .asleep }
  | .asleep | .returned _ => s
  | .joins cancelTriggered =>
    if ∀ t, s.workers t = .ended then
      { s with coordinator := .returned (!s.winner || cancelTriggered || s.triggered) }
    else s

/-- Both looks of a round at `stop` and the epoch may be made before they change, so a worker may win
at any time. -/
def gencashWorker (t : T) (found : Bool) : State T :=
  match s.workers t with
  | .hashing =>
    if found then { s with stop := true, workers := update s.workers t .won }
    else if s.stop || s.triggered then { s with workers := update s.workers t (.left false) }
    else s
  | .won =>
    if s.coordinator = .tested then s
    else { s with winner := true, workers := update s.workers t (.left !s.winner) }
  | .left shouldNotify =>
    { s with
      workers := update s.workers t (if shouldNotify || s.triggered then .notifies else .ended) }
  | .notifies =>
    { s with
      stop := true, workers := update s.workers t .ended
      coordinator := if s.coordinator = .asleep then .tests else s.coordinator }
  | .ended => s

def step [Fintype T] : Event T → State T
  | .coordinator => s.gencash
  | .worker t found => s.gencashWorker t found
  | .cancel =>
    match s.coordinator with
    | .returned _ => s
    | _ => { s with triggered := true }
  | .wake => if s.coordinator = .asleep then { s with coordinator := .tests } else s
  | .deadline => if s.coordinator = .asleep then s.leaveWait else s

end State

def run [Fintype T] (es : List (Event T)) : State T := es.foldl (·.step ·) {}

/-! ## 2. A cancelled computation -/

open State

/-- What was cancelled before it returned has returned nothing. -/
theorem empty_of_run [Fintype T] (es : List (Event T)) :
    (run es).triggered = true → (run es).coordinator ≠ .returned false := by
  refine es.foldlRecOn (motive := fun s : State T =>
    s.triggered = true → s.coordinator ≠ .returned false) _ nofun fun s h e _ => ?_
  cases e with
  | coordinator | cancel | wake | deadline =>
    cases hc : s.coordinator <;> simp_all [State.step, gencash, leaveWait] <;> split <;> simp_all
  | worker t found =>
    dsimp only [State.step, gencashWorker]
    (repeat' split) <;> simp_all

/-- When the epoch has been bumped and the workers have ended, three steps of the coordinator return an
empty string, with no wait, unless it sleeps or is about to. -/
theorem returned_iff [Fintype T] (es : List (Event T)) (hc : (run es).triggered = true)
    (hw : ∀ t, (run es).workers t = .ended) :
    (run (es ++ List.replicate 3 .coordinator)).coordinator = .returned true ↔
      (run es).coordinator ≠ .tested ∧ (run es).coordinator ≠ .asleep := by
  have hne := empty_of_run es hc
  have hrun : run (es ++ List.replicate 3 .coordinator) = (run es).gencash.gencash.gencash := by
    simp [run, List.replicate, State.step]
  rw [hrun]
  generalize run es = s at hc hw hne
  obtain ⟨_, stop, winner, workers, coordinator⟩ := s
  subst hc
  replace hw : ∀ t, workers t = .ended := hw
  cases coordinator with
  | tests | tested | asleep | joins => simp [gencash, leaveWait, hw]
  | returned empty =>
    cases empty with
    | false => exact absurd rfl hne
    | true => simp [gencash]

/-! ## 3. The last signal -/

/-- The step notifies or wakes the coordinator; a notification counts wherever the coordinator is. -/
def signals (s : State T) : Event T → Bool
  | .worker t _ => s.workers t = .notifies
  | .wake | .deadline => s.coordinator = .asleep
  | .coordinator | .cancel => false

/-- A step, and where the coordinator was at the last signal. -/
def track [Fintype T] (p : State T × Option Coordinator) (e : Event T) :
    State T × Option Coordinator :=
  (p.1.step e, if signals p.1 e then some p.1.coordinator else p.2)

def lastSignal [Fintype T] (es : List (Event T)) : Option Coordinator :=
  (es.foldl track ({}, none)).2

theorem track_fst [Fintype T] (es : List (Event T)) : (es.foldl track ({}, none)).1 = run es :=
  (List.foldl_hom Prod.fst fun _ _ => rfl).symm

/-- No worker has begun to leave its loop. -/
def AllHashing (s : State T) : Prop := s.stop = false ∧ ∀ t, s.workers t = .hashing

/-- Workers leave their loop for a reason. -/
def Caused (s : State T) : Prop :=
  s.winner = true ∨ s.triggered = true ∨ (∃ t, s.workers t = .won) ∨ AllHashing s

/-- A worker is going to notify the coordinator, or nothing has happened yet that it has to know. -/
def Pending (s : State T) : Prop :=
  (∃ t, s.workers t = .notifies ∨ s.workers t = .left true) ∨
  (s.winner = false ∧ ∃ t, s.workers t = .won) ∨
  (s.triggered = true ∧ ∃ t, s.workers t ≠ .ended) ∨
  (s.winner = false ∧ s.triggered = false ∧ AllHashing s)

structure Waiting (s : State T) (last : Option Coordinator) : Prop where
  caused : s.coordinator = .tests ∨ s.coordinator = .tested ∨ s.coordinator = .asleep → Caused s
  /-- A coordinator behind its test has missed the last signal, or there is one to come. -/
  pending : s.coordinator = .tested ∨ s.coordinator = .asleep → last = some .tested ∨ Pending s
  missed : last = some .tested → s.coordinator = .tested ∨ s.coordinator = .asleep

theorem exists_update {P : Worker → Prop} {f : T → Worker} {t : T} {w : Worker}
    (h : ∃ u, P (f u)) (ht : P (f t) → P w) : ∃ u, P (update f t w u) := by
  obtain ⟨u, hu⟩ := h
  by_cases he : u = t
  · exact ⟨t, by simpa using ht (he ▸ hu)⟩
  · exact ⟨u, by rwa [update_of_ne he]⟩

section

variable {s : State T} {t : T} {w : Worker} {c : Coordinator} {stop : Bool}

theorem Caused.move (h : Caused s) (ht : s.workers t = .won → w = .won)
    (hq : AllHashing s → s.triggered = true ∨ w = .won) :
    Caused { s with stop := stop, workers := update s.workers t w, coordinator := c } := by
  rcases h with h | h | h | h
  · exact .inl h
  · exact .inr (.inl h)
  · exact .inr (.inr (.inl (exists_update (P := (· = .won)) h ht)))
  · exact (hq h).elim (fun hc => .inr (.inl hc)) fun hw => .inr (.inr (.inl ⟨t, by simp [hw]⟩))

theorem Pending.move (h : Pending s)
    (ht : s.workers t = .notifies ∨ s.workers t = .left true → w = .notifies ∨ w = .left true)
    (hwon : s.winner = false → s.workers t = .won → w = .won)
    (hend : s.triggered = true → s.workers t ≠ .ended → w ≠ .ended)
    (hq : s.triggered = false → AllHashing s → w = .won) :
    Pending { s with stop := stop, workers := update s.workers t w, coordinator := c } := by
  rcases h with h | ⟨hw, h⟩ | ⟨hc, h⟩ | ⟨hw, hc, h⟩
  · exact .inl (exists_update (P := fun w => w = .notifies ∨ w = .left true) h ht)
  · exact .inr (.inl ⟨hw, exists_update (P := (· = .won)) h (hwon hw)⟩)
  · exact .inr (.inr (.inl ⟨hc, exists_update (P := (· ≠ .ended)) h (hend hc)⟩))
  · exact .inr (.inl ⟨hw, t, by simp [hq hc h]⟩)

end

/-- Where the worker is decides whom the others have to wait for. -/
theorem waiting_worker {s : State T} {l : Option Coordinator} (h : Waiting s l) (t : T)
    (found : Bool) : Waiting (s.gencashWorker t found)
      (if s.workers t = .notifies then some s.coordinator else l) := by
  have hall : AllHashing s → s.workers t = .hashing := fun h => h.2 t
  unfold gencashWorker
  cases hs : s.workers t with
  | hashing =>
    simp only [reduceCtorEq, if_false]
    split_ifs with hf hleave
    · refine ⟨fun hc => (h.caused hc).move (by simp) (by simp), fun hc => ?_, h.missed⟩
      exact (h.pending hc).imp_right fun hp => hp.move (by simp [hs]) (by simp) (by simp) (by simp)
    · have hq : AllHashing s → s.triggered = true := fun h => by simpa [h.1] using hleave
      refine ⟨fun hc => (h.caused hc).move (by simp [hs]) (by simp_all), fun hc => ?_, h.missed⟩
      exact (h.pending hc).imp_right fun hp => hp.move (by simp [hs]) (by simp [hs]) (by simp)
        fun hno hall => absurd (hq hall) (by simp [hno])
    · exact h
  | won =>
    simp only [reduceCtorEq, if_false]
    split_ifs with htested
    · exact h
    refine ⟨fun _ => .inl rfl, fun hc => ?_, h.missed⟩
    cases hw : s.winner with
    | false => exact .inr (.inl ⟨t, by simp⟩)
    | true =>
      refine (h.pending hc).imp_right fun hp => ?_
      have hleft : Pending { s with workers := update s.workers t (.left false) } :=
        hp.move (by simp [hs]) (by simp [hw]) (by simp) (by simp_all)
      simpa [hw] using hleft
  | left b =>
    simp only [reduceCtorEq, if_false]
    refine ⟨fun hc => (h.caused hc).move (by simp [hs]) (by simp_all), fun hc => ?_, h.missed⟩
    refine (h.pending hc).imp_right fun hp => hp.move ?_ (by simp [hs]) ?_ (by simp_all)
    · rintro (ht | ht) <;> simp_all
    · intro ht
      simp [ht]
  | notifies =>
    refine ⟨fun hc => ?_, fun hc => .inl ?_, fun hl => ?_⟩
    · refine (h.caused ?_).move (by simp [hs]) (by simp_all)
      cases hco : s.coordinator <;> simp_all
    · cases hco : s.coordinator <;> simp_all
    · simp_all
  | ended => exact h

theorem waiting_track [Fintype T] [Nonempty T] {p : State T × Option Coordinator}
    (h : Waiting p.1 p.2) (e : Event T) : Waiting (track p e).1 (track p e).2 := by
  obtain ⟨s, l⟩ := p
  have hmissed : s.coordinator ≠ .tested → s.coordinator ≠ .asleep → l ≠ some .tested :=
    fun h1 h2 hl => (h.missed hl).elim h1 h2
  cases e with
  | worker t found => simpa [track, signals, State.step] using waiting_worker h t found
  | coordinator =>
    simp only [track, signals, State.step, gencash]
    cases hs : s.coordinator with
    | tests =>
      have hl : l ≠ some .tested := hmissed (by simp [hs]) (by simp [hs])
      simp only
      split
      · exact ⟨by simp [leaveWait], by simp [leaveWait], fun h => absurd h hl⟩
      · rename_i hno
        simp only [Bool.or_eq_true, not_or, Bool.not_eq_true] at hno
        have hcaused := h.caused (.inl hs)
        refine ⟨fun _ => hcaused, fun _ => .inr ?_, fun h => absurd h hl⟩
        rcases hcaused with hw | hc | hwon | hq
        · simp [hno.1] at hw
        · simp [hno.2] at hc
        · exact .inr (.inl ⟨hno.1, hwon⟩)
        · exact .inr (.inr (.inr ⟨hno.1, hno.2, hq⟩))
    | tested =>
      exact ⟨fun _ => h.caused (by simp [hs]), fun _ => h.pending (by simp [hs]), fun _ => .inr rfl⟩
    | asleep | returned => exact h
    | joins c =>
      have hl : l ≠ some .tested := hmissed (by simp [hs]) (by simp [hs])
      simp only
      split
      · exact ⟨by simp, by simp, fun h => absurd h hl⟩
      · exact h
  | cancel =>
    simp only [track, signals, State.step]
    split
    · exact h
    refine ⟨fun _ => .inr (.inl rfl), fun hc => (h.pending hc).imp_right fun hp => ?_, h.missed⟩
    rcases hp with hp | hp | ⟨-, hp⟩ | ⟨-, -, hp⟩
    · exact .inl hp
    · exact .inr (.inl hp)
    · exact .inr (.inr (.inl ⟨rfl, hp⟩))
    · -- there is a worker, and it has not ended
      obtain ⟨t⟩ := ‹Nonempty T›
      exact .inr (.inr (.inl ⟨rfl, t, by simp [show s.workers t = .hashing from hp.2 t]⟩))
  | wake =>
    by_cases hs : s.coordinator = .asleep
    · simp only [track, signals, State.step, hs]
      exact ⟨fun _ => h.caused (by simp [hs]), by simp, by simp⟩
    · simpa [track, signals, State.step, hs] using h
  | deadline =>
    by_cases hs : s.coordinator = .asleep
    · simp only [track, signals, State.step, hs]
      exact ⟨by simp [leaveWait], by simp [leaveWait], by simp⟩
    · simpa [track, signals, State.step, hs] using h

/-- **When the epoch has been bumped and the last hash computation has ended, three steps of the
coordinator return an empty string, with no wait, unless the last signal was given between its test
and its sleep.** -/
theorem cancelled_iff [Fintype T] [Nonempty T] (es : List (Event T))
    (hc : (run es).triggered = true) (hw : ∀ t, (run es).workers t = .ended) :
    (run (es ++ List.replicate 3 .coordinator)).coordinator = .returned true ↔
      lastSignal es ≠ some .tested := by
  have h : Waiting (run es) (lastSignal es) := by
    rw [← track_fst, lastSignal]
    exact es.foldlRecOn (motive := fun p : State T × Option Coordinator => Waiting p.1 p.2) _
      ⟨fun _ => .inr (.inr (.inr ⟨rfl, fun _ => rfl⟩)), nofun, nofun⟩ fun p hp e _ =>
        waiting_track hp e
  rw [returned_iff es hc hw, ← not_or, not_iff_not]
  refine ⟨fun hwait => (h.pending hwait).resolve_right fun hp => ?_, h.missed⟩
  -- all workers have ended, so nobody is left to notify
  simp [Pending, hw, hc] at hp

/-- One worker: the epoch is bumped behind the coordinator's test, the worker sees it, notifies nobody
and ends, and the coordinator falls asleep. -/
theorem cancelled_asleep : (run (T := Unit) ([.coordinator, .cancel, .worker () false,
    .worker () false, .worker () false] ++ List.replicate 3 .coordinator)).coordinator =
      .asleep := by
  decide

/-- Two workers: the first notifies behind the coordinator's test, the second when it sleeps. -/
theorem cancelled_awake :
    let es : List (Event Bool) := [.coordinator, .cancel, .worker false false, .worker false false,
      .worker false false, .coordinator, .worker true false, .worker true false, .worker true false]
    lastSignal es = some .asleep ∧
      (run (es ++ List.replicate 3 .coordinator)).coordinator = .returned true :=
  ⟨by decide, (cancelled_iff _ (by decide) (by decide)).2 (by decide)⟩

end MegaSdk.Hashcash
