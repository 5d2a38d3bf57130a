/-
  File:      MegaSdk/Fuse/InodeCache.lean
  Subject:   THE END OF THE CACHE'S CLEANER (inode_cache.cpp).

  The cleaner tests `mTerminate` under `mLock` and then waits; the destructor stores `mTerminate` and
  notifies without the lock. What `reduce` evicts is not modelled: it returns in every case, and is
  part of the step in which the cleaner goes on after a wait.

  * **`destructor_returns_iff`** -- the destructor returns unless it notifies between the cleaner's
    test and its wait.
-/
import Mathlib

namespace MegaSdk.Fuse.InodeCache

/-! ## 1. The code -/

/-- Where the cleaner is in `loop`. -/
inductive Cleaner
  /-- At the head of the loop, without `mLock`. -/
  | head
  /-- Behind the test of `mTerminate` and before `wait_for`, with `mLock`. -/
  | tested
  /-- In `wait_for`, with the seconds that are left of the interval. -/
  | waits (left : Nat)
  /-- Notified, timed out or woken without a reason, and without `mLock` yet. -/
  | woken
  | stopped
deriving DecidableEq

/-- What the destructor has done. -/
inductive Destructor
  | uncalled
  | stored
  /-- It has notified and is in `mThread.join`. -/
  | joins
  | returned
deriving DecidableEq

structure State where
  mCleanInterval : Nat
  mTerminate : Bool := false
  cleaner : Cleaner := .head
  destructor : Destructor := .uncalled

inductive Event
  /-- The next step of the cleaner. -/
  | cleaner
  | wake
  | elapse (seconds : Nat)
  | flags (interval : Nat)
  /-- The next step of the destructor. -/
  | destroy
deriving DecidableEq

namespace State

def never : Nat := 2 ^ 63 - 1

variable (s : State)

def loop : State :=
  match s.cleaner with
  | .head => { s with cleaner := if s.mTerminate then .stopped else .tested }
  | .tested => { s with cleaner := .waits s.mCleanInterval }
  | .woken => { s with cleaner := .head }
  | .waits _ | .stopped => s

/-- `mCV.notify_one`, or a wake-up without it. -/
def notifyOne : State :=
  match s.cleaner with
  | .waits _ => { s with cleaner := .woken }
  | _ => s

def elapse (seconds : Nat) : State :=
  match s.cleaner with
  | .waits left =>
    { s with cleaner := if left ≤ seconds then .woken else .waits (left - seconds) }
  | _ => s

def flags (interval : Nat) : State :=
  { s with mCleanInterval := if interval = 0 then never else interval }.notifyOne

def destroy : State :=
  match s.destructor with
  | .uncalled => { s with mTerminate := true, destructor := .stored }
  | .stored => { s.notifyOne with destructor := .joins }
  | .joins => if s.cleaner = .stopped then { s with destructor := .returned } else s
  | .returned => s

/-- `flags` waits for `mLock`, and nobody calls it once the cache is being destroyed. -/
def step : Event → State
  | .cleaner => s.loop
  | .wake => s.notifyOne
  | .elapse seconds => s.elapse seconds
  | .flags interval =>
    if s.destructor = .uncalled ∧ s.cleaner ≠ .tested then s.flags interval else s
  | .destroy => s.destroy

end State

def run (interval : Nat) (es : List Event) : State :=
  es.foldl State.step { mCleanInterval := interval }

/-! ## 2. The cleaner stops -/

open State

/-- The destructor joins a cleaner that stops after `n` of its steps. -/
structure Told (n : Nat) (s : State) : Prop where
  terminate : s.mTerminate = true
  joins : s.destructor = .joins ∨ s.destructor = .returned
  cleaner : s.cleaner = .stopped ∨ s.cleaner = .head ∧ 1 ≤ n ∨ s.cleaner = .woken ∧ 2 ≤ n

theorem Told.step {n : Nat} {s : State} (h : Told n s) (e : Event) :
    Told (n - if e = .cleaner then 1 else 0) (s.step e) := by
  obtain ⟨ht, hj, hc⟩ := h
  cases e with
  | cleaner =>
    rcases hc with hc | ⟨hc, hn⟩ | ⟨hc, hn⟩ <;> constructor <;> simp [State.step, loop, *]
    omega
  | wake | elapse | flags | destroy =>
    rcases hc with hc | ⟨hc, hn⟩ | ⟨hc, hn⟩ <;> rcases hj with hj | hj <;> constructor <;>
      simp [State.step, notifyOne, State.elapse, State.destroy, *]

theorem Told.run {n : Nat} {s : State} (h : Told n s) (es : List Event) :
    Told (n - es.count .cleaner) (es.foldl State.step s) := by
  induction es generalizing n s with
  | nil => exact h
  | cons e es ih => simpa [List.count_cons, Nat.sub_sub, Nat.add_comm] using ih (h.step e)

theorem Told.destroy_returns {s : State} (h : Told 0 s) : s.destroy.destructor = .returned := by
  have hc : s.cleaner = .stopped := by simpa using h.cleaner
  rcases h.joins with hj | hj <;> simp [State.destroy, hj, hc]

theorem terminate_of_run (interval : Nat) (es : List Event) :
    (run interval es).destructor ≠ .uncalled → (run interval es).mTerminate = true := by
  refine es.foldlRecOn (motive := fun s : State => s.destructor ≠ .uncalled → s.mTerminate = true)
    _ (by simp) fun s h e _ => ?_
  cases e with
  | cleaner | wake | elapse | flags | destroy =>
    cases hc : s.cleaner <;> cases hd : s.destructor <;>
      simp_all [State.step, loop, notifyOne, State.elapse, State.flags, State.destroy]

/-- **However the cleaner, calls of `flags` and the destructor have interleaved, two more steps of
the cleaner let the destructor return, with no wait, unless the destructor's notification comes
between the cleaner's test and its wait.** -/
theorem destructor_returns_iff (interval : Nat) (es : List Event)
    (h : (run interval es).destructor = .stored) :
    (∀ es' : List Event, 2 ≤ es'.count .cleaner →
        (run interval (es ++ .destroy :: es' ++ [.destroy])).destructor = .returned) ↔
      (run interval es).cleaner ≠ .tested := by
  have ht := terminate_of_run interval es (by simp [h])
  have hrun es' : run interval (es ++ .destroy :: es' ++ [.destroy]) =
      (es'.foldl State.step (run interval es).destroy).destroy := by simp [run, State.step]
  simp only [hrun]
  generalize run interval es = s at h ht
  constructor
  · intro hall hc
    simpa [State.step, State.destroy, loop, notifyOne, h, hc] using
      hall [.cleaner, .cleaner] (by simp)
  · intro hc es' h2
    have hs : Told 2 s.destroy := by
      constructor <;> cases hc' : s.cleaner <;> simp_all [State.destroy, notifyOne]
    have hr := hs.run es'
    rw [Nat.sub_eq_zero_of_le h2] at hr
    exact hr.destroy_returns

/-- The destructor waits with the cleaner, here for nearly the five minutes of the default. -/
theorem destructor_waits :
    (run 300 [.cleaner, .destroy, .destroy, .cleaner, .elapse 299, .cleaner, .cleaner,
      .destroy]).destructor = .joins := by
  decide

theorem destructor_returns_waiting :
    (run 300 [.cleaner, .cleaner, .destroy]).destructor = .stored ∧
      ((∀ es' : List Event, 2 ≤ es'.count .cleaner →
          (run 300 ([.cleaner, .cleaner, .destroy] ++ .destroy :: es' ++ [.destroy])).destructor =
            .returned) ↔
        (run 300 [.cleaner, .cleaner, .destroy]).cleaner ≠ .tested) :=
  ⟨by decide, destructor_returns_iff 300 _ (by decide)⟩

end MegaSdk.Fuse.InodeCache
