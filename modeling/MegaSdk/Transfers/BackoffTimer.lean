/-
  File:    MegaSdk/Transfers/BackoffTimer.lean
  Subject: Groups of retry timers (backofftimer.cpp, backofftimer.h): what a group's update makes of
           the time to wait, against the update of every tracked timer in turn.

  * `Group.put` -- every operation of a tracked timer untracks it, changes it and tracks it again;
  * **`update_eq_updateAll_iff`** -- a timer that is not due is not asked when it will be.
-/
import Mathlib

namespace MegaSdk.Timers

open List

/-! ## 1. Timers and groups -/

/-- `dstime`, a time in deciseconds. -/
abbrev Dstime := Int64

def NEVER : Dstime := .maxValue

/-- A `BackoffTimerTracked` with the timeout of its `BackoffTimer`. -/
structure BackoffTimerTracked where
  mIsEnabled : Bool := true
  next : Dstime := 0

namespace BackoffTimerTracked

variable (t : BackoffTimerTracked) (ds : Dstime)

/-- The key under which the tracker holds the timer, if it does. -/
def key : Option Dstime :=
  if t.mIsEnabled && t.next != 0 && t.next != NEVER then some t.next else none

def armed : Bool := t.next ≤ 1 || t.next ≤ ds

def set (newds : Dstime) : BackoffTimerTracked :=
  if newds < t.next then { t with next := newds } else t

def update (waituntil : Dstime) : BackoffTimerTracked × Dstime :=
  if t.next = 0 then (t, waituntil)
  else if t.next ≤ ds then ({ t with next := 1 }, if t.next = 1 then ds + 1 else 0)
  else (t, if t.next < waituntil then t.next else waituntil)

end BackoffTimerTracked

/-- The clock, the timers by address, and the tracker's multimap in its order. -/
structure Group where
  ds : Dstime := 0
  timers : Nat → Option BackoffTimerTracked := fun _ => none
  timeouts : List (Dstime × Nat) := []

namespace Group

variable (s : Group)

def key (i : Nat) : Option Dstime := (s.timers i).bind BackoffTimerTracked.key

/-- `untrack`, the change and `track`. The timer's iterator names its entry. -/
def put (i : Nat) (t : Option BackoffTimerTracked) : Group :=
  let rest := if (s.key i).isSome then s.timeouts.filter (·.2 ≠ i) else s.timeouts
  { s with
    timers := Function.update s.timers i t
    timeouts := match t.bind BackoffTimerTracked.key with
      | some k => rest.orderedInsert (·.1 < ·.1) (k, i)
      | none => rest }

/-- The timers that a group update copies aside, up to the first timeout in the future. -/
def due (transfers : Bool) : List (Dstime × Nat) → List Nat
  | [] => []
  | (k, i) :: l =>
    if transfers then if k ≤ s.ds then i :: due transfers l else []
    else (if (s.timers i).any (·.armed s.ds) then [i] else []) ++
      if s.ds < k then [] else due transfers l

/-- One round of the loop over the copied timers. -/
def updateOne (transfers : Bool) (r : Group × Dstime) (i : Nat) : Group × Dstime :=
  match r.1.timers i with
  | none => r
  | some t =>
    let u := t.update r.1.ds r.2
    let s := r.1.put i (some u.1)
    (if transfers && u.1.armed s.ds then s.put i (some (u.1.set 0)) else s, u.2)

def update (waituntil : Dstime) (transfers : Bool) : Group × Dstime :=
  (s.due transfers s.timeouts).foldl (updateOne transfers) (s, waituntil)

def waitAfter (w : Dstime) (i : Nat) : Dstime := (s.timers i).elim w fun t => (t.update s.ds w).2

/-- The time to wait after the update of every tracked timer in turn. -/
def updateAll (waituntil : Dstime) : Dstime := (s.timeouts.map (·.2)).foldl s.waitAfter waituntil

end Group

/-- A timer is made, destroyed, or changed in any way; the group is updated; the time is another. -/
inductive Op
  | put (i : Nat) (t : Option BackoffTimerTracked)
  | update (waituntil : Dstime) (transfers : Bool)
  | clock (ds : Dstime)

def Group.exec (s : Group) : Op → Group
  | .put i t => s.put i t
  | .update waituntil transfers => (s.update waituntil transfers).1
  | .clock ds => { s with ds }

def run (ops : List Op) : Group := ops.foldl Group.exec {}

/-! ## 2. What the multimap holds -/

/-- The multimap holds the enabled timers with a timeout, once each, by timeout. -/
structure Group.Tracks (s : Group) : Prop where
  mem : ∀ k i, (k, i) ∈ s.timeouts ↔ s.key i = some k
  nodup : (s.timeouts.map (·.2)).Nodup
  sorted : s.timeouts.Pairwise (·.1 ≤ ·.1)

theorem pairwise_orderedInsert {a : Dstime × Nat} {l : List (Dstime × Nat)}
    (h : l.Pairwise (·.1 ≤ ·.1)) : (l.orderedInsert (·.1 < ·.1) a).Pairwise (·.1 ≤ ·.1) := by
  induction l with
  | nil => simp
  | cons b l ih =>
    rw [pairwise_cons] at h
    rw [orderedInsert_cons]
    split
    · grind [pairwise_cons]
    · grind [pairwise_cons, mem_orderedInsert]

variable {s : Group}

theorem Group.Tracks.put (h : s.Tracks) (i : Nat) (t : Option BackoffTimerTracked) :
    (s.put i t).Tracks := by
  have hrest : (if (s.key i).isSome then s.timeouts.filter (·.2 ≠ i) else s.timeouts) =
      s.timeouts.filter (·.2 ≠ i) := by
    split
    · rfl
    · grind [h.mem, filter_eq_self]
  have hmem : ∀ k j, (k, j) ∈ s.timeouts.filter (·.2 ≠ i) ↔ s.key j = some k ∧ j ≠ i := by
    simp [h.mem]
  have hnodup := h.nodup.sublist ((filter_sublist (p := (·.2 ≠ i))).map _)
  unfold Group.put
  rw [hrest]
  cases hk : t.bind BackoffTimerTracked.key with
  | none =>
    refine ⟨fun k j => ?_, hnodup, h.sorted.sublist filter_sublist⟩
    rw [hmem]
    by_cases hj : j = i <;> simp [Group.key, hj, hk]
  | some key =>
    refine ⟨fun k j => ?_, ?_, pairwise_orderedInsert (h.sorted.sublist filter_sublist)⟩
    · rw [mem_orderedInsert, hmem]
      by_cases hj : j = i
      · simp [Group.key, hj, hk, eq_comm]
      · simp [Group.key, hj]
    · exact (((perm_orderedInsert _ _ _).map _).nodup_iff).2 (nodup_cons.2 ⟨by simp, hnodup⟩)

theorem tracks_run (ops : List Op) : (run ops).Tracks := by
  refine ops.foldlRecOn _ ⟨by simp [Group.key], by simp, by simp⟩ fun s h op _ => ?_
  cases op with
  | put i t => exact h.put i t
  | clock ds => exact { h with }
  | update w transfers =>
    refine (s.due transfers s.timeouts).foldlRecOn (motive := fun r : Group × Dstime => r.1.Tracks) _ h
      fun r hr i _ => ?_
    unfold Group.updateOne
    split
    · exact hr
    · dsimp only
      split
      · exact (hr.put i _).put i _
      · exact hr.put i _

/-! ## 3. The time to wait -/

theorem foldl_updateOne (transfers : Bool) : ∀ (v : List Nat) (r : Group × Dstime), v.Nodup →
    (v.foldl (Group.updateOne transfers) r).2 = v.foldl r.1.waitAfter r.2
  | [], _, _ => rfl
  | i :: v, r, hv => by
    have hi := nodup_cons.1 hv
    rw [foldl_cons, foldl_cons, foldl_updateOne transfers v _ hi.2]
    -- the others are as they were
    have hsame : ∀ w, ∀ j ∈ v, (Group.updateOne transfers r i).1.waitAfter w j = r.1.waitAfter w j := by
      intro w j hj
      have hne : j ≠ i := fun he => hi.1 (he ▸ hj)
      unfold Group.waitAfter Group.updateOne
      split
      · rfl
      · dsimp only
        split <;> simp [Group.put, hne]
    rw [foldl_ext _ _ _ hsame]
    congr 1
    unfold Group.waitAfter Group.updateOne
    split <;> simp_all

/-- A timeout is due at the time `ds`; in a group that is not of transfers, 1 is always. -/
def Due (ds : Dstime) (transfers : Bool) (k : Dstime) : Prop := k ≤ ds ∨ transfers = false ∧ k ≤ 1

/-- The timers copied aside are the first ones, and the timeouts behind them are in the future. -/
theorem due_spec (transfers : Bool) : ∀ {l : List (Dstime × Nat)}, l.Pairwise (·.1 ≤ ·.1) →
    (∀ e ∈ l, s.key e.2 = some e.1) → ∃ v rest, l = v ++ rest ∧
      s.due transfers l = v.map (·.2) ∧ (∀ e ∈ v, Due s.ds transfers e.1) ∧
        ∀ e ∈ rest, s.ds < e.1 ∧ (v = [] → ¬ Due s.ds transfers e.1)
  | [], _, _ => ⟨[], [], by simp [Group.due]⟩
  | (k, i) :: l, hl, hk => by
    have hlater := (pairwise_cons.1 hl).1
    obtain ⟨v, rest, rfl, hdue, hv, hrest⟩ := due_spec transfers (pairwise_cons.1 hl).2
      fun e he => hk e (mem_cons_of_mem _ he)
    obtain ⟨t, ht, htk⟩ := Option.bind_eq_some_iff.1 (hk _ mem_cons_self)
    obtain rfl : t.next = k := by grind [BackoffTimerTracked.key]
    unfold Group.due
    rw [hdue, ht]
    by_cases hpast : t.next ≤ s.ds
    · refine ⟨(t.next, i) :: v, rest, rfl, ?_, forall_mem_cons.2 ⟨.inl hpast, hv⟩,
        fun e he => ⟨(hrest e he).1, nofun⟩⟩
      simp [hpast, BackoffTimerTracked.armed]
    · rw [Int64.not_le] at hpast
      have hfuture : ∀ e ∈ v ++ rest, s.ds < e.1 := fun e he =>
        Int64.lt_of_lt_of_le hpast (hlater e he)
      by_cases hone : transfers = false ∧ t.next ≤ 1
      · refine ⟨[(t.next, i)], _, rfl, ?_, by simp [Due, hone], fun e he => ⟨hfuture e he, nofun⟩⟩
        simp [hone, hpast, BackoffTimerTracked.armed]
      · refine ⟨[], _, rfl, ?_, by simp, ?_⟩
        · cases transfers <;> simp_all [BackoffTimerTracked.armed]
        · grind [Due]

theorem waitAfter_eq {i : Nat} {k : Dstime} (hk : s.key i = some k) (w) : s.waitAfter w i =
    if k ≤ s.ds then if k = 1 then s.ds + 1 else 0 else if k < w then k else w := by
  obtain ⟨t, ht, htk⟩ := Option.bind_eq_some_iff.1 hk
  grind [BackoffTimerTracked.key, Group.waitAfter, BackoffTimerTracked.update]

theorem foldl_future : ∀ (l : List (Dstime × Nat)) (w : Dstime),
    (∀ e ∈ l, s.key e.2 = some e.1 ∧ s.ds < e.1) →
    (l.map (·.2)).foldl s.waitAfter w ≤ w ∧
      ((l.map (·.2)).foldl s.waitAfter w = w ↔ ∀ e ∈ l, w ≤ e.1)
  | [], w, _ => by simp
  | e :: l, w, h => by
    obtain ⟨he, hl⟩ := forall_mem_cons.1 h
    rw [map_cons, foldl_cons, waitAfter_eq he.1, if_neg (Int64.not_le.2 he.2), forall_mem_cons]
    split
    · obtain ⟨hle, -⟩ := foldl_future l e.1 hl
      grind
    · obtain ⟨hle, hiff⟩ := foldl_future l w hl
      grind

/-- **A group update and the updates in turn** leave the same time to wait just when some timer is
    due or no timeout comes before the time to wait. The multimap holds what it should. -/
theorem update_eq_updateAll_iff (ops : List Op) (w : Dstime) (transfers : Bool)
    (hds : 0 ≤ (run ops).ds) :
    (∀ k i, (k, i) ∈ (run ops).timeouts ↔ (run ops).key i = some k) ∧
      ((run ops).timeouts.map (·.2)).Nodup ∧
      (((run ops).update w transfers).2 = (run ops).updateAll w ↔
        (∃ e ∈ (run ops).timeouts, Due (run ops).ds transfers e.1) ∨
          ∀ e ∈ (run ops).timeouts, w ≤ e.1) := by
  have h := tracks_run ops
  generalize run ops = s at h hds
  refine ⟨h.mem, h.nodup, ?_⟩
  have hkey : ∀ e ∈ s.timeouts, s.key e.2 = some e.1 := fun e he => (h.mem e.1 e.2).1 he
  obtain ⟨v, rest, hsplit, hdue, hv, hrest⟩ := due_spec transfers h.sorted hkey
  have hsorted := h.sorted
  have hnodup := h.nodup
  unfold Group.update Group.updateAll
  rw [hdue]
  rw [hsplit] at hkey hsorted hnodup ⊢
  rw [map_append] at hnodup ⊢
  rw [foldl_updateOne _ _ _ (nodup_append.1 hnodup).1, foldl_append, eq_comm,
    (foldl_future rest _ fun e he => ⟨hkey e (mem_append_right _ he), (hrest e he).1⟩).2]
  rcases v.eq_nil_or_concat' with rfl | ⟨v, d, rfl⟩
  · have hnone : ¬ ∃ e ∈ rest, Due s.ds transfers e.1 := fun ⟨e, he, hd⟩ => (hrest e he).2 rfl hd
    simp [hnone]
  refine iff_of_true (fun e he => ?_) (.inl ⟨d, by simp, hv d (by simp)⟩)
  -- the last due timer leaves at most the next tick or its own timeout
  rw [map_append, foldl_append, map_singleton, foldl_cons, foldl_nil, waitAfter_eq (hkey d (by simp))]
  have hde := (pairwise_append.1 hsorted).2.2 d (by simp) e he
  have hlt := (hrest e he).1
  clear hkey hdue hv hrest hsorted hnodup hsplit
  grind

/-- With a timer that is due, another one that is not yet makes no difference. -/
theorem update_eq_updateAll_past :
    let s := run [.clock 100, .put 0 (some { next := 90 }), .put 1 (some { next := 110 })]
    (s.update NEVER true).2 = s.updateAll NEVER ∧ (s.update NEVER false).2 = s.updateAll NEVER := by
  intro s
  have hboth : ∀ transfers, (s.update NEVER transfers).2 = s.updateAll NEVER := fun transfers =>
    (update_eq_updateAll_iff _ _ transfers (by decide)).2.2.2
      (.inl ⟨(90, 0), by decide, .inl (by decide)⟩)
  exact ⟨hboth true, hboth false⟩

/-- A timer that will be due in ten ticks, and nothing else to wait for. -/
theorem update_forgets_future :
    ((run [.clock 100, .put 0 (some { next := 110 })]).update NEVER true).2 = NEVER ∧
      ((run [.clock 100, .put 0 (some { next := 110 })]).update NEVER false).2 = NEVER ∧
      (run [.clock 100, .put 0 (some { next := 110 })]).updateAll NEVER = 110 := by
  decide

end MegaSdk.Timers
