/-
  File:      MegaSdk/Fuse/AnyLockSet.lean
  Subject:   LOCKING A SET OF LOCKS (any_lock_set.cpp, any_lock.h).

  `tryLockAll` takes its first lock as the caller asks (blocking or not) and tries the rest. If one is
  busy it releases what it has and starts again with that one; if a lock throws it releases what it
  has and throws on.

  * `Call` -- one call of `tryLockAll`, with the positions of the locks it holds; `Call.Inv` -- which
    these are;
  * **`cleanup_right_iff`** -- when the locks are released after an exception: `&` stands where `%`
    should, and a round that failed leaves its counter below zero;
  * **`locked_of_run`** -- any number of threads lock sets of locks, without exceptions.
-/
import Mathlib

namespace MegaSdk.Fuse

open List Function

/-! ## 1. The code -/

inductive Locker
  | blocking
  | nonblocking
deriving DecidableEq

/-- What `lock` or `try_lock` of one lock does. -/
inductive Outcome
  | locked
  | busy
  | throws

inductive Pc
  /-- At `locker.lock(locks[first])`. -/
  | acquire
  /-- At `locks[index].try_lock()`. -/
  | next
  /-- Releasing, because the lock at `index` was busy. -/
  | release (index : Nat)
  | returned (result : Bool)
  | threw
  /-- A lock that is not held was unlocked, or one that is not in the vector. -/
  | fault
deriving DecidableEq

/-- A call of `tryLockAll` for `num` locks; `held` are the positions of those with `mOwned`. -/
structure Call where
  locker : Locker
  num : Nat
  first : Nat := 0
  count : Nat := 0
  held : List Nat := []
  pc : Pc := .acquire

def unlock (held : List Nat) (i : Nat) : Option (List Nat) :=
  if i ∈ held then some (held.erase i) else none

/-- `while (count--) locks[index(count)].unlock()`. -/
def unlockAll (index : Nat → Nat) : Nat → List Nat → Option (List Nat)
  | 0, held => some held
  | count + 1, held => (unlock held (index count)).bind (unlockAll index count)

namespace Call

variable (c : Call)

def index : Nat := (c.first + c.count) % c.num

def target : Nat := if c.pc = .acquire then c.first else c.index

def loop : Call := { c with pc := if c.first ∈ c.held then .returned true else .acquire }

/-- The lock at `i` was acquired, the `count`th one. -/
def acquired (i count : Nat) : Call :=
  let c := { c with held := i :: c.held, count }
  if count < c.num then { c with pc := .next } else c.loop

/-- The handler. -/
def cleanup : Call :=
  match unlockAll (fun count => (c.first + count) &&& c.num) c.count c.held with
  | some held => { c with held, pc := .threw }
  | none => { c with pc := .fault }

def step (o : Outcome) : Call :=
  match c.pc, o with
  | .acquire, .locked => c.acquired c.first 1
  | .acquire, .busy =>
    match c.locker with
    | .blocking => c
    | .nonblocking => { c with pc := .returned false }
  | .next, .locked => c.acquired c.index (c.count + 1)
  | .next, .busy => { c with pc := .release c.index }
  | .acquire, .throws | .next, .throws => c.cleanup
  | .release index, _ =>
    match c.count with
    | 0 =>
      -- the test of the counter has taken it below zero
      let c := { c with count := 2 ^ 64 - 1 }
      match c.locker with
      | .blocking => { c with first := index }.loop
      | .nonblocking => { c with pc := .returned false }
    | count + 1 =>
      match unlock c.held ((c.first + count) % c.num) with
      | some held => { c with held, count }
      | none => { c with pc := .fault }
  | _, _ => c

/-- A call up to some point, given which of its calls of `lock` and `try_lock` got their lock. -/
def run (locker : Locker) (num : Nat) (oks : List Bool) : Call :=
  oks.foldl (fun c ok => c.step (if ok then .locked else .busy)) { locker, num }

/-! ## 2. What is held -/

/-- The positions of the first `count` locks from `first` on, the last one in front. -/
def taken : List Nat := ((range c.count).map fun k => (c.first + k) % c.num).reverse

structure Inv : Prop where
  first_lt : c.first < c.num
  held : match c.pc with
    | .acquire => c.held = [] ∧ (c.count = 0 ∨ c.count = 2 ^ 64 - 1)
    | .next => c.held = c.taken ∧ 0 < c.count ∧ c.count < c.num
    | .release index => c.held = c.taken ∧ c.count < c.num ∧ index < c.num
    | .returned true => c.held = c.taken ∧ c.count = c.num
    | .returned false => c.held = [] ∧ c.locker = .nonblocking
    | .threw => True
    | .fault => False

end Call

variable {c : Call} {o : Outcome}

theorem taken_succ {k : Nat} (h : c.count = k + 1) :
    c.taken = (c.first + k) % c.num :: { c with count := k }.taken := by
  simp [Call.taken, h, range_succ]

theorem mem_taken {i : Nat} (hfirst : c.first < c.num) (hcount : c.count = c.num) (hi : i < c.num) :
    i ∈ c.taken := by
  simp only [Call.taken, mem_reverse, mem_map, mem_range, hcount]
  rcases lt_or_ge i c.first with h | h
  · refine ⟨i + c.num - c.first, by omega, ?_⟩
    rw [show c.first + (i + c.num - c.first) = i + c.num by omega, Nat.add_mod_right,
      Nat.mod_eq_of_lt hi]
  · refine ⟨i - c.first, by omega, ?_⟩
    rw [show c.first + (i - c.first) = i by omega, Nat.mod_eq_of_lt hi]

theorem Call.Inv.acquired {i count : Nat} (hfirst : c.first < c.num) (hcount : count < c.num)
    (hheld : i :: c.held = { c with count := count + 1 }.taken) : (c.acquired i (count + 1)).Inv := by
  unfold Call.acquired
  dsimp only
  split
  · rename_i hlt
    exact ⟨hfirst, hheld, Nat.succ_pos _, hlt⟩
  · have hall : count + 1 = c.num := by omega
    have hmem : c.first ∈ i :: c.held := by
      rw [hheld]
      exact mem_taken hfirst hall hfirst
    rw [Call.loop, if_pos hmem]
    exact ⟨hfirst, hheld, hall⟩

theorem Call.Inv.step (h : c.Inv) (ho : o ≠ .throws) : (c.step o).Inv := by
  have hfirst := h.first_lt
  have hheld := h.held
  unfold Call.step
  split
  · rename_i hpc
    rw [hpc] at hheld
    refine .acquired hfirst (by omega) ?_
    rw [taken_succ rfl, hheld.1, Nat.add_zero, Nat.mod_eq_of_lt hfirst]
    rfl
  · rename_i hpc
    rw [hpc] at hheld
    split
    · exact h
    · exact ⟨hfirst, hheld.1, ‹_›⟩
  · rename_i hpc
    rw [hpc] at hheld
    refine .acquired hfirst hheld.2.2 ?_
    rw [taken_succ rfl, hheld.1]
    rfl
  · rename_i hpc
    rw [hpc] at hheld
    exact ⟨hfirst, hheld.1, hheld.2.2, Nat.mod_lt _ (by omega)⟩
  · exact absurd rfl ho
  · exact absurd rfl ho
  · rename_i index hpc
    rw [hpc] at hheld
    obtain ⟨hheld, hlt, hindex⟩ := hheld
    split
    · rename_i h0
      have hnil : c.held = [] := by rw [hheld, Call.taken, h0]; rfl
      dsimp only
      cases c.locker with
      | blocking =>
        rw [Call.loop, if_neg (by simp [hnil])]
        exact ⟨hindex, hnil, .inr rfl⟩
      | nonblocking => exact ⟨hfirst, hnil, rfl⟩
    · rename_i k hk
      rw [hheld, taken_succ hk, unlock, if_pos mem_cons_self, erase_cons_head]
      refine ⟨hfirst, ?_⟩
      dsimp only
      rw [hpc]
      exact ⟨rfl, by omega, hindex⟩
  · exact h

theorem held_acquired (i count : Nat) : (c.acquired i count).held = i :: c.held := by
  unfold Call.acquired
  dsimp only
  split <;> rfl

theorem mem_held_step (ho : o ≠ .throws) {i : Nat} (hi : i ∈ (c.step o).held) :
    i ∈ c.held ∨ o = .locked ∧ i = c.target := by
  unfold Call.step at hi
  split at hi
  · rename_i hpc
    rw [held_acquired, mem_cons] at hi
    exact hi.symm.imp_right fun h => ⟨rfl, by rw [h, Call.target, if_pos hpc]⟩
  · split at hi <;> exact .inl hi
  · rename_i hpc
    rw [held_acquired, mem_cons] at hi
    exact hi.symm.imp_right fun h => ⟨rfl, by rw [h, Call.target, if_neg (by simp [hpc])]⟩
  · exact .inl hi
  · exact absurd rfl ho
  · exact absurd rfl ho
  · refine .inl ?_
    split at hi
    · dsimp only at hi
      split at hi <;> exact hi
    · unfold unlock at hi
      split at hi
      · rename_i hsome
        split at hsome <;> cases hsome
        exact mem_of_mem_erase hi
      · exact hi
  · exact .inl hi

theorem num_step (o) : (c.step o).num = c.num := by
  unfold Call.step Call.cleanup Call.acquired Call.loop
  dsimp only
  repeat' split
  all_goals rfl

/-! ## 3. Exceptions -/

theorem unlockAll_eq_nil_iff (index : Nat → Nat) (count : Nat) (held : List Nat) :
    unlockAll index count held = some [] ↔ ((range count).map index).reverse.Perm held := by
  induction count generalizing held with
  | zero => simp [unlockAll]
  | succ k ih =>
    rw [range_succ, map_append, reverse_append]
    simp only [map_cons, map_nil, reverse_singleton, singleton_append, cons_perm_iff_perm_erase]
    unfold unlockAll unlock
    split_ifs with hmem
    · rw [Option.bind_some, ih]
      exact (and_iff_right hmem).symm
    · simp [hmem]

/-- The handler unlocks the locks that are held exactly if there was no wrap around and it masks
    nothing. -/
theorem perm_iff {first count num : Nat} (hfirst : first < num) :
    ((range count).map fun k => (first + k) &&& num).reverse.Perm
        ((range count).map fun k => (first + k) % num).reverse ↔
      first + count ≤ num ∧ ∀ k < count, (first + k) &&& num = first + k := by
  constructor
  · intro h
    have hmem : ∀ k < count, ∃ m < count, (first + m) % num = (first + k) &&& num := by
      intro k hk
      have hk' : (first + k) &&& num ∈ ((range count).map fun k => (first + k) % num).reverse :=
        h.subset (mem_reverse.2 (mem_map_of_mem (mem_range.2 hk)))
      simpa using hk'
    have hle : first + count ≤ num := by
      by_contra hlt
      obtain ⟨m, -, hm⟩ := hmem (num - first) (by omega)
      have := Nat.mod_lt (first + m) (by omega : num > 0)
      rw [show first + (num - first) = num by omega, Nat.and_self] at hm
      omega
    have hmod : ∀ m < count, (first + m) % num = first + m := fun m hm =>
      Nat.mod_eq_of_lt (by omega)
    have hnodup : ((range count).map fun k => (first + k) &&& num).Nodup := by
      refine nodup_reverse.1 (h.nodup_iff.2 (nodup_reverse.2 ?_))
      refine nodup_range.map_on fun i hi j hj hij => ?_
      rw [hmod i (mem_range.1 hi), hmod j (mem_range.1 hj)] at hij
      omega
    refine ⟨hle, fun k => ?_⟩
    -- no index can be lower than it should, for the lower ones are taken
    induction k using Nat.strong_induction_on with
    | _ k ih =>
      intro hk
      obtain ⟨m, hm, hmk⟩ := hmem k hk
      have hand : (first + k) &&& num ≤ first + k := Nat.and_le_left
      rw [hmod m hm] at hmk
      rcases lt_or_ge m k with hlt | hge
      · have := inj_on_of_nodup_map hnodup (mem_range.2 hm) (mem_range.2 hk)
          ((ih m hlt hm).trans hmk)
        omega
      · omega
  · rintro ⟨hle, hand⟩
    have hsame : ∀ k ∈ range count, (first + k) &&& num = (first + k) % num := by
      intro k hk
      rw [mem_range] at hk
      rw [hand k hk, Nat.mod_eq_of_lt (by omega)]
    rw [map_congr_left hsame]

theorem inv_of_run (locker : Locker) {num : Nat} (hnum : 0 < num) (oks : List Bool) :
    (Call.run locker num oks).Inv := by
  refine foldlRecOn oks _ ⟨hnum, rfl, .inl rfl⟩ fun c hc ok _ => hc.step ?_
  cases ok <;> exact nofun

/-- **The locks are released after an exception**, each once, none that is not held is unlocked and
    the exception goes on to the caller, **exactly if** it is thrown at the first lock of the first
    round, or later in a round when the locks held do not wrap around the vector and `&` with its size
    leaves their positions as they are. -/
theorem cleanup_right_iff (locker : Locker) {num : Nat} (hnum : 0 < num) (oks : List Bool)
    (hpc : (Call.run locker num oks).pc = .acquire ∨ (Call.run locker num oks).pc = .next) :
    let c := Call.run locker num oks
    ((c.step .throws).pc = .threw ∧ (c.step .throws).held = []) ↔
      if c.pc = .acquire then c.count = 0
      else c.first + c.count ≤ c.num ∧ ∀ k < c.count, (c.first + k) &&& c.num = c.first + k := by
  have hinv := inv_of_run locker hnum oks
  generalize Call.run locker num oks = c at hpc hinv
  have hstep : c.step .throws = c.cleanup := by
    unfold Call.step
    rcases hpc with h | h <;> rw [h]
  have hright : ((c.step .throws).pc = .threw ∧ (c.step .throws).held = []) ↔
      ((range c.count).map fun k => (c.first + k) &&& c.num).reverse.Perm c.held := by
    rw [hstep, ← unlockAll_eq_nil_iff, Call.cleanup]
    split <;> simp_all
  have hheld := hinv.held
  dsimp only
  rw [hright]
  rcases hpc with h | h
  · simp only [h] at hheld ⊢
    rw [hheld.1]
    simp
  · simp only [h] at hheld ⊢
    rw [hheld.1]
    exact perm_iff hinv.first_lt

/-- With an odd number of locks, an exception at the third lock of the first round is handled. -/
theorem cleanup_right_of_odd :
    ((Call.run .blocking 5 [true, true]).step .throws).held = [] :=
  ((cleanup_right_iff .blocking (by decide) [true, true] (.inr rfl)).2 (by decide)).2

/-- With four locks it is not: the first one is unlocked twice. And in the second round an exception
    at its first lock, with nothing held, is not either. -/
theorem cleanup_wrong :
    ((Call.run .nonblocking 4 [true, true]).step .throws).pc = .fault ∧
      (Call.run .blocking 2 [true, false, false, false]).pc = .acquire ∧
      ((Call.run .blocking 2 [true, false, false, false]).step .throws).pc = .fault := by
  decide

/-! ## 4. Threads -/

/-- A thread with an `AnyLockSet`: it locks, and unlocks one lock after the other. -/
inductive Thread (L : Type)
  | idle
  | locking (locks : List L) (c : Call)
  | unlocking (rest : List L)

variable {T L : Type}

def Thread.holds : Thread L → List L
  | idle => []
  | locking locks c => c.held.filterMap (locks[·]?)
  | unlocking rest => rest

def Thread.Inv : Thread L → Prop
  | .locking locks c => c.num = locks.length ∧ c.Inv
  | _ => True

theorem Call.Inv.holds_all {locks : List L} (h : c.Inv) (hnum : c.num = locks.length)
    (hpc : c.pc = .returned true) : locks ⊆ (Thread.locking locks c).holds := by
  intro l hl
  have hheld := h.held
  rw [hpc] at hheld
  obtain ⟨i, hi, rfl⟩ := getElem_of_mem hl
  refine mem_filterMap.2 ⟨i, ?_, getElem?_eq_getElem hi⟩
  rw [hheld.1]
  exact mem_taken h.first_lt hheld.2 (hnum ▸ hi)

abbrev Threads (T L : Type) := T → Thread L

namespace Threads

variable [Fintype T] [DecidableEq L] (s : Threads T L)

def free (l : L) : Bool := decide (∀ t, l ∉ (s t).holds)

/-- What the next `lock` or `try_lock` of a call does, if it does not block. A `try_lock` may fail
    for a lock that is free. -/
def outcome (locks : List L) (c : Call) (fails : Bool) : Option Outcome :=
  let blocks := c.pc = .acquire ∧ c.locker = .blocking
  if locks[c.target]?.all s.free ∧ (blocks ∨ !fails) then some .locked
  else if blocks then none else some .busy

def step (t : T) (fails : Bool) : Option (Thread L) :=
  match s t with
  | .idle => none
  | .unlocking [] => some .idle
  | .unlocking (_ :: rest) => some (.unlocking rest)
  | .locking locks c =>
    match c.pc with
    | .returned result => some (if result then .unlocking locks else .idle)
    | _ => (s.outcome locks c fails).map fun o => .locking locks (c.step o)

inductive Action (L : Type)
  | lock (locker : Locker) (locks : List L)
  | step (fails : Bool)

variable [DecidableEq T]

/-- A thread without a lock may lock a set that is not empty. -/
def act (t : T) : Action L → Threads T L
  | .lock locker locks =>
    match s t, locks with
    | .idle, _ :: _ => Function.update s t (.locking locks { locker, num := locks.length })
    | _, _ => s
  | .step fails => (s.step t fails).elim s (Function.update s t)

def run (acts : List (T × Action L)) : Threads T L :=
  acts.foldl (fun s a => s.act a.1 a.2) fun _ => .idle

end Threads

section

variable [Fintype T] [DecidableEq L] {s : Threads T L} {t : T}

theorem Threads.outcome_spec {locks : List L} {c} {fails : Bool}
    (h : s.outcome locks c fails = some o) :
    o ≠ .throws ∧ (o = .locked → locks[c.target]?.all s.free) := by
  unfold Threads.outcome at h
  dsimp only at h
  split at h
  · rename_i hfree
    cases h
    exact ⟨nofun, fun _ => hfree.1⟩
  · split at h <;> cases h
    exact ⟨nofun, nofun⟩

theorem Threads.step_spec {fails : Bool} {th : Thread L} (h : s.step t fails = some th)
    (hinv : (s t).Inv) : th.Inv ∧ ∀ l ∈ th.holds, l ∈ (s t).holds ∨ s.free l := by
  unfold Threads.step at h
  split at h
  · cases h
  · cases h
    exact ⟨trivial, nofun⟩
  · rename_i hst
    cases h
    exact ⟨trivial, fun l hl => .inl (by rw [hst]; exact mem_cons_of_mem _ hl)⟩
  rename_i locks c hst
  rw [hst] at hinv ⊢
  split at h
  · rename_i result hpc
    cases h
    cases result with
    | false => exact ⟨trivial, nofun⟩
    | true => exact ⟨trivial, fun l hl => .inl (hinv.2.holds_all hinv.1 hpc hl)⟩
  · obtain ⟨o, ho, rfl⟩ := Option.map_eq_some_iff.1 h
    obtain ⟨hne, hfree⟩ := outcome_spec ho
    refine ⟨⟨(num_step o).trans hinv.1, hinv.2.step hne⟩, fun l hl => ?_⟩
    obtain ⟨i, hi, hil⟩ := mem_filterMap.1 hl
    rcases mem_held_step hne hi with hi | ⟨ho, rfl⟩
    · exact .inl (mem_filterMap.2 ⟨i, hi, hil⟩)
    · have := hfree ho
      rw [hil] at this
      exact .inr this

structure Threads.Inv (s : Threads T L) : Prop where
  calls : ∀ t, (s t).Inv
  apart : ∀ t u l, l ∈ (s t).holds → l ∈ (s u).holds → t = u

variable [DecidableEq T]

theorem Threads.Inv.update (h : s.Inv) {th : Thread L} (hinv : th.Inv)
    (hth : ∀ l ∈ th.holds, l ∈ (s t).holds ∨ s.free l) : Threads.Inv (Function.update s t th) := by
  have hown : ∀ u l, u ≠ t → l ∈ th.holds → l ∉ (s u).holds := by
    intro u l hu hl hl'
    rcases hth l hl with hl | hl
    · exact hu (h.apart _ _ _ hl' hl)
    · exact of_decide_eq_true hl u hl'
  refine ⟨fun u => ?_, fun u v l hu hv => ?_⟩
  · rcases eq_or_ne u t with rfl | hut
    · rwa [update_self]
    · rw [update_of_ne hut]
      exact h.calls u
  rcases eq_or_ne u t with rfl | hut <;> rcases eq_or_ne v u with rfl | hvu
  · rfl
  · rw [update_self] at hu
    rw [update_of_ne hvu] at hv
    exact absurd hv (hown v l hvu hu)
  · rfl
  · rw [update_of_ne hut] at hu
    rcases eq_or_ne v t with rfl | hvt
    · rw [update_self] at hv
      exact absurd hu (hown u l hut hv)
    · rw [update_of_ne hvt] at hv
      exact h.apart _ _ _ hu hv

theorem Threads.Inv.act (h : s.Inv) (a : Action L) : (s.act t a).Inv := by
  unfold Threads.act
  split
  · split
    · exact h.update ⟨rfl, Nat.succ_pos _, rfl, .inl rfl⟩ nofun
    · exact h
  · rename_i fails
    cases hs : s.step t fails with
    | none => exact h
    | some th => exact h.update (step_spec hs (h.calls t)).1 (step_spec hs (h.calls t)).2

end

variable [Fintype T] [DecidableEq T] [DecidableEq L]

theorem Threads.Inv.run (acts : List (T × Threads.Action L)) : (Threads.run acts).Inv :=
  foldlRecOn acts _ ⟨fun _ => trivial, nofun⟩ fun _ h a _ => h.act a.2

/-- **Any number of threads lock sets of locks.** In every run a call of `lock` holds nothing where it
    blocks; a call returns true with all its locks held, and false only if it is one of `try_lock`,
    with none; no lock is held twice; and a thread that cannot go on waits for a lock held by
    another one that can, so there is no deadlock. -/
theorem locked_of_run (acts : List (T × Threads.Action L)) :
    let s := Threads.run acts
    (∀ t locks c, s t = .locking locks c →
      (c.pc = .acquire → (s t).holds = []) ∧
      (c.pc = .returned true → locks ⊆ (s t).holds) ∧
      (c.pc = .returned false → (s t).holds = [] ∧ c.locker = .nonblocking)) ∧
    (∀ t u l, l ∈ (s t).holds → l ∈ (s u).holds → t = u) ∧
    ∀ t fails, s t ≠ .idle → s.step t fails = none →
      ∃ u, (∃ l ∈ (s u).holds, ∃ locks c, s t = .locking locks c ∧ locks[c.target]? = some l) ∧
        ∀ fails, (s.step u fails).isSome := by
  intro s
  have h : s.Inv := .run acts
  have hacquire : ∀ {t locks c}, s t = .locking locks c → c.pc = .acquire → (s t).holds = [] := by
    intro t locks c hst hpc
    have hinv := h.calls t
    rw [hst] at hinv ⊢
    have hheld := hinv.2.held
    rw [hpc] at hheld
    rw [Thread.holds, hheld.1, filterMap_nil]
  have hblocked : ∀ {t fails}, s t ≠ .idle → s.step t fails = none →
      ∃ locks c, s t = .locking locks c ∧ c.pc = .acquire ∧ ¬ locks[c.target]?.all s.free := by
    intro t fails hidle hnone
    unfold Threads.step at hnone
    split at hnone
    · exact absurd ‹_› hidle
    · cases hnone
    · cases hnone
    rename_i locks c hst
    split at hnone
    · cases hnone
    · rw [Option.map_eq_none_iff, Threads.outcome] at hnone
      split at hnone
      · cases hnone
      · rename_i hfree
        split at hnone
        · rename_i hb
          exact ⟨locks, c, hst, hb.1, fun hf => hfree ⟨hf, .inl hb⟩⟩
        · cases hnone
  refine ⟨fun t locks c hst => ⟨hacquire hst, ?_, ?_⟩, h.apart, fun t fails hidle hnone => ?_⟩
  · intro hpc
    have hinv := h.calls t
    rw [hst] at hinv ⊢
    exact hinv.2.holds_all hinv.1 hpc
  · intro hpc
    have hinv := h.calls t
    rw [hst] at hinv ⊢
    have hheld := hinv.2.held
    rw [hpc] at hheld
    exact ⟨by rw [Thread.holds, hheld.1, filterMap_nil], hheld.2⟩
  obtain ⟨locks, c, hst, -, hfree⟩ := hblocked hidle hnone
  cases hl : locks[c.target]? with
  | none => simp [hl] at hfree
  | some l =>
    obtain ⟨u, hu⟩ : ∃ u, l ∈ (s u).holds := by simpa [hl, Threads.free] using hfree
    refine ⟨u, ⟨l, hu, locks, c, hst, hl⟩, fun fails' => ?_⟩
    -- a thread that blocks holds nothing
    by_contra hn
    rw [Option.not_isSome_iff_eq_none] at hn
    have hidle' : s u ≠ .idle := fun h' => by rw [h'] at hu; cases hu
    obtain ⟨locks', c', hst', hpc', -⟩ := hblocked hidle' hn
    rw [hacquire hst' hpc'] at hu
    cases hu

end MegaSdk.Fuse
