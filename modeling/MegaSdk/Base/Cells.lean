/-
  File:      MegaSdk/Base/Cells.lean
  Subject:   A LIST AS A ROW OF CELLS THAT ARE WRITTEN IN PAIRS. No program fact.

  * `cell l i` -- what stands at `i`; `setTwo l i x j y` -- `x` written at `i` and `y` at `j`;
  * **`perm_setTwo`** -- if two cells hold between them what they held before, all cells do.
-/
import Mathlib

namespace Base

open List

variable {α β : Type*} {l : List α} {i j : Nat} {x : α}

def setTwo (l : List α) (i : Nat) (x : α) (j : Nat) (y : α) : List α := (l.set i x).set j y

@[simp] theorem length_setTwo (l i x j) (y : α) : (setTwo l i x j y).length = l.length := by
  simp [setTwo]

variable [Inhabited α]

def cell (l : List α) (i : Nat) : α := l.getD i default

theorem cell_eq_getElem (h : i < l.length) : cell l i = l[i] := by
  simp [cell, h]

theorem cell_of_le (h : l.length ≤ i) : cell l i = default := by
  rw [cell, getD_eq_getElem?_getD, getElem?_eq_none h, Option.getD_none]

theorem cell_mem (h : i < l.length) : cell l i ∈ l := by
  rw [cell_eq_getElem h]
  exact getElem_mem h

theorem exists_cell (h : x ∈ l) : ∃ i < l.length, cell l i = x := by
  obtain ⟨i, hi, hx⟩ := getElem_of_mem h
  exact ⟨i, hi, by rw [cell_eq_getElem hi, hx]⟩

theorem cell_set (hi : i < l.length) (x) (k : Nat) :
    cell (l.set i x) k = if k = i then x else cell l k := by
  simp only [cell, getD_eq_getElem?_getD, getElem?_set]
  by_cases h : i = k
  · subst h
    simp [hi]
  · rw [if_neg h, if_neg fun e => h e.symm]

theorem cell_setTwo (hi : i < l.length) (hj : j < l.length) (x y : α) (k : Nat) :
    cell (setTwo l i x j y) k = if k = j then y else if k = i then x else cell l k := by
  rw [setTwo, cell_set (by simpa using hj), cell_set hi]

theorem setTwo_self (i) : setTwo l i (cell l i) i (cell l i) = l := by
  refine ext_getElem (by simp) ?_
  intro k hk hk'
  rw [← cell_eq_getElem hk, ← cell_eq_getElem hk']
  by_cases hi : i < l.length
  · rw [cell_setTwo hi hi]
    split_ifs with h
    · rw [h]
    · rfl
  · rw [setTwo, set_eq_of_length_le (by simpa using Nat.le_of_not_lt hi),
      set_eq_of_length_le (Nat.le_of_not_lt hi)]

/-! ## What all cells hold together -/

section Contents

variable (f : α → List β)

theorem countP_flatMap_set (p : β → Bool) (hi : i < l.length) (x : α) :
    ((l.set i x).flatMap f).countP p + (f (cell l i)).countP p =
      (l.flatMap f).countP p + (f x).countP p := by
  induction l generalizing i with
  | nil => exact absurd hi (by simp)
  | cons a l ih =>
    cases i with
    | zero =>
      simp only [set_cons_zero, flatMap_cons, countP_append, cell,
        getD_cons_zero]
      omega
    | succ i =>
      have := ih (by simpa using hi)
      simp only [set_cons_succ, flatMap_cons, countP_append, cell,
        getD_cons_succ] at this ⊢
      omega

variable [DecidableEq β]

theorem count_flatMap_set (hi : i < l.length) (x) (b : β) :
    ((l.set i x).flatMap f).count b + (f (cell l i)).count b =
      (l.flatMap f).count b + (f x).count b :=
  countP_flatMap_set f (· == b) hi x

/-- **What two different cells hold may be divided between them anew.** -/
theorem perm_setTwo (hi : i < l.length) (hj : j < l.length) (hne : i ≠ j) {x y : α}
    (h : (f x ++ f y).Perm (f (cell l i) ++ f (cell l j))) :
    ((setTwo l i x j y).flatMap f).Perm (l.flatMap f) := by
  rw [perm_iff_count]
  intro b
  have h₁ := count_flatMap_set f hi x b
  have h₂ := count_flatMap_set f (l := l.set i x) (by simpa using hj) y b
  rw [cell_set hi, if_neg fun e => hne e.symm] at h₂
  have h₃ := perm_iff_count.1 h b
  simp only [count_append] at h₃
  rw [setTwo]
  omega

theorem perm_swap (hi : i < l.length) (hj : j < l.length) :
    ((setTwo l i (cell l j) j (cell l i)).flatMap f).Perm (l.flatMap f) := by
  by_cases hne : i = j
  · subst hne
    rw [setTwo_self]
  · exact perm_setTwo f hi hj hne perm_append_comm

end Contents

theorem flatMap_eq_of_cells {f : α → List β} {l' : List α} (hlen : l'.length = l.length)
    (h : ∀ k, f (cell l' k) = f (cell l k)) : l'.flatMap f = l.flatMap f := by
  rw [flatMap_def]
  congr 1
  refine ext_getElem (by simpa using hlen) ?_
  intro k hk hk'
  rw [length_map] at hk hk'
  rw [getElem_map, getElem_map, ← cell_eq_getElem hk, ← cell_eq_getElem hk']
  exact h k

theorem flatMap_set_eq {f : α → List β} (h : f x = f (cell l i)) :
    (l.set i x).flatMap f = l.flatMap f := by
  refine flatMap_eq_of_cells (by simp) fun k => ?_
  by_cases hi : i < l.length
  · rw [cell_set hi]
    split_ifs with hk
    · rw [h, hk]
    · rfl
  · rw [set_eq_of_length_le (by omega)]

theorem mem_flatMap_cell {f : α → List β} {b : β} :
    b ∈ l.flatMap f ↔ ∃ i < l.length, b ∈ f (cell l i) := by
  rw [mem_flatMap]
  constructor
  · rintro ⟨x, hx, hb⟩
    obtain ⟨i, hi, rfl⟩ := exists_cell hx
    exact ⟨i, hi, hb⟩
  rintro ⟨i, hi, hb⟩
  exact ⟨_, cell_mem hi, hb⟩

/-- Outside the list the cells hold nothing. -/
theorem mem_flatMap_cell_iff {f : α → List β} {b : β} (h : f default = []) :
    b ∈ l.flatMap f ↔ ∃ i, b ∈ f (cell l i) := by
  rw [mem_flatMap_cell]
  refine exists_congr fun i => and_iff_right_of_imp fun hb => ?_
  by_contra hi
  rw [cell_of_le (by omega), h] at hb
  cases hb

end Base
