/-
  File:      MegaSdk/Base/Sorting.lean
  Subject:   THREE-WAY COMPARISONS AND THE RUNS OF A SORTED LIST. No program fact.

  * `Consistent cmp l` -- on the members of `l`, `cmp` is the comparison of a total preorder: what a
    sort asks of it;
  * `equalRuns` -- the list cut behind every member that the first one of its run is not equal to;
  * `Grouped` -- the runs are the classes of equal members;
  * **`Consistent.grouped`** -- they are, in a list sorted by a consistent comparison.
-/
import Mathlib

namespace Base

open List

variable {α : Type*}

/-- On the members of `l`, `cmp` compares as a total preorder does. -/
structure Consistent (cmp : α → α → Int) (l : List α) : Prop where
  opposite : ∀ a ∈ l, ∀ b ∈ l, (cmp a b < 0 ↔ 0 < cmp b a)
  lt_trans : ∀ a ∈ l, ∀ b ∈ l, ∀ c ∈ l, cmp a b < 0 → cmp b c < 0 → cmp a c < 0
  eq_refl : ∀ a ∈ l, cmp a a = 0
  eq_symm : ∀ a ∈ l, ∀ b ∈ l, cmp a b = 0 → cmp b a = 0
  eq_trans : ∀ a ∈ l, ∀ b ∈ l, ∀ c ∈ l, cmp a b = 0 → cmp b c = 0 → cmp a c = 0

/-- Sorted: no member comes before a smaller one. -/
def SortedBy (cmp : α → α → Int) (l : List α) : Prop := l.Pairwise fun a b => ¬ cmp b a < 0

/-- The list in runs of members that are equal to the first of their run; `n` bounds their
number. -/
def equalRuns (cmp : α → α → Int) : Nat → List α → List (List α)
  | n + 1, a :: l =>
    (a :: l.takeWhile fun b => cmp a b == 0) ::
      equalRuns cmp n (l.dropWhile fun b => cmp a b == 0)
  | _, _ => []

/-- The runs are classes: equal within, not equal across. -/
structure Grouped (cmp : α → α → Int) (runs : List (List α)) : Prop where
  equal : ∀ run ∈ runs, ∀ a ∈ run, ∀ b ∈ run, cmp a b = 0
  apart : runs.Pairwise fun run run' => ∀ a ∈ run, ∀ b ∈ run', cmp a b ≠ 0

theorem flatten_equalRuns (cmp : α → α → Int) : ∀ (n : Nat) (l : List α), l.length ≤ n →
    (equalRuns cmp n l).flatten = l
  | 0, [], _ => rfl
  | 0, _ :: _, h => absurd h (by simp)
  | _ + 1, [], _ => rfl
  | n + 1, a :: l, h => by
      have hlen : (l.dropWhile fun b => cmp a b == 0).length ≤ l.length :=
        (dropWhile_sublist _).length_le
      rw [length_cons] at h
      rw [equalRuns, flatten_cons, flatten_equalRuns cmp n _ (by omega), cons_append,
        takeWhile_append_dropWhile]

theorem mem_of_mem_run {cmp : α → α → Int} {n : Nat} {l run : List α} {a : α}
    (hn : l.length ≤ n) (hr : run ∈ equalRuns cmp n l) (ha : a ∈ run) : a ∈ l := by
  rw [← flatten_equalRuns cmp n l hn]
  exact mem_flatten.2 ⟨run, hr, ha⟩

namespace Consistent

variable {cmp : α → α → Int} {l l' : List α}

theorem lt_of_lt_of_eq (h : Consistent cmp l) {a b c : α} (ha : a ∈ l) (hb : b ∈ l) (hc : c ∈ l)
    (hab : cmp a b < 0) (hbc : cmp b c = 0) : cmp a c < 0 := by
  rcases Int.lt_trichotomy (cmp a c) 0 with hac | hac | hac
  · exact hac
  · have := h.eq_trans a ha c hc b hb hac (h.eq_symm b hb c hc hbc)
    omega
  have hcb := h.lt_trans c hc a ha b hb ((h.opposite c hc a ha).2 hac) hab
  have := h.eq_symm b hb c hc hbc
  omega

theorem lt_of_mem_dropWhile (h : Consistent cmp l) {a : α} (ha : a ∈ l) :
    ∀ {rest : List α}, (∀ b ∈ rest, b ∈ l) → SortedBy cmp (a :: rest) →
      ∀ b ∈ rest.dropWhile (fun b => cmp a b == 0), cmp a b < 0
  | [], _, _, _, hb => by simp at hb
  | x :: rest, hsub, hs, b, hb => by
      rw [dropWhile_cons] at hb
      obtain ⟨hax, hrest⟩ := pairwise_cons.1 hs
      split_ifs at hb with hne
      · refine lt_of_mem_dropWhile h ha (fun b hb => hsub b (mem_cons_of_mem _ hb)) ?_ b hb
        exact pairwise_cons.2 ⟨fun b hb => hax b (mem_cons_of_mem _ hb),
          (pairwise_cons.1 hrest).2⟩
      have hx := hsub x mem_cons_self
      have hlt : cmp a x < 0 := by
        have h1 := hax x mem_cons_self
        have h2 := h.opposite x hx a ha
        have h3 : cmp a x ≠ 0 := by simpa using hne
        omega
      rcases mem_cons.1 hb with rfl | hb
      · exact hlt
      have hb' := hsub b (mem_cons_of_mem _ hb)
      have hxb := (pairwise_cons.1 hrest).1 b hb
      have hop := h.opposite b hb' x hx
      rcases Int.lt_trichotomy (cmp x b) 0 with hc | hc | hc
      · exact h.lt_trans a ha x hx b hb' hlt hc
      · exact h.lt_of_lt_of_eq ha hx hb' hlt hc
      · exact absurd (hop.2 hc) hxb

/-- **The runs of a list sorted by a consistent comparison are its classes of equal members.** -/
theorem grouped (h : Consistent cmp l) : ∀ (n : Nat) (l' : List α), l'.length ≤ n →
    (∀ a ∈ l', a ∈ l) → SortedBy cmp l' → Grouped cmp (equalRuns cmp n l')
  | 0, [], _, _, _ => ⟨fun _ hr => (by cases hr), .nil⟩
  | 0, _ :: _, hn, _, _ => absurd hn (by simp)
  | _ + 1, [], _, _, _ => ⟨fun _ hr => (by cases hr), .nil⟩
  | n + 1, a :: rest, hn, hsub, hs => by
      have ha := hsub a mem_cons_self
      have hdrop : ∀ b ∈ rest.dropWhile (fun b => cmp a b == 0), b ∈ rest :=
        fun b hb => (dropWhile_sublist _).subset hb
      have hlen : (rest.dropWhile fun b => cmp a b == 0).length ≤ rest.length :=
        (dropWhile_sublist _).length_le
      rw [length_cons] at hn
      have hrest : ∀ b ∈ rest, b ∈ l := fun b hb => hsub b (mem_cons_of_mem _ hb)
      have hs' : SortedBy cmp (rest.dropWhile fun b => cmp a b == 0) :=
        List.Pairwise.sublist (dropWhile_sublist _) (pairwise_cons.1 hs).2
      have ih := grouped h n _ (by omega) (fun b hb => hrest b (hdrop b hb)) hs'
      -- a member of the first run is equal to `a`
      have hrun : ∀ b ∈ a :: rest.takeWhile (fun b => cmp a b == 0), b ∈ l ∧ cmp a b = 0 := by
        intro b hb
        rcases mem_cons.1 hb with rfl | hb
        · exact ⟨ha, h.eq_refl _ ha⟩
        · exact ⟨hrest b ((takeWhile_sublist _).subset hb),
            by simpa using all_eq_true.1 all_takeWhile b hb⟩
      refine ⟨?_, pairwise_cons.2 ⟨?_, ih.apart⟩⟩
      · intro run hr b hb c hc
        rcases mem_cons.1 hr with rfl | hr
        · obtain ⟨hbl, hab⟩ := hrun b hb
          obtain ⟨hcl, hac⟩ := hrun c hc
          exact h.eq_trans b hbl a ha c hcl (h.eq_symm a ha b hbl hab) hac
        · exact ih.equal run hr b hb c hc
      intro run hr b hb c hc heq
      obtain ⟨hbl, hab⟩ := hrun b hb
      have hmem := mem_of_mem_run (by omega) hr hc
      have hac := h.lt_of_mem_dropWhile ha hrest hs c hmem
      have := h.eq_trans a ha b hbl c (hrest c (hdrop c hmem)) hab heq
      omega

end Consistent

end Base
