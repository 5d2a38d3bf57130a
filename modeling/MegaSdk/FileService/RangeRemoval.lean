/-
  File:      MegaSdk/FileService/RangeRemoval.lean
  Subject:   WHICH RANGES remove(range) TAKES OUT (`FileRangeTree::remove(const FileRange&)`).

  The code looks at the first range that begins in the argument. Where this one ends behind the
  argument nothing goes; else everything goes that begins in it, wherever it ends.

  * `straddles` -- the node crosses the end of the argument;
  * **`removeRange_exact_iff`** -- it takes out what lies within the argument and nothing else
    exactly when no range crosses the argument's end behind one that lies within it.
-/
import MegaSdk.FileService.RangeIndexes

namespace MegaSdk.FileService

open List

open AVLTree (Addr)
open IndexedTree (Step Empty)

namespace IndexedTree

variable {V : Type} [KeyFunction V]

def straddles (F : IndexedTree V) (r : FileRange) (a : Addr) : Bool :=
  decide ((F.rangeOf a).mBegin < r.mEnd ∧ r.mEnd < (F.rangeOf a).mEnd)

/-- `F'` has in both indexes the nodes of `F` that do not lie within `r`, with their ranges. -/
def KeepsOutside (F : IndexedTree V) (r : FileRange) (F' : IndexedTree V) : Prop :=
  F'.mByRangeBegin.nodes = F.mByRangeBegin.nodes.filter (fun a => !F.within r a) ∧
    F'.mByRangeEnd.nodes = F.mByRangeEnd.nodes.filter (fun a => !F.within r a) ∧
    F'.rangeOf = F.rangeOf

end IndexedTree

namespace Indexes

variable {V : Type} [KeyFunction V] {F : IndexedTree V} {l : List Addr} {r : FileRange}

/-- What crosses the argument's end begins in the argument, where a node before it lies within. -/
theorem straddles_mem (h : Indexes F l) {x m z : List Addr} (hl : l = x ++ (m ++ z))
    (hz : ∀ a ∈ z, r.mEnd ≤ (F.rangeOf a).mBegin) {a b : Addr} (ha : a ∈ m)
    (haw : F.within r a = true) (hb : b ∈ l) (hbs : F.straddles r b = true) : b ∈ m := by
  simp only [IndexedTree.within, IndexedTree.straddles, decide_eq_true_eq] at haw hbs
  rw [hl, mem_append, mem_append] at hb
  rcases hb with hb | hb | hb
  · have hap := h.apart
    rw [hl, pairwise_append] at hap
    have h1 := hap.2.2 b hb a (mem_append_left _ ha)
    have h2 := h.nonempty a (hl ▸ mem_append_right _ (mem_append_left _ ha))
    omega
  · exact hb
  · have := hz b hb
    omega

/-- Of the nodes before, in and behind the argument, those are left that begin in it and cross its
end. -/
theorem filter_outside (h : Indexes F l) {x m z : List Addr} (hl : l = x ++ (m ++ z))
    (hx : ∀ a ∈ x, (F.rangeOf a).mBegin < r.mBegin)
    (hm : ∀ a ∈ m, r.mBegin ≤ (F.rangeOf a).mBegin ∧ (F.rangeOf a).mBegin < r.mEnd)
    (hz : ∀ a ∈ z, r.mEnd ≤ (F.rangeOf a).mBegin) :
    l.filter (fun a => !F.within r a) = x ++ (m.filter (F.straddles r) ++ z) := by
  have hxs : x.filter (fun a => !F.within r a) = x := by
    refine filter_eq_self.2 fun a ha => ?_
    have := hx a ha
    simp only [IndexedTree.within, Bool.not_eq_true', decide_eq_false_iff_not]
    omega
  have hzs : z.filter (fun a => !F.within r a) = z := by
    refine filter_eq_self.2 fun a ha => ?_
    have h1 := hz a ha
    have h2 := h.nonempty a (hl ▸ mem_append_right _ (mem_append_right _ ha))
    simp only [IndexedTree.within, Bool.not_eq_true', decide_eq_false_iff_not]
    omega
  have hms : m.filter (fun a => !F.within r a) = m.filter (F.straddles r) := by
    refine filter_congr fun a ha => ?_
    have := hm a ha
    simp only [IndexedTree.within, IndexedTree.straddles, ← decide_not, decide_eq_decide]
    omega
  rw [hl, filter_append, filter_append, hxs, hzs, hms]

/-- The call keeps what does not lie within the argument exactly when nothing crosses its end behind
a node that does. -/
theorem removeRange_keepsOutside (h : Indexes F l) (r : FileRange) :
    ∃ F' i, F.removeRange r = some (F', i) ∧ (F.KeepsOutside r F' ↔
      ¬ ∃ a ∈ l, ∃ b ∈ l, F.within r a = true ∧ F.straddles r b = true) := by
  have hn := h.nodes
  rcases h.removeRange_cases r with ⟨he, hno⟩ | ⟨F', x, m, z, he, hl, hi, hv, hx, hm, hz, a, ha, haw⟩
  · refine ⟨F, none, he, iff_of_true ?_ ?_⟩
    · have hall : l.filter (fun a => !F.within r a) = l :=
        filter_eq_self.2 fun a ha => by rw [hno a ha]; rfl
      exact ⟨by rw [hn.1, hall], by rw [hn.2, hall], rfl⟩
    · rintro ⟨a, ha, -, -, haw, -⟩
      rw [hno a ha] at haw
      cases haw
  refine ⟨F', _, he, ?_⟩
  have hn' := hi.nodes
  have hal : a ∈ l := hl ▸ mem_append_right _ (mem_append_left _ ha)
  unfold IndexedTree.KeepsOutside
  rw [hn.1, hn.2, hn'.1, hn'.2, h.filter_outside hl hx hm hz]
  constructor
  · rintro ⟨heq, -, -⟩ ⟨-, -, b, hb, -, hbs⟩
    have hbm := h.straddles_mem hl hz ha haw hb hbs
    have hnil : m.filter (F.straddles r) = [] :=
      self_eq_append_left.1 (append_cancel_left heq)
    have : b ∈ m.filter (F.straddles r) := mem_filter.2 ⟨hbm, hbs⟩
    rw [hnil] at this
    cases this
  intro hno
  have hnil : m.filter (F.straddles r) = [] := by
    refine filter_eq_nil_iff.2 fun b hb hbs => hno ⟨a, hal, b, ?_, haw, hbs⟩
    exact hl ▸ mem_append_right _ (mem_append_left _ hb)
  rw [hnil]
  exact ⟨rfl, rfl, hv⟩

end Indexes

/-- **In every tree that `add`, `tryAdd` and `remove` build, and for every argument,
`remove(range)`** answers, and it takes out the ranges within the argument and leaves all others in
both indexes exactly when not both some range lies within the argument and some range crosses its
end. -/
theorem removeRange_exact_iff {V : Type} [KeyFunction V] {F₀ F : IndexedTree V} (h₀ : Empty F₀)
    (hrun : Relation.ReflTransGen Step F₀ F) (r : FileRange) :
    ∃ F' i, F.removeRange r = some (F', i) ∧ (F.KeepsOutside r F' ↔
      ¬ ∃ a ∈ F.mByRangeBegin.nodes, ∃ b ∈ F.mByRangeBegin.nodes,
        F.within r a = true ∧ F.straddles r b = true) := by
  obtain ⟨l, h⟩ := exists_indexes h₀ hrun
  rw [h.nodes.1]
  exact h.removeRange_keepsOutside r

/-- From `[0, 4)` and `[4, 8)` the ranges within `[2, 9)` are removed, and no other. -/
theorem removeRange_exact_two : ∃ F, twoRanges = some F ∧
    ∃ F' i, F.removeRange ⟨2, 9⟩ = some (F', i) ∧ F.KeepsOutside ⟨2, 9⟩ F' := by
  obtain ⟨h₀, F, hF, hrun⟩ := twoRanges_run
  obtain ⟨F', i, he, hiff⟩ := removeRange_exact_iff h₀ hrun ⟨2, 9⟩
  exact ⟨F, hF, F', i, he, hiff.2 (twoRanges_all hF (P := fun F =>
    ¬ ∃ a ∈ F.mByRangeBegin.nodes, ∃ b ∈ F.mByRangeBegin.nodes,
      F.within ⟨2, 9⟩ a = true ∧ F.straddles ⟨2, 9⟩ b = true) (by decide +kernel))⟩

/-- From `[0, 4)` and `[4, 8)`, `remove([0, 6))` takes out both, although the second one goes on
behind the argument. -/
theorem removeRange_straddling : (∃ F, twoRanges = some F ∧ Empty noRanges ∧
      Relation.ReflTransGen Step noRanges F) ∧
    (twoRanges.all fun F => decide (F.mByRangeBegin.nodes = [2, 1] ∧ F.rangeOf 1 = ⟨4, 8⟩) &&
      (F.removeRange ⟨0, 6⟩).all fun x =>
        decide (x.1.mByRangeBegin.nodes = [] ∧ x.1.mByRangeEnd.nodes = [])) = true ∧
    (twoRanges.bind fun F => F.removeRange ⟨0, 6⟩).isSome = true := by
  obtain ⟨h₀, F, hF, hrun⟩ := twoRanges_run
  exact ⟨⟨F, hF, h₀, hrun⟩, by decide +kernel, by decide +kernel⟩

end MegaSdk.FileService
