/-
  File:      MegaSdk/Base/Forest.lean
  Subject:   SUMS KEPT ALONG PARENT POINTERS. No program fact.

  A forest is given by its parent pointers `par` and its lists of children `kids`. Every node carries a
  value `c`, which is meant to be its own weight `w` and the values of its children.

  * `Ranked` -- the parent pointers run into no cycle; `Ranked.climb` and `Ranked.descend` are the
    inductions towards the root and towards the leaves, on a finite set of nodes;
  * `chain` -- a node and its ancestors, with fuel; `Ends` says that the fuel suffices;
  * `defect` -- by how much a value differs from what it is meant to be; adding along a chain moves the
    defect of its first node and no other (`defect_addAll_chain`).
-/
import Mathlib

namespace Base

open List Function

variable {α M : Type*}
variable {par : α → Option α} {K : Finset α} {o : Option α} {f : Nat} {a b : α} {kids : α → List α}
  {w c : α → M} {P : Nat → α → Prop}

/-! ## 1. Parent pointers without a cycle -/

/-- A rank falls along the parent pointers. -/
def Ranked (par : α → Option α) : Prop :=
  ∃ rank : α → Nat, ∀ k p, par k = some p → rank p < rank k

/-- `P f a` from `P` of what `R` leads to with less fuel, from the size of the set on. -/
theorem fuel_induction {β : Type*} [LinearOrder β] {rank : α → β} {R : α → α → Prop}
    (hrank : ∀ a b, R a b → rank b < rank a) (hK : ∀ a b, R a b → b ∈ K) {P : Nat → α → Prop}
    (hs : ∀ f a, (∀ b, R a b → P f b) → P (f + 1) a) : ∀ a ∈ K, ∀ f, K.card ≤ f → P f a := by
  -- the nodes of no higher rank than `a` bound the fuel that `a` needs
  suffices hlow : ∀ f, ∀ a ∈ K, (K.filter (rank · ≤ rank a)).card ≤ f → P f a by
    intro a ha f hf
    exact hlow f a ha ((Finset.card_filter_le _ _).trans hf)
  intro f
  induction f with
  | zero =>
    intro a ha hf
    have hmem : a ∈ K.filter (rank · ≤ rank a) := Finset.mem_filter.2 ⟨ha, le_rfl⟩
    exact absurd (Finset.card_pos.2 ⟨a, hmem⟩) (by omega)
  | succ f ih =>
    intro a ha hf
    refine hs f a fun b hb => ih b (hK a b hb) ?_
    have hlt := hrank a b hb
    have hsub : K.filter (rank · ≤ rank b) ⊂ K.filter (rank · ≤ rank a) := by
      refine Finset.ssubset_iff_subset_ne.2 ⟨fun x hx => ?_, fun he => ?_⟩
      · obtain ⟨hx, hle⟩ := Finset.mem_filter.1 hx
        exact Finset.mem_filter.2 ⟨hx, hle.trans hlt.le⟩
      · have hmem : a ∈ K.filter (rank · ≤ rank b) := he ▸ Finset.mem_filter.2 ⟨ha, le_rfl⟩
        exact absurd (Finset.mem_filter.1 hmem).2 hlt.not_ge
    have := Finset.card_lt_card hsub
    omega

theorem Ranked.climb (h : Ranked par) (hK : ∀ k p, par k = some p → p ∈ K)
    (hs : ∀ f a, (∀ p, par a = some p → P f p) → P (f + 1) a) :
    ∀ a ∈ K, ∀ f, K.card ≤ f → P f a := by
  obtain ⟨rank, hrank⟩ := h
  exact fuel_induction hrank hK hs

theorem Ranked.descend (h : Ranked par) (hK : ∀ k p, par k = some p → k ∈ K)
    (hs : ∀ f a, (∀ k, par k = some a → P f k) → P (f + 1) a) :
    ∀ a ∈ K, ∀ f, K.card ≤ f → P f a := by
  obtain ⟨rank, hrank⟩ := h
  have hdual : ∀ a k, par k = some a → OrderDual.toDual (rank k) < OrderDual.toDual (rank a) :=
    fun a k => hrank k a
  exact fuel_induction hdual (fun a k => hK k a) hs

/-! ## 2. The chain of ancestors -/

/-- A node and its ancestors, as far as the fuel reaches. -/
def chain (par : α → Option α) : Nat → Option α → List α
  | 0, _ => []
  | _ + 1, none => []
  | f + 1, some a => a :: chain par f (par a)

/-- The fuel reaches beyond the root. -/
def Ends (par : α → Option α) : Nat → Option α → Prop
  | _, none => True
  | 0, some _ => False
  | f + 1, some a => Ends par f (par a)

theorem Ranked.ends (h : Ranked par) (hK : ∀ k p, par k = some p → p ∈ K)
    (ho : ∀ a, o = some a → a ∈ K) (hf : K.card ≤ f) : Ends par f o := by
  cases o with
  | none => cases f <;> trivial
  | some a =>
    refine h.climb hK (P := fun f a => Ends par f (some a)) (fun f a ih => ?_) a (ho a rfl) f hf
    show Ends par f (par a)
    cases hp : par a with
    | none => cases f <;> trivial
    | some p => exact ih p hp

theorem chain_none (par : α → Option α) (f) : chain par f none = [] := by
  cases f <;> rfl

theorem rank_le_of_mem_chain {rank : α → Nat} (hrank : ∀ k p, par k = some p → rank p < rank k)
    (hb : b ∈ chain par f (some a)) : rank b ≤ rank a := by
  induction f generalizing a with
  | zero => cases hb
  | succ f ih =>
    rcases mem_cons.1 hb with rfl | hb
    · exact le_rfl
    cases hp : par a with
    | none =>
      rw [hp, chain_none] at hb
      cases hb
    | some p =>
      rw [hp] at hb
      exact (ih hb).trans (hrank a p hp).le

theorem Ranked.not_mem_chain (h : Ranked par) : a ∉ chain par f (par a) := by
  obtain ⟨rank, hrank⟩ := h
  intro ha
  cases hp : par a with
  | none =>
    rw [hp, chain_none] at ha
    cases ha
  | some p =>
    rw [hp] at ha
    have := rank_le_of_mem_chain hrank ha
    have := hrank a p hp
    omega

theorem chain_eq_of_ends {g : Nat} (hf : Ends par f o) (hg : Ends par g o) :
    chain par f o = chain par g o := by
  induction f generalizing g o with
  | zero =>
    cases o with
    | none => rw [chain_none, chain_none]
    | some a => exact hf.elim
  | succ f ih =>
    cases o with
    | none => rw [chain_none, chain_none]
    | some a =>
      cases g with
      | zero => exact hg.elim
      | succ g => exact congrArg (a :: ·) (ih hf hg)

/-- What is in a chain is its first node or the parent of another. -/
theorem mem_chain_cases (ha : a ∈ chain par f (some b)) : a = b ∨ ∃ k, par k = some a := by
  induction f generalizing b with
  | zero => cases ha
  | succ f ih =>
    rcases mem_cons.1 ha with rfl | ha
    · exact .inl rfl
    cases hp : par b with
    | none =>
      rw [hp, chain_none] at ha
      cases ha
    | some p =>
      rw [hp] at ha
      rcases ih ha with rfl | hk
      · exact .inr ⟨b, hp⟩
      · exact .inr hk

/-! ## 3. Moving a subtree -/

theorem Ranked.mono {par' : α → Option α} (h : Ranked par)
    (hsub : ∀ k p, par' k = some p → par k = some p) : Ranked par' := by
  obtain ⟨rank, hrank⟩ := h
  exact ⟨rank, fun k p hp => hrank k p (hsub k p hp)⟩

section Move

variable [DecidableEq α]

/-- The subtree of `n` may go below `p` if `n` is not among the ancestors of `p`. -/
theorem Ranked.update (h : Ranked par) {n : α} (hends : ∀ a, Ends par f (some a))
    (ho : n ∉ chain par f o) : Ranked (Function.update par n o) := by
  obtain ⟨rank, hrank⟩ := h
  -- below `n` every rank is raised above that of the new parent
  refine ⟨fun k => if n ∈ chain par f (some k) then rank k + o.elim 0 (rank · + 1) else rank k,
    fun k p hp => ?_⟩
  dsimp only
  by_cases hkn : k = n
  · subst hkn
    rw [update_self] at hp
    subst hp
    have hself : k ∈ chain par f (some k) := by
      cases f with
      | zero => exact (hends k).elim
      | succ f => exact mem_cons_self ..
    rw [if_neg ho, if_pos hself]
    show rank p < rank k + (rank p + 1)
    omega
  rw [update_of_ne hkn] at hp
  have hlt := hrank k p hp
  have hiff : n ∈ chain par f (some k) ↔ n ∈ chain par f (some p) := by
    cases f with
    | zero => exact (hends k).elim
    | succ f =>
      have hk : chain par (f + 1) (some k) = k :: chain par f (some p) := by
        rw [← hp]
        rfl
      have hpends : Ends par f (some p) := by
        rw [← hp]
        exact hends k
      rw [hk, mem_cons, chain_eq_of_ends hpends (hends p)]
      exact or_iff_right fun he => hkn he.symm
  by_cases hn : n ∈ chain par f (some k)
  · rw [if_pos hn, if_pos (hiff.1 hn)]
    omega
  · rwa [if_neg hn, if_neg fun he => hn (hiff.2 he)]

end Move

theorem chain_update [DecidableEq α] {n : α} (hn : n ∉ chain par f o) (p : Option α) :
    chain (Function.update par n p) f o = chain par f o := by
  induction f generalizing o with
  | zero => rfl
  | succ f ih =>
    cases o with
    | none => rfl
    | some a =>
      have hne : a ≠ n := fun he => hn (he ▸ mem_cons_self ..)
      have htail : n ∉ chain par f (par a) := fun he => hn (mem_cons_of_mem _ he)
      show a :: chain (update par n p) f (update par n p a) = _
      rw [update_of_ne hne, ih htail]
      rfl

/-! ## 4. The defect -/

section Defect

variable [AddCommGroup M]

/-- By how much the value of `a` exceeds its own weight and the values of its children. -/
def defect (kids : α → List α) (w c : α → M) (a : α) : M := c a - (w a + ((kids a).map c).sum)

theorem defect_eq_zero : defect kids w c a = 0 ↔ c a = w a + ((kids a).map c).sum := by
  exact sub_eq_zero

variable [DecidableEq α]

theorem sum_map_update {l : List α} (hl : l.Nodup) (c) (b) (v : M) :
    (l.map (Function.update c b v)).sum = (l.map c).sum + if b ∈ l then v - c b else 0 := by
  induction l with
  | nil => simp
  | cons a l ih =>
    rw [nodup_cons] at hl
    rw [map_cons, sum_cons, map_cons, sum_cons, ih hl.2]
    by_cases hab : a = b
    · subst hab
      rw [update_self, if_neg hl.1, if_pos (mem_cons_self ..)]
      abel
    have hmem : b ∈ a :: l ↔ b ∈ l := by
      rw [mem_cons]
      exact or_iff_right fun he => hab he.symm
    rw [update_of_ne hab]
    simp only [hmem]
    abel

theorem defect_update {v : M} (hk : (kids a).Nodup) :
    defect kids w (Function.update c b v) a =
      defect kids w c a + (if a = b then v - c b else 0) - if b ∈ kids a then v - c b else 0 := by
  unfold defect
  rw [sum_map_update hk]
  by_cases hab : a = b
  · subst hab
    rw [update_self, if_pos rfl]
    abel
  · rw [update_of_ne hab, if_neg hab]
    abel

/-- Add `d` to the values of the nodes of a list. -/
def addAll (l : List α) (d : M) (c : α → M) : α → M := fun a => if a ∈ l then c a + d else c a

theorem addAll_nil (d : M) (c : α → M) : addAll [] d c = c := by
  funext a
  exact if_neg not_mem_nil

theorem addAll_cons {l : List α} (hb : b ∉ l) (d : M) (c) :
    addAll (b :: l) d c = addAll l d (Function.update c b (c b + d)) := by
  funext a
  unfold addAll
  by_cases hab : a = b
  · subst hab
    rw [if_pos (mem_cons_self ..), if_neg hb, update_self]
  have hmem : a ∈ b :: l ↔ a ∈ l := by
    rw [mem_cons]
    exact or_iff_right hab
  rw [update_of_ne hab]
  simp [hmem]

/-- **Adding along a chain of ancestors changes the defect of its first node and no other.** -/
theorem defect_addAll_chain (hk : ∀ a k, k ∈ kids a ↔ par k = some a) (hn : ∀ a, (kids a).Nodup)
    (hr : Ranked par) (hf : Ends par f o) (d : M) (c) (a) :
    defect kids w (addAll (chain par f o) d c) a =
      defect kids w c a + if o = some a then d else 0 := by
  induction f generalizing o c with
  | zero =>
    cases o with
    | none => rw [chain_none, addAll_nil, if_neg (by simp), add_zero]
    | some b => exact hf.elim
  | succ f ih =>
    cases o with
    | none => rw [chain_none, addAll_nil, if_neg (by simp), add_zero]
    | some b =>
      show defect kids w (addAll (b :: chain par f (par b)) d c) a = _
      rw [addAll_cons hr.not_mem_chain, ih hf, defect_update (hn a)]
      have hb : b ∈ kids a ↔ par b = some a := hk a b
      have hab : a = b ↔ some b = some a := by
        rw [Option.some.injEq]
        exact eq_comm
      simp only [hb, hab, add_sub_cancel_left]
      abel

end Defect

end Base
