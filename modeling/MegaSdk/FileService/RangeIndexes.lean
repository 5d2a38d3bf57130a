/-
  File:      MegaSdk/FileService/RangeIndexes.lean
  Subject:   FileRangeTree AS THE CODE HAS IT: one set of nodes in two AVL trees
             (`file_range_tree.h`, `file_range_tree_traits.h`, `file_range_tree_node.h`).

  Ranges.lean takes a range tree to be the list of its values. Here are the two indexes behind it,
  and that they agree.

  * `Indexes F l` -- both indexes hold the nodes `l` in this order; their ranges are not empty and
    one behind the other;
  * `contains_eq`, `find_eq`, `link`, `removeIterator` -- what the indexes answer is what the list
    says, and adding and removing keeps them in step;
  * **`indexes_of_run`** -- so it is in every tree that `add`, `tryAdd` and `remove` build.
-/
import MegaSdk.FileService.AvlLookup
import MegaSdk.FileService.Ranges

namespace MegaSdk.FileService

open List Option

open AVLTree (Addr Traits Memory)

variable {x y : List Addr} {a node : Addr} {r : FileRange}

/-! ## 1. The code -/

section Code

variable {V : Type} [KeyFunction V]

def byRangeBegin : Traits Nat V Unit := ⟨fun v => (key v).mBegin, fun _ _ _ => ()⟩

def byRangeEnd : Traits Nat V Unit := ⟨fun v => (key v).mEnd, fun _ _ _ => ()⟩

/-- `FileRangeTree`. The memory of each index has the nodes' links for it, and both have the nodes'
one `mValue`. -/
structure IndexedTree (V : Type) where
  mByRangeEnd : AVLTree V Unit
  mByRangeBegin : AVLTree V Unit

namespace IndexedTree

variable (F : IndexedTree V)

def rangeOf (a : Addr) : FileRange := key (F.mByRangeBegin.mem.value a)

def within (r : FileRange) (a : Addr) : Bool :=
  decide (r.mBegin ≤ (F.rangeOf a).mBegin ∧ (F.rangeOf a).mEnd ≤ r.mEnd)

omit [KeyFunction V] in
def construct (node : Addr) (v : V) : IndexedTree V :=
  { mByRangeEnd := { F.mByRangeEnd with mem := F.mByRangeEnd.mem.construct node v () }
    mByRangeBegin := { F.mByRangeBegin with mem := F.mByRangeBegin.mem.construct node v () } }

/-- Both indexes take a node in; its range is not empty. -/
def link (node : Addr) (range : FileRange) : Option (IndexedTree V × Addr × Bool) :=
  if range.mEnd > range.mBegin then do
    let (begins, iterator, added) ← F.mByRangeBegin.add byRangeBegin node
    if added then
      let (ends, _, added) ← F.mByRangeEnd.add byRangeEnd node
      if added then some (⟨ends, begins⟩, iterator, true) else none
    else none
  else none

/-- `add`: the node is allocated first, `mk range` being its value, and freed when it is not
needed; its range is cut off in place. -/
def add (mk : FileRange → V) (node : Addr) (range : FileRange) :
    Option (IndexedTree V × Addr × Bool) := do
  let F := F.construct node (mk range)
  match ← F.mByRangeEnd.upperBound byRangeEnd range.mBegin with
  | none => F.link node range
  | some iterator =>
    let other := F.rangeOf iterator
    if other.mBegin ≤ range.mBegin then some (F, iterator, false)
    else
      let range := { range with mEnd := min range.mEnd other.mBegin }
      (F.construct node (mk range)).link node range

def tryAdd (mk : FileRange → V) (node : Addr) (range : FileRange) :
    Option (IndexedTree V × Addr × Bool) := do
  match ← F.mByRangeEnd.upperBound byRangeEnd range.mBegin with
  | none => (F.construct node (mk range)).link node range
  | some iterator =>
    let other := F.rangeOf iterator
    if other.mBegin ≤ range.mBegin then some (F, iterator, false)
    else
      let range := { range with mEnd := min range.mEnd other.mBegin }
      (F.construct node (mk range)).link node range

def contains (position : Nat) : Option (Option Addr) := do
  match ← F.mByRangeEnd.upperBound byRangeEnd position with
  | none => some none
  | some iterator => if (F.rangeOf iterator).mBegin > position then some none else some (some iterator)

def find (range : FileRange) : Option (Option Addr × Option Addr) := do
  match ← F.mByRangeEnd.upperBound byRangeEnd range.mBegin with
  | none => some (none, none)
  | some i =>
    if (F.rangeOf i).mBegin ≥ range.mEnd then some (none, none)
    else
      let j ← F.mByRangeBegin.lowerBound byRangeBegin range.mEnd
      some (some i, j)

def removeIterator (iterator : Addr) : Option (IndexedTree V × Option Addr) := do
  let following ← F.mByRangeBegin.next iterator
  let (begins, node) ← F.mByRangeBegin.removeIterator byRangeBegin iterator
  let (ends, _) ← F.mByRangeEnd.removeIterator byRangeEnd node
  some (⟨ends, begins⟩, following)

def removeLoop (last : Option Addr) :
    Nat → IndexedTree V → Option Addr → Option (IndexedTree V × Option Addr)
  | 0, F, first => if first = last then some (F, first) else none
  | n + 1, F, first =>
    if first = last then some (F, first)
    else do
      let (F, first) ← F.removeIterator (← first)
      removeLoop last n F first

def removeBetween (first last : Option Addr) : Option (IndexedTree V × Option Addr) :=
  removeLoop last F.mByRangeBegin.mSize F first

def removeRange (range : FileRange) : Option (IndexedTree V × Option Addr) := do
  match ← F.mByRangeBegin.lowerBound byRangeBegin range.mBegin with
  | none => some (F, none)
  | some first =>
    if (F.rangeOf first).mEnd > range.mEnd then some (F, none)
    else
      let last ← F.mByRangeBegin.lowerBound byRangeBegin range.mEnd
      F.removeBetween (some first) last

def enumerate (last : Option Addr) : Nat → Option Addr → Option (List Addr)
  | 0, first => if first = last then some [] else none
  | n + 1, first =>
    if first = last then some []
    else do
      let a ← first
      let rest ← enumerate last n (← F.mByRangeBegin.next a)
      some (a :: rest)

end IndexedTree

end Code

/-! ## 2. The indexes in step -/

open Base AVLTree

variable {V : Type} [KeyFunction V] {F : IndexedTree V} {l : List Addr} {mk : FileRange → V}
  {p : Nat}

/-- Both indexes hold the nodes `l`, in this order; the ranges of the nodes are not empty and each
ends before the next one begins. -/
structure Indexes (F : IndexedTree V) (l : List Addr) : Prop where
  byBegin : ∃ t, Represents byRangeBegin F.mByRangeBegin t ∧ t.toList = l
  byEnd : ∃ t, Represents byRangeEnd F.mByRangeEnd t ∧ t.toList = l
  value : F.mByRangeEnd.mem.value = F.mByRangeBegin.mem.value
  nonempty : ∀ a ∈ l, (F.rangeOf a).mBegin < (F.rangeOf a).mEnd
  apart : l.Pairwise fun a b => (F.rangeOf a).mEnd ≤ (F.rangeOf b).mBegin

/-- The nodes of a tree, as things with a range: then what Ranges.lean says of lists of values
holds of lists of nodes. -/
abbrev nodeKey (F : IndexedTree V) : KeyFunction Addr := ⟨F.rangeOf⟩

theorem keyOf_byRangeBegin (F : IndexedTree V) (a) :
    keyOf byRangeBegin F.mByRangeBegin a = (F.rangeOf a).mBegin := rfl

namespace Indexes

section

variable (h : Indexes F l)
include h

theorem keyOf_byRangeEnd (a) : keyOf byRangeEnd F.mByRangeEnd a = (F.rangeOf a).mEnd := by
  show (key (F.mByRangeEnd.mem.value a)).mEnd = _
  rw [h.value]
  rfl

theorem nodup : l.Nodup := by
  obtain ⟨t, ht, rfl⟩ := h.byBegin
  exact ht.nodup

theorem apart_nodes : @FileRangeTree.Apart Addr (nodeKey F) 0 l :=
  @FileRangeTree.Apart.mk Addr (nodeKey F) 0 l h.nonempty h.apart

theorem increasing :
    l.Pairwise (fun a b => (F.rangeOf a).mBegin < (F.rangeOf b).mBegin) ∧
      l.Pairwise fun a b => (F.rangeOf a).mEnd < (F.rangeOf b).mEnd := by
  have hi := @FileRangeTree.Apart.increasing Addr (nodeKey F) l 0 h.apart_nodes
  exact ⟨hi.imp And.left, hi.imp And.right⟩

theorem upperBound_eq (p) :
    F.mByRangeEnd.upperBound byRangeEnd p =
      some (@FileRangeTree.endsAfter Addr (nodeKey F) l p).head? := by
  obtain ⟨t, ht, rfl⟩ := h.byEnd
  have ho : Ordered byRangeEnd F.mByRangeEnd t := by
    unfold Ordered
    simp only [h.keyOf_byRangeEnd]
    exact h.increasing.2
  rw [upperBound_spec byRangeEnd ht ho, find?_eq_head?_dropWhile_not]
  simp only [h.keyOf_byRangeEnd]
  congr 3
  funext a
  show (!decide (p < (F.rangeOf a).mEnd)) = decide ((F.rangeOf a).mEnd ≤ p)
  rw [← decide_not]
  simp

theorem lowerBound_eq (p) :
    F.mByRangeBegin.lowerBound byRangeBegin p =
      some (@FileRangeTree.beginsAtOrAfter Addr (nodeKey F) l p).head? := by
  obtain ⟨t, ht, rfl⟩ := h.byBegin
  have ho : Ordered byRangeBegin F.mByRangeBegin t := h.increasing.1
  rw [lowerBound_spec byRangeBegin ht ho, find?_eq_head?_dropWhile_not]
  congr 3
  funext a
  show (!decide (p ≤ (F.rangeOf a).mBegin)) = decide ((F.rangeOf a).mBegin < p)
  rw [← decide_not]
  simp

theorem next_eq (hl : l = x ++ a :: y) : F.mByRangeBegin.next a = some y.head? := by
  obtain ⟨t, ht, rfl⟩ := h.byBegin
  exact next_spec byRangeBegin ht hl

theorem contains_eq (p) :
    F.contains p = some (@FileRangeTree.contains Addr (nodeKey F) l p).head? := by
  unfold IndexedTree.contains FileRangeTree.contains
  rw [h.upperBound_eq p]
  cases @FileRangeTree.endsAfter Addr (nodeKey F) l p with
  | nil => rfl
  | cons a rest =>
    show (if (F.rangeOf a).mBegin > p then some none else some (some a)) =
      some (if (F.rangeOf a).mBegin > p then [] else a :: rest).head?
    split <;> rfl

theorem find_eq (r) :
    F.find r = some ((@FileRangeTree.find Addr (nodeKey F) l r).1.head?,
      (@FileRangeTree.find Addr (nodeKey F) l r).2.head?) := by
  unfold IndexedTree.find FileRangeTree.find
  rw [h.upperBound_eq r.mBegin, h.lowerBound_eq r.mEnd]
  cases @FileRangeTree.endsAfter Addr (nodeKey F) l r.mBegin with
  | nil => rfl
  | cons a rest =>
    show (if (F.rangeOf a).mBegin ≥ r.mEnd then some (none, none) else some (some a, _)) =
      some ((if (F.rangeOf a).mBegin ≥ r.mEnd then _ else _ : List Addr × List Addr).1.head?,
        (if (F.rangeOf a).mBegin ≥ r.mEnd then _ else _ : List Addr × List Addr).2.head?)
    split <;> rfl

theorem ne_head {m z : List Addr} (hl : l = x ++ (a :: m ++ z)) : ¬ some a = z.head? := fun e => by
  have hnd := h.nodup
  rw [hl, nodup_append, cons_append, nodup_cons] at hnd
  exact hnd.2.1.1 (mem_append_right _ (mem_of_head? e.symm))

theorem enumerate_eq (z : List Addr) : ∀ (n : Nat) (a m : List Addr),
    l = a ++ (m ++ z) → m.length ≤ n → F.enumerate z.head? n (m ++ z).head? = some m
  | n, a, [], _, _ => by cases n <;> simp [IndexedTree.enumerate]
  | 0, _, _ :: _, _, hn => absurd hn (by simp)
  | n + 1, a, b :: m, hl, hn => by
      have ih := enumerate_eq z n (a ++ [b]) m (by simp [hl]) (by simpa using hn)
      show F.enumerate z.head? (n + 1) (some b) = _
      rw [IndexedTree.enumerate, if_neg (h.ne_head hl)]
      simp only [bind_eq_bind, bind_some, h.next_eq (y := m ++ z) hl, ih]

end

/-! ## 3. Adding -/

theorem construct_rangeOf_self (F : IndexedTree V) (node) (v : V) :
    (F.construct node v).rangeOf node = key v :=
  congrArg key (if_pos rfl)

theorem construct_rangeOf (F : IndexedTree V) (ha : a ≠ node) (v : V) :
    (F.construct node v).rangeOf a = F.rangeOf a :=
  congrArg key (if_neg ha)

theorem construct (h : Indexes F l) (hn : node ∉ l) (v : V) : Indexes (F.construct node v) l := by
  have hr : ∀ a ∈ l, (F.construct node v).rangeOf a = F.rangeOf a := fun a ha =>
    construct_rangeOf F (ne_of_mem_of_not_mem ha hn) v
  obtain ⟨tb, hb, rfl⟩ := h.byBegin
  obtain ⟨te, he, hte⟩ := h.byEnd
  refine ⟨⟨tb, hb.construct byRangeBegin hn v (), rfl⟩,
    ⟨te, he.construct byRangeEnd (hte ▸ hn) v (), hte⟩, ?_, fun a ha => ?_, ?_⟩
  · show (fun a => if a = node then v else F.mByRangeEnd.mem.value a) = _
    rw [h.value]
    rfl
  · rw [hr a ha]
    exact h.nonempty a ha
  refine h.apart.imp_of_mem fun {a b} ha hb hab => ?_
  rwa [hr a ha, hr b hb]

theorem split_unique {k : Addr → Nat} {n : Nat} {x' y' : List Addr} (he : x ++ y = x' ++ y')
    (h1 : ∀ a ∈ x, k a < n) (h2 : ∀ a ∈ y, n < k a) (h3 : ∀ a ∈ x', k a < n)
    (h4 : ∀ a ∈ y', n < k a) : x = x' ∧ y = y' := by
  have e1 := FileRangeTree.takeWhile_append_eq (f := fun a => decide (k a < n))
    (fun a ha => by simpa using h1 a ha) fun a ha => by simpa using (h2 a ha).le
  have e2 := FileRangeTree.takeWhile_append_eq (f := fun a => decide (k a < n))
    (fun a ha => by simpa using h3 a ha) fun a ha => by simpa using (h4 a ha).le
  rw [he] at e1
  have hx : x = x' := e1.symm.trans e2
  refine ⟨hx, ?_⟩
  rw [hx] at he
  exact append_cancel_left he

omit [KeyFunction V] in
theorem add_between (tr : Traits Nat V Unit) {T : AVLTree V Unit}
    (hT : ∃ t, Represents tr T t ∧ t.toList = x ++ y) (hout : node ∉ x ++ y)
    (hnull : T.mem.child node = fun _ => none)
    (ho : (x ++ y).Pairwise fun a b => keyOf tr T a < keyOf tr T b)
    (hx : ∀ a ∈ x, keyOf tr T a < keyOf tr T node) (hy : ∀ a ∈ y, keyOf tr T node < keyOf tr T a) :
    ∃ T', T.add tr node = some (T', node, true) ∧
      (∃ t, Represents tr T' t ∧ t.toList = x ++ node :: y) ∧ T'.mem.value = T.mem.value := by
  obtain ⟨t, ht, hl⟩ := hT
  rcases add_spec tr ht (by unfold Ordered; rw [hl]; exact ho) (hl ▸ hout) hnull with
    ⟨b, hb, hk, -⟩ | ⟨x', y', T', t', e, h1, h2, hadd, hyields⟩
  · -- the key is new
    rw [hl] at hb
    rcases mem_append.1 hb with hb | hb
    · exact absurd hk (hx b hb).ne
    · exact absurd hk (hy b hb).ne'
  · obtain ⟨rfl, rfl⟩ := split_unique (hl.symm.trans e) hx hy h1 h2
    exact ⟨T', hadd, ⟨t', hyields.represents, hyields.toList⟩, funext hyields.value⟩

/-- **Both indexes take in a new node between `x` and `y`.** -/
theorem link (h : Indexes F l) (hn : node ∉ l) {v : V} (hv : key v = r) (hr : r.mBegin < r.mEnd)
    (hl : l = x ++ y) (hx : ∀ a ∈ x, (F.rangeOf a).mEnd ≤ r.mBegin)
    (hy : ∀ a ∈ y, r.mEnd ≤ (F.rangeOf a).mBegin) :
    ∃ F', (F.construct node v).link node r = some (F', node, true) ∧
      Indexes F' (x ++ node :: y) ∧ F'.rangeOf node = r ∧ ∀ a ∈ l, F'.rangeOf a = F.rangeOf a := by
  subst hl
  have hG := h.construct hn v
  have hself : (F.construct node v).rangeOf node = r := (construct_rangeOf_self F node v).trans hv
  have hother : ∀ a ∈ x ++ y, (F.construct node v).rangeOf a = F.rangeOf a := fun a ha =>
    construct_rangeOf F (ne_of_mem_of_not_mem ha hn) v
  have hnB : (F.construct node v).mByRangeBegin.mem.child node = fun _ => none := if_pos rfl
  have hnE : (F.construct node v).mByRangeEnd.mem.child node = fun _ => none := if_pos rfl
  generalize F.construct node v = G at hG hself hother hnB hnE ⊢
  have hinc := hG.increasing
  have hx' : ∀ a ∈ x, (G.rangeOf a).mBegin < (G.rangeOf a).mEnd ∧ (G.rangeOf a).mEnd ≤ r.mBegin :=
    fun a ha => by
      have hm : a ∈ x ++ y := mem_append_left _ ha
      exact ⟨hG.nonempty a hm, hother a hm ▸ hx a ha⟩
  have hy' : ∀ a ∈ y, (G.rangeOf a).mBegin < (G.rangeOf a).mEnd ∧ r.mEnd ≤ (G.rangeOf a).mBegin :=
    fun a ha => by
      have hm : a ∈ x ++ y := mem_append_right _ ha
      exact ⟨hG.nonempty a hm, hother a hm ▸ hy a ha⟩
  obtain ⟨B, hB, hBt, hBv⟩ := add_between byRangeBegin hG.byBegin hn hnB hinc.1
    (fun a ha => by
      have := hx' a ha
      rw [keyOf_byRangeBegin, keyOf_byRangeBegin, hself]
      omega)
    (fun a ha => by
      have := hy' a ha
      rw [keyOf_byRangeBegin, keyOf_byRangeBegin, hself]
      omega)
  obtain ⟨E, hE, hEt, hEv⟩ := add_between byRangeEnd hG.byEnd hn hnE
    (by simp only [hG.keyOf_byRangeEnd]; exact hinc.2)
    (fun a ha => by
      have := hx' a ha
      rw [hG.keyOf_byRangeEnd, hG.keyOf_byRangeEnd, hself]
      omega)
    (fun a ha => by
      have := hy' a ha
      rw [hG.keyOf_byRangeEnd, hG.keyOf_byRangeEnd, hself]
      omega)
  have hval : ∀ a, (⟨E, B⟩ : IndexedTree V).rangeOf a = G.rangeOf a := fun a =>
    congrArg key (congrFun hBv a)
  refine ⟨⟨E, B⟩, ?_, ⟨hBt, hEt, ?_, ?_, ?_⟩, (hval node).trans hself, fun a ha =>
    (hval a).trans (hother a ha)⟩
  · unfold IndexedTree.link
    rw [if_pos hr, hB]
    simp only [bind_eq_bind, bind_some, if_true, hE]
  · rw [hEv, hBv]
    exact hG.value
  · intro a ha
    rw [hval]
    rcases mem_append.1 ha with ha | ha
    · exact (hx' a ha).1
    rcases mem_cons.1 ha with rfl | ha
    · rwa [hself]
    · exact (hy' a ha).1
  simp only [hval]
  obtain ⟨p1, p2, p3⟩ := pairwise_append.1 hG.apart
  refine pairwise_append.2 ⟨p1, pairwise_cons.2 ⟨fun b hb => ?_, p2⟩, fun a ha b hb => ?_⟩
  · rw [hself]
    exact (hy' b hb).2
  rcases mem_cons.1 hb with rfl | hb
  · rw [hself]
    exact (hx' a ha).2
  · exact p3 a ha b hb

/-- What `add` and `tryAdd` do: the node that has the beginning of `r` is answered, or a new node
is put between the nodes that end before it and the others, with the part of `r` before these. -/
inductive Added (F : IndexedTree V) (l : List Addr) (node : Addr) (r : FileRange) :
    IndexedTree V → Addr → Bool → Prop
  | refused {F' : IndexedTree V} {a : Addr} : a ∈ l → (F.rangeOf a).contains r.mBegin →
      Indexes F' l → (∀ b ∈ l, F'.rangeOf b = F.rangeOf b) → Added F l node r F' a false
  | added {F' : IndexedTree V} {x y : List Addr} : l = x ++ y →
      (∀ a ∈ l, ¬ (F.rangeOf a).contains r.mBegin) →
      (∀ a ∈ x, (F.rangeOf a).mEnd ≤ r.mBegin) → (∀ a ∈ y, r.mBegin < (F.rangeOf a).mBegin) →
      Indexes F' (x ++ node :: y) →
      F'.rangeOf node = ⟨r.mBegin, y.head?.elim r.mEnd fun b => min r.mEnd (F.rangeOf b).mBegin⟩ →
      (∀ b ∈ l, F'.rangeOf b = F.rangeOf b) → Added F l node r F' node true

theorem tryAdd (h : Indexes F l) {mk : FileRange → V} (hmk : ∀ r, key (mk r) = r) (hn : node ∉ l)
    (hr : r.mBegin < r.mEnd) :
    ∃ F' a added, F.tryAdd mk node r = some (F', a, added) ∧ Added F l node r F' a added := by
  obtain ⟨x, hl, hx⟩ : ∃ x, l = x ++ @FileRangeTree.endsAfter Addr (nodeKey F) l r.mBegin ∧
      ∀ a ∈ x, (F.rangeOf a).mEnd ≤ r.mBegin :=
    @FileRangeTree.exists_append_endsAfter Addr (nodeKey F) l r.mBegin
  have hends : ∀ a ∈ @FileRangeTree.endsAfter Addr (nodeKey F) l r.mBegin,
      r.mBegin < (F.rangeOf a).mEnd := fun a ha =>
    @FileRangeTree.mem_endsAfter Addr (nodeKey F) l 0 r.mBegin a h.apart_nodes ha
  have hxn : ∀ a ∈ x, ¬ (F.rangeOf a).contains r.mBegin := fun a ha hc => by
    have h1 := hx a ha
    have h2 := hc.2
    omega
  unfold IndexedTree.tryAdd
  rw [h.upperBound_eq r.mBegin]
  generalize @FileRangeTree.endsAfter Addr (nodeKey F) l r.mBegin = y at hl hends ⊢
  cases y with
  | nil =>
    obtain ⟨F', he, hi, h1, h2⟩ := h.link hn (hmk r) hr hl hx (by simp)
    rw [append_nil] at hl
    exact ⟨F', node, true, he, .added (by rw [append_nil]; exact hl)
      (fun a ha => hxn a (hl ▸ ha)) hx (by simp) hi h1 h2⟩
  | cons a rest =>
    have ha : a ∈ l := by
      rw [hl]
      simp
    by_cases hc : (F.rangeOf a).mBegin ≤ r.mBegin
    · exact ⟨F, a, false, if_pos hc, .refused ha ⟨hc, hends a mem_cons_self⟩ h fun _ _ => rfl⟩
    have hfrom : ∀ b ∈ a :: rest, (F.rangeOf a).mBegin ≤ (F.rangeOf b).mBegin := by
      let _ : KeyFunction Addr := nodeKey F
      have hap := h.apart_nodes
      rw [hl] at hap
      exact (hap.sublist (sublist_append_right x _)).head_le
    obtain ⟨F', he, hi, h1, h2⟩ := h.link (r := ⟨r.mBegin, min r.mEnd (F.rangeOf a).mBegin⟩) hn
      (hmk _) (by simp only; omega) hl hx (fun b hb => by
        have := hfrom b hb
        simp only
        omega)
    refine ⟨F', node, true, (if_neg hc).trans he, .added hl (fun b hb hcb => ?_) hx (fun b hb => ?_)
      hi h1 h2⟩
    · rw [hl] at hb
      rcases mem_append.1 hb with hb | hb
      · exact hxn b hb hcb
      have h3 := hfrom b hb
      have h4 := hcb.1
      omega
    · have := hfrom b hb
      omega

omit [KeyFunction V] in
theorem construct_construct (F : IndexedTree V) (node : Addr) (v w : V) :
    (F.construct node v).construct node w = F.construct node w := by
  have hc : ∀ h : Memory V Unit, (h.construct node v ()).construct node w () = h.construct node w () :=
    fun h => by
      unfold Memory.construct
      congr 1 <;> funext b <;> dsimp only <;> split <;> rfl
  unfold IndexedTree.construct
  rw [hc, hc]

theorem add_eq_tryAdd (F : IndexedTree V) (mk) (node) (r) :
    F.add mk node r = (F.construct node (mk r)).tryAdd mk node r := by
  unfold IndexedTree.add IndexedTree.tryAdd
  rw [construct_construct]

theorem add (h : Indexes F l) (hmk : ∀ r, key (mk r) = r) (hn : node ∉ l) (hr : r.mBegin < r.mEnd) :
    ∃ F' a added, F.add mk node r = some (F', a, added) ∧ Added F l node r F' a added := by
  have hsame : ∀ b ∈ l, (F.construct node (mk r)).rangeOf b = F.rangeOf b := fun b hb =>
    construct_rangeOf F (ne_of_mem_of_not_mem hb hn) _
  obtain ⟨F', a, added, he, ha⟩ := (h.construct hn (mk r)).tryAdd hmk hn hr
  refine ⟨F', a, added, (add_eq_tryAdd F mk node r).trans he, ?_⟩
  cases ha with
  | refused hm hc hi hv =>
    exact .refused hm (hsame a hm ▸ hc) hi fun b hb => (hv b hb).trans (hsame b hb)
  | @added x y hl hfree hx hy hi hself hv =>
    have hxs : ∀ b ∈ x, (F.construct node (mk r)).rangeOf b = F.rangeOf b := fun b hb =>
      hsame b (by rw [hl]; exact mem_append_left _ hb)
    have hys : ∀ b ∈ y, (F.construct node (mk r)).rangeOf b = F.rangeOf b := fun b hb =>
      hsame b (by rw [hl]; exact mem_append_right _ hb)
    refine .added hl (fun b hb => hsame b hb ▸ hfree b hb) (fun b hb => hxs b hb ▸ hx b hb)
      (fun b hb => hys b hb ▸ hy b hb) hi ?_ fun b hb => (hv b hb).trans (hsame b hb)
    rw [hself]
    cases y with
    | nil => rfl
    | cons b y => simp [hys b mem_cons_self]

/-! ## 4. Removing -/

/-- **`remove(iterator)`** takes one node out of both indexes and goes on to the next. -/
theorem removeIterator (h : Indexes F l) (hl : l = x ++ a :: y) :
    ∃ F', F.removeIterator a = some (F', y.head?) ∧ Indexes F' (x ++ y) ∧ F'.rangeOf = F.rangeOf := by
  have hnext := h.next_eq hl
  have hsub : (x ++ y).Sublist l := by
    rw [hl]
    exact (sublist_cons_self a y).append_left x
  obtain ⟨tb, hb, htb⟩ := h.byBegin
  obtain ⟨te, he, hte⟩ := h.byEnd
  obtain ⟨B, tb', hB, hyB⟩ := removeIterator_spec byRangeBegin hb (htb.trans hl)
  obtain ⟨E, te', hE, hyE⟩ := removeIterator_spec byRangeEnd he (hte.trans hl)
  have hval : (⟨E, B⟩ : IndexedTree V).rangeOf = F.rangeOf :=
    funext fun b => congrArg key (hyB.value b)
  refine ⟨⟨E, B⟩, ?_, ⟨⟨tb', hyB.represents, hyB.toList⟩, ⟨te', hyE.represents, hyE.toList⟩, ?_, ?_, ?_⟩,
    hval⟩
  · unfold IndexedTree.removeIterator
    rw [hnext, hB]
    simp [hE]
  · rw [funext hyE.value, funext hyB.value]
    exact h.value
  · rw [hval]
    exact fun b hb => h.nonempty b (hsub.subset hb)
  · rw [hval]
    exact h.apart.sublist hsub

theorem removeLoop (z : List Addr) : ∀ (n : Nat) {F : IndexedTree V} {l : List Addr} (x m : List Addr),
    Indexes F l → l = x ++ (m ++ z) → m.length ≤ n →
    ∃ F', IndexedTree.removeLoop z.head? n F (m ++ z).head? = some (F', z.head?) ∧
      Indexes F' (x ++ z) ∧ F'.rangeOf = F.rangeOf
  | n, F, l, x, [], h, hl, _ => by
      refine ⟨F, ?_, hl ▸ h, rfl⟩
      cases n <;> simp [IndexedTree.removeLoop]
  | 0, _, _, _, _ :: _, _, _, hn => absurd hn (by simp)
  | n + 1, F, l, x, a :: m, h, hl, hn => by
      obtain ⟨F₁, he, hi, hv⟩ := h.removeIterator (y := m ++ z) hl
      obtain ⟨F', he', hi', hv'⟩ := removeLoop z n x m hi rfl (by simpa using hn)
      refine ⟨F', ?_, hi', hv'.trans hv⟩
      show IndexedTree.removeLoop z.head? (n + 1) F (some a) = _
      rw [IndexedTree.removeLoop, if_neg (h.ne_head hl)]
      simp only [bind_eq_bind, bind_some, he, he']

theorem size_eq (h : Indexes F l) : F.mByRangeBegin.mSize = l.length := by
  obtain ⟨t, ht, rfl⟩ := h.byBegin
  exact ht.size

/-- **`remove(begin, end)`**, where `begin` does not come behind `end`. -/
theorem removeBetween (h : Indexes F l) {m z : List Addr} (hl : l = x ++ (m ++ z)) :
    ∃ F', F.removeBetween (m ++ z).head? z.head? = some (F', z.head?) ∧ Indexes F' (x ++ z) ∧
      F'.rangeOf = F.rangeOf := by
  refine removeLoop z _ x m h hl ?_
  rw [h.size_eq, hl]
  simp only [length_append]
  omega

theorem dropWhile_split {f g : Addr → Bool} (hfg : ∀ a, f a = true → g a = true) (l : List Addr) :
    ∃ m, l.dropWhile f = m ++ l.dropWhile g := by
  induction l with
  | nil => exact ⟨[], rfl⟩
  | cons a l ih =>
    cases hf : f a with
    | true =>
      rwa [dropWhile_cons_of_pos hf, dropWhile_cons_of_pos (hfg a hf)]
    | false =>
      rw [dropWhile_cons_of_neg (by simp [hf])]
      exact ⟨_, takeWhile_append_dropWhile.symm⟩

section

variable (h : Indexes F l)
include h

theorem beginsAtOrAfter_split (p) :
    ∃ x, l = x ++ @FileRangeTree.beginsAtOrAfter Addr (nodeKey F) l p ∧
      (∀ a ∈ x, (F.rangeOf a).mBegin < p) ∧
      ∀ a ∈ @FileRangeTree.beginsAtOrAfter Addr (nodeKey F) l p, p ≤ (F.rangeOf a).mBegin :=
  ⟨l.takeWhile fun a => decide ((F.rangeOf a).mBegin < p), takeWhile_append_dropWhile.symm,
    fun a ha => by simpa using mem_takeWhile_imp ha,
    fun a ha => @FileRangeTree.mem_beginsAtOrAfter Addr (nodeKey F) l 0 p a h.apart_nodes ha⟩

/-- The nodes before, in and behind the argument, by where they begin. -/
theorem split_by_begin (hr : r.mBegin ≤ r.mEnd) :
    ∃ x m z, l = x ++ (m ++ z) ∧
      @FileRangeTree.beginsAtOrAfter Addr (nodeKey F) l r.mBegin = m ++ z ∧
      @FileRangeTree.beginsAtOrAfter Addr (nodeKey F) l r.mEnd = z ∧
      (∀ a ∈ x, (F.rangeOf a).mBegin < r.mBegin) ∧
      (∀ a ∈ m, r.mBegin ≤ (F.rangeOf a).mBegin ∧ (F.rangeOf a).mBegin < r.mEnd) ∧
      ∀ a ∈ z, r.mEnd ≤ (F.rangeOf a).mBegin := by
  obtain ⟨x, hx, hxb, hmb⟩ := h.beginsAtOrAfter_split r.mBegin
  obtain ⟨x', hx', hxe, hze⟩ := h.beginsAtOrAfter_split r.mEnd
  obtain ⟨m, hm⟩ : ∃ m, @FileRangeTree.beginsAtOrAfter Addr (nodeKey F) l r.mBegin =
      m ++ @FileRangeTree.beginsAtOrAfter Addr (nodeKey F) l r.mEnd :=
    dropWhile_split (fun a ha => by simp only [decide_eq_true_eq] at ha ⊢; omega) l
  have hxm : x' = x ++ m := by
    have he := hx'.symm.trans (hx.trans (congrArg (x ++ ·) hm))
    rw [← append_assoc] at he
    exact append_cancel_right he
  refine ⟨x, m, _, hx.trans (congrArg (x ++ ·) hm), hm, rfl, hxb, fun a ha => ⟨?_, ?_⟩, hze⟩
  · exact hmb a (hm ▸ mem_append_left _ ha)
  · exact hxe a (hxm ▸ mem_append_right _ ha)

/-- **`remove(range)`** either finds nothing within the argument and leaves the tree as it is, or it
takes out all that begins in the argument, and then one of these lies within it. -/
theorem removeRange_cases (r : FileRange) :
    (F.removeRange r = some (F, none) ∧ ∀ a ∈ l, F.within r a = false) ∨
      ∃ F' x m z, F.removeRange r = some (F', z.head?) ∧ l = x ++ (m ++ z) ∧ Indexes F' (x ++ z) ∧
        F'.rangeOf = F.rangeOf ∧ (∀ a ∈ x, (F.rangeOf a).mBegin < r.mBegin) ∧
        (∀ a ∈ m, r.mBegin ≤ (F.rangeOf a).mBegin ∧ (F.rangeOf a).mBegin < r.mEnd) ∧
        (∀ a ∈ z, r.mEnd ≤ (F.rangeOf a).mBegin) ∧ ∃ a ∈ m, F.within r a = true := by
  obtain ⟨x₀, hx₀, hlow, hup⟩ := h.beginsAtOrAfter_split r.mBegin
  have hrem := h.lowerBound_eq r.mBegin
  cases hc : @FileRangeTree.beginsAtOrAfter Addr (nodeKey F) l r.mBegin with
  | nil =>
    -- nothing begins in or behind the argument
    left
    rw [hc] at hrem hx₀
    refine ⟨?_, fun a ha => ?_⟩
    · unfold IndexedTree.removeRange
      rw [hrem]
      rfl
    have := hlow a (by simpa [hx₀] using ha)
    simp only [IndexedTree.within, decide_eq_false_iff_not]
    omega
  | cons b rest =>
    rw [hc] at hrem hx₀ hup
    have hbl : b ∈ l := hx₀ ▸ mem_append_right _ mem_cons_self
    have hb := h.nonempty b hbl
    have hb' := hup b mem_cons_self
    by_cases hend : (F.rangeOf b).mEnd > r.mEnd
    · -- the first candidate ends behind the argument, and so does every later one
      left
      refine ⟨?_, fun a ha => ?_⟩
      · unfold IndexedTree.removeRange
        rw [hrem]
        exact if_pos hend
      simp only [IndexedTree.within, decide_eq_false_iff_not]
      rw [hx₀, mem_append] at ha
      rcases ha with ha | ha
      · have := hlow a ha
        omega
      rcases mem_cons.1 ha with rfl | ha'
      · omega
      have hap := h.apart
      rw [hx₀, pairwise_append] at hap
      have h1 := (pairwise_cons.1 hap.2.1).1 a ha'
      have h2 := h.nonempty a (hx₀ ▸ mem_append_right _ ha)
      omega
    right
    obtain ⟨x, m, z, hl, hmz, hz, hx, hm, hze⟩ := h.split_by_begin (r := r) (by omega)
    obtain ⟨F', he, hi, hv⟩ := h.removeBetween hl
    have hbm : b ∈ m := by
      have : b ∈ m ++ z := by
        rw [← hmz, hc]
        exact mem_cons_self
      rcases mem_append.1 this with hm' | hz'
      · exact hm'
      · have := hze b hz'
        omega
    refine ⟨F', x, m, z, ?_, hl, hi, hv, hx, hm, hze, b, hbm, ?_⟩
    · unfold IndexedTree.removeRange
      rw [hrem, h.lowerBound_eq r.mEnd, hz]
      rw [← hmz, hc] at he
      exact (if_neg hend).trans he
    · simp only [IndexedTree.within, decide_eq_true_eq]
      omega

theorem removeRange (r) :
    ∃ F' i x m z, F.removeRange r = some (F', i) ∧ l = x ++ (m ++ z) ∧ Indexes F' (x ++ z) := by
  rcases h.removeRange_cases r with ⟨he, -⟩ | ⟨F', x, m, z, he, hl, hi, -⟩
  · exact ⟨F, none, l, [], [], he, by simp, by simpa using h⟩
  · exact ⟨F', _, x, m, z, he, hl, hi⟩

end

end Indexes

/-! ## 5. Runs -/

namespace IndexedTree

def Empty (F : IndexedTree V) : Prop :=
  F.mByRangeBegin.mRoot = none ∧ F.mByRangeBegin.mSize = 0 ∧ F.mByRangeEnd.mRoot = none ∧
    F.mByRangeEnd.mSize = 0 ∧ F.mByRangeEnd.mem.value = F.mByRangeBegin.mem.value

/-- One call. Ranges are not empty; a node is allocated where none is; iterators are of this tree,
`begin` not behind `end`. -/
inductive Step (F F' : IndexedTree V) : Prop
  | add {mk : FileRange → V} {node a : Addr} {r : FileRange} {added : Bool} :
      (∀ r, key (mk r) = r) → node ∉ F.mByRangeBegin.nodes → r.mBegin < r.mEnd →
      F.add mk node r = some (F', a, added) → Step F F'
  | tryAdd {mk : FileRange → V} {node a : Addr} {r : FileRange} {added : Bool} :
      (∀ r, key (mk r) = r) → node ∉ F.mByRangeBegin.nodes → r.mBegin < r.mEnd →
      F.tryAdd mk node r = some (F', a, added) → Step F F'
  | removeIterator {a : Addr} {i : Option Addr} : a ∈ F.mByRangeBegin.nodes →
      F.removeIterator a = some (F', i) → Step F F'
  | removeBetween {x m z : List Addr} {i : Option Addr} :
      F.mByRangeBegin.nodes = x ++ (m ++ z) →
      F.removeBetween (m ++ z).head? z.head? = some (F', i) → Step F F'
  | removeRange {r : FileRange} {i : Option Addr} : r.mBegin < r.mEnd →
      F.removeRange r = some (F', i) → Step F F'

end IndexedTree

open IndexedTree (Step Empty)

theorem IndexedTree.Empty.indexes (h : Empty F) : Indexes F [] := by
  obtain ⟨h1, h2, h3, h4, h5⟩ := h
  exact ⟨⟨.nil, ⟨h1, h2, trivial, trivial, nodup_nil⟩, rfl⟩,
    ⟨.nil, ⟨h3, h4, trivial, trivial, nodup_nil⟩, rfl⟩, h5, by simp, .nil⟩

theorem Indexes.nodes (h : Indexes F l) : F.mByRangeBegin.nodes = l ∧ F.mByRangeEnd.nodes = l := by
  obtain ⟨tb, hb, htb⟩ := h.byBegin
  obtain ⟨te, he, hte⟩ := h.byEnd
  exact ⟨(hb.nodes byRangeBegin).trans htb, (he.nodes byRangeEnd).trans hte⟩

theorem Indexes.Added.indexes {F' : IndexedTree V} {added : Bool}
    (h : Indexes.Added F l node r F' a added) : ∃ l', Indexes F' l' := by
  cases h with
  | refused _ _ hi _ => exact ⟨_, hi⟩
  | added _ _ _ _ hi _ _ => exact ⟨_, hi⟩

theorem Indexes.step {F' : IndexedTree V} (h : Indexes F l) (hs : Step F F') :
    ∃ l', Indexes F' l' := by
  have hnodes := h.nodes.1
  cases hs with
  | add hmk hn hr he =>
    obtain ⟨F₁, a, added, he', ha⟩ := h.add hmk (hnodes ▸ hn) hr
    cases he.symm.trans he'
    exact ha.indexes
  | tryAdd hmk hn hr he =>
    obtain ⟨F₁, a, added, he', ha⟩ := h.tryAdd hmk (hnodes ▸ hn) hr
    cases he.symm.trans he'
    exact ha.indexes
  | removeIterator ha he =>
    obtain ⟨x, y, hl⟩ := append_of_mem (hnodes ▸ ha)
    obtain ⟨F₁, he', hi, -⟩ := h.removeIterator hl
    cases he.symm.trans he'
    exact ⟨_, hi⟩
  | removeBetween hl he =>
    obtain ⟨F₁, he', hi, -⟩ := h.removeBetween (hnodes ▸ hl)
    cases he.symm.trans he'
    exact ⟨_, hi⟩
  | removeRange _ he =>
    obtain ⟨F₁, i, x, m, z, he', -, hi⟩ := h.removeRange _
    cases he.symm.trans he'
    exact ⟨_, hi⟩

theorem exists_indexes {F₀ : IndexedTree V} (h₀ : Empty F₀)
    (hrun : Relation.ReflTransGen Step F₀ F) : ∃ l, Indexes F l :=
  run_inv (fun F => ∃ l, Indexes F l) (fun _ _ ⟨_, hi⟩ hs => hi.step hs) ⟨[], h₀.indexes⟩ hrun

/-- `contains` answers the node whose range has the position. -/
theorem Indexes.contains_iff (h : Indexes F l) (p) :
    (∀ a, F.contains p = some (some a) ↔ a ∈ l ∧ (F.rangeOf a).contains p) ∧
      (F.contains p = some none ↔ ∀ a ∈ l, ¬ (F.rangeOf a).contains p) := by
  rw [h.contains_eq p]
  rcases @FileRangeTree.contains_cases Addr (nodeKey F) l 0 h.apart_nodes p with
    ⟨he, hc⟩ | ⟨b, rest, he, hb, hc⟩
  · rw [he]
    refine ⟨fun a => ⟨fun e => (by cases e), fun ⟨ha, hp⟩ => absurd ⟨a, ha, hp⟩ hc⟩,
      ⟨fun _ a ha hp => hc ⟨a, ha, hp⟩, fun _ => rfl⟩⟩
  rw [he]
  have hbc : (F.rangeOf b).mBegin ≤ p ∧ p < (F.rangeOf b).mEnd := hc
  have uniq : ∀ a ∈ l, (F.rangeOf a).contains p → b = a := fun a ha hp => by
    obtain ⟨x, z, hl⟩ := append_of_mem hb
    have hap := h.apart
    rw [hl] at ha hap
    obtain ⟨-, hbz, hxb⟩ := pairwise_append.1 hap
    obtain ⟨hp1, hp2⟩ := hp
    -- a node before `b` ends before it, a node behind it begins behind it
    rcases mem_append.1 ha with ha | ha
    · have := hxb a ha b mem_cons_self
      omega
    rcases mem_cons.1 ha with rfl | ha
    · rfl
    · have := (pairwise_cons.1 hbz).1 a ha
      omega
  refine ⟨fun a => ⟨fun e => ?_, fun ⟨ha, hp⟩ => by rw [uniq a ha hp]; rfl⟩,
    ⟨fun e => (by cases e), fun hn => absurd hc (hn b hb)⟩⟩
  cases e
  exact ⟨hb, hc⟩

/-- `find` enumerates the nodes whose ranges overlap. -/
theorem Indexes.find_enumerates (h : Indexes F l) (hr : r.mBegin < r.mEnd) :
    ∃ i j, F.find r = some (i, j) ∧ F.enumerate j l.length i =
      some (l.filter fun a => (F.rangeOf a).mBegin < r.mEnd ∧ r.mBegin < (F.rangeOf a).mEnd) := by
  let _ : KeyFunction Addr := nodeKey F
  obtain ⟨x, m, z, hs⟩ := FileRangeTree.split_at h.apart_nodes r.mBegin r.mEnd
  have hfind : FileRangeTree.find l r = _ :=
    FileRangeTree.find_split h.apart_nodes hs hr.le
  have hfilter : l.filter (fun a => (F.rangeOf a).mBegin < r.mEnd ∧ r.mBegin < (F.rangeOf a).mEnd) =
      m := by
    rw [hs.eq, filter_append, filter_append, filter_eq_nil_iff.2, filter_eq_self.2,
      filter_eq_nil_iff.2, nil_append, append_nil]
    all_goals
      intro a ha
      rw [decide_eq_true_eq]
    · have : r.mEnd ≤ (F.rangeOf a).mBegin := hs.behind a ha
      omega
    · exact (hs.overlap a ha).symm
    · have : (F.rangeOf a).mEnd ≤ r.mBegin := hs.before a ha
      omega
  refine ⟨_, _, h.find_eq r, ?_⟩
  rw [hfilter, hfind]
  split
  · rename_i hm
    rw [hm]
    exact h.enumerate_eq [] _ l [] (by simp) (Nat.zero_le _)
  refine h.enumerate_eq z _ x m hs.eq ?_
  rw [hs.eq]
  simp only [length_append]
  omega

/-- **Every tree that `add`, `tryAdd` and `remove` build** has one list of nodes in both indexes,
with ranges that are not empty and one behind the other; `add` and `tryAdd` refuse a range exactly
when a node has its beginning, and answer that node, and else add the part before the next node;
`contains` finds the one node that has a position, `find` enumerates the nodes that overlap a range;
and no call stops at an assertion. -/
theorem indexes_of_run {F₀ : IndexedTree V} (h₀ : Empty F₀)
    (hrun : Relation.ReflTransGen Step F₀ F) :
    ∃ l : List Addr, (F.mByRangeBegin.nodes = l ∧ F.mByRangeEnd.nodes = l ∧ l.Nodup) ∧
      ((∀ a ∈ l, (F.rangeOf a).mBegin < (F.rangeOf a).mEnd ∧
          key (F.mByRangeEnd.mem.value a) = F.rangeOf a) ∧
        l.Pairwise fun a b => (F.rangeOf a).mEnd ≤ (F.rangeOf b).mBegin) ∧
      (∀ (mk : FileRange → V) (node : Addr) (r : FileRange), (∀ r, key (mk r) = r) → node ∉ l →
        r.mBegin < r.mEnd →
        (∃ F' a added, F.add mk node r = some (F', a, added) ∧ Indexes.Added F l node r F' a added) ∧
        ∃ F' a added, F.tryAdd mk node r = some (F', a, added) ∧
          Indexes.Added F l node r F' a added) ∧
      (∀ p, (∀ a, F.contains p = some (some a) ↔ a ∈ l ∧ (F.rangeOf a).contains p) ∧
        (F.contains p = some none ↔ ∀ a ∈ l, ¬ (F.rangeOf a).contains p)) ∧
      (∀ r : FileRange, r.mBegin < r.mEnd → ∃ i j, F.find r = some (i, j) ∧
        F.enumerate j l.length i =
          some (l.filter fun a => (F.rangeOf a).mBegin < r.mEnd ∧ r.mBegin < (F.rangeOf a).mEnd)) ∧
      (∀ a ∈ l, (F.removeIterator a).isSome) ∧
      (∀ x m z, l = x ++ (m ++ z) → (F.removeBetween (m ++ z).head? z.head?).isSome) ∧
      ∀ r : FileRange, r.mBegin < r.mEnd → (F.removeRange r).isSome := by
  obtain ⟨l, h⟩ := exists_indexes h₀ hrun
  refine ⟨l, ⟨h.nodes.1, h.nodes.2, h.nodup⟩, ⟨fun a ha => ⟨h.nonempty a ha, ?_⟩, h.apart⟩,
    fun mk node r hmk hn hr => ⟨h.add hmk hn hr, h.tryAdd hmk hn hr⟩, h.contains_iff,
    fun r hr => h.find_enumerates hr, fun a ha => ?_, fun x m z hl => ?_, fun r _ => ?_⟩
  · rw [h.value]
    rfl
  · obtain ⟨x, y, hl⟩ := append_of_mem ha
    obtain ⟨F', he, -⟩ := h.removeIterator hl
    rw [he]
    rfl
  · obtain ⟨F', he, -⟩ := h.removeBetween hl
    rw [he]
    rfl
  obtain ⟨F', i, x, m, z, he, -⟩ := h.removeRange r
  rw [he]
  rfl

def noRanges : IndexedTree FileRange :=
  ⟨⟨⟨fun _ _ => none, fun _ => none, fun _ => 0, fun _ => {}, fun _ => ()⟩, none, 0⟩,
    ⟨⟨fun _ _ => none, fun _ => none, fun _ => 0, fun _ => {}, fun _ => ()⟩, none, 0⟩⟩

/-- A range is added in front of another one and cut off. -/
def twoRanges : Option (IndexedTree FileRange) := do
  let (F, _, _) ← noRanges.tryAdd id 1 ⟨4, 8⟩
  let (F, _, _) ← F.tryAdd id 2 ⟨0, 6⟩
  some F

theorem twoRanges_run : Empty noRanges ∧
    ∃ F, twoRanges = some F ∧ Relation.ReflTransGen Step noRanges F := by
  have hid : ∀ r : FileRange, key (id r) = r := fun _ => rfl
  have h₀ : Empty noRanges := ⟨rfl, rfl, rfl, rfl, rfl⟩
  obtain ⟨F₁, a₁, b₁, e₁, -⟩ := h₀.indexes.tryAdd hid (r := ⟨4, 8⟩)
    (show (1 : Addr) ∉ [] by simp) (by decide)
  have s₁ : Step noRanges F₁ := .tryAdd hid (by decide +kernel) (by decide) e₁
  obtain ⟨l₁, h₁⟩ := h₀.indexes.step s₁
  have hn : (2 : Addr) ∉ F₁.mByRangeBegin.nodes := by
    have hd : ((noRanges.tryAdd id 1 ⟨4, 8⟩).all fun x => decide (2 ∉ x.1.mByRangeBegin.nodes)) =
        true := by decide +kernel
    rw [e₁] at hd
    simpa using hd
  obtain ⟨F₂, a₂, b₂, e₂, -⟩ := h₁.tryAdd hid (r := ⟨0, 6⟩) (h₁.nodes.1 ▸ hn) (by decide)
  have s₂ : Step F₁ F₂ := .tryAdd hid hn (by decide) e₂
  refine ⟨h₀, F₂, ?_, (Relation.ReflTransGen.single s₁).tail s₂⟩
  unfold twoRanges
  rw [e₁]
  simp [e₂]

theorem twoRanges_all {F : IndexedTree FileRange} (hF : twoRanges = some F)
    {P : IndexedTree FileRange → Prop} [DecidablePred P]
    (hd : (twoRanges.all fun F => decide (P F)) = true) : P F := by
  rw [hF] at hd
  simpa using hd

theorem indexes_of_run_two : ∃ F, twoRanges = some F ∧ F.rangeOf 2 = ⟨0, 4⟩ ∧
    ∃ l, F.mByRangeBegin.nodes = l ∧ F.mByRangeEnd.nodes = l := by
  obtain ⟨h₀, F, hF, hrun⟩ := twoRanges_run
  obtain ⟨l, ⟨hl, hl', -⟩, -⟩ := indexes_of_run h₀ hrun
  exact ⟨F, hF, twoRanges_all hF (P := fun F => F.rangeOf 2 = ⟨0, 4⟩) (by decide +kernel), l, hl, hl'⟩

end MegaSdk.FileService
