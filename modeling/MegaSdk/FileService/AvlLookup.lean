/-
  File:      MegaSdk/FileService/AvlLookup.lean
  Subject:   LOOKING UP AND WALKING THE AVL TREE (`avl_tree.h`, `avl_tree_iterator.h`).

  * `next` -- `++iterator`: down to the first node of the right subtree, or up to the first node
    reached from the left;
  * `upperBound_spec`, `lowerBound_spec`, `next_spec` -- the same on the list of nodes in order: the
    first one with a larger key, the first one with no smaller key, the one that follows;
  * `removeIterator_spec` -- and `remove(iterator)` takes one node out of the list.
-/
import MegaSdk.FileService.AvlRuns

namespace MegaSdk.FileService.AVLTree

open List

variable {K V M : Type} (tr : Traits K V M) (T : AVLTree V M)

/-! ## 1. The code -/

section Code

variable [LinearOrder K]

def upperBoundLoop (key : K) : Nat → Option Addr → Option Addr → Option (Option Addr)
  | _, none, candidate => some candidate
  | 0, some _, _ => none
  | n + 1, some node, candidate =>
    let relationship := compare key (tr.key (T.mem.value node))
    let candidate := if relationship < 0 then some node else candidate
    upperBoundLoop key n (T.mem.child node (decide (relationship ≥ 0))) candidate

/-- `upper_bound`: the first node greater than `key`. -/
def upperBound (key : K) : Option (Option Addr) := upperBoundLoop tr T key T.mSize T.mRoot none

def lowerBoundLoop (key : K) : Nat → Option Addr → Option Addr → Option (Option Addr)
  | _, none, candidate => some candidate
  | 0, some _, _ => none
  | n + 1, some node, candidate =>
    let relationship := compare key (tr.key (T.mem.value node))
    if relationship = 0 then some (some node)
    else
      let candidate := if relationship < 0 then some node else candidate
      lowerBoundLoop key n (T.mem.child node (decide (relationship > 0))) candidate

/-- `lower_bound`: the first node not less than `key`. -/
def lowerBound (key : K) : Option (Option Addr) := lowerBoundLoop tr T key T.mSize T.mRoot none

end Code

/-- `for (; node; node = LT::left(*node)) mNode = node;`. -/
def leftmost (h : Memory V M) : Nat → Addr → Option Addr
  | 0, _ => none
  | n + 1, node =>
    match h.child node false with
    | none => some node
    | some left => leftmost h n left

/-- The upward loop of `next`. -/
def climb (h : Memory V M) : Nat → Addr → Option (Option Addr)
  | 0, _ => none
  | n + 1, node =>
    match h.parent node with
    | none => some none
    | some parent => if h.child parent true ≠ some node then some (some parent) else climb h n parent

def next (node : Addr) : Option (Option Addr) :=
  match T.mem.child node true with
  | some right => (leftmost T.mem T.mSize right).map some
  | none => climb T.mem T.mSize node

open Base Base.BinTree Base.Zipper

/-! ## 2. Searches -/

section Search

variable {T}

/-- A search that goes left at a node that passes a test and right at another finds the first one
    that passes, if all that follow it do; it may stop at a node before which none passes. -/
theorem search_spec {p q : Addr → Bool}
    {g : Nat → Option Addr → Option Addr → Option (Option Addr)}
    (hnil : ∀ n c, g n none c = some c)
    (hstop : ∀ n a c, p a = true → q a = true → g (n + 1) (some a) c = some (some a))
    (hleft : ∀ n a c, p a = true → q a = false →
      g (n + 1) (some a) c = g n (T.mem.child a false) (some a))
    (hright : ∀ n a c, p a = false → g (n + 1) (some a) c = g n (T.mem.child a true) c)
    {t : BinTree Addr} {par : Option Addr} {n : Nat} {c : Option Addr} (hs : Sound tr T.mem par t)
    (ho : t.toList.Pairwise fun a b => (p a = true → p b = true) ∧ (q b = true → p a = false))
    (hn : t.height ≤ n) : g n t.root c = some ((t.toList.find? p).or c) := by
  induction t generalizing par n c with
  | nil => exact hnil n c
  | node l a r ihl ihr =>
    obtain ⟨hj, -, hl, hr⟩ := hs
    obtain ⟨ol, oar, hla⟩ := pairwise_append.1 ho
    have hbefore : (∀ b ∈ l.toList, p b = false) → l.toList.find? p = none := fun h =>
      find?_eq_none.2 fun b hb => by simp [h b hb]
    have el : T.mem.child a false = l.root := hj.here
    have er : T.mem.child a true = r.root := hj.there
    have hn' : max l.height r.height + 1 ≤ n := hn
    obtain ⟨n, rfl⟩ : ∃ m, n = m + 1 := ⟨n - 1, by omega⟩
    show g (n + 1) (some a) c = _
    rw [BinTree.toList, find?_append]
    cases hp : p a with
    | true =>
      rw [find?_cons_of_pos hp]
      cases hq : q a with
      | true =>
        rw [hstop n a c hp hq, hbefore fun b hb => (hla b hb a mem_cons_self).2 hq]
        rfl
      | false =>
        rw [hleft n a c hp hq, el, ihl hl ol (by omega)]
        cases l.toList.find? p <;> rfl
    | false =>
      rw [hright n a c hp, er, ihr hr (pairwise_cons.1 oar).2 (by omega), hbefore fun b hb => ?_,
        find?_cons_of_neg (by simp [hp])]
      · rfl
      · exact Bool.eq_false_iff.2 fun hb' => by simp [(hla b hb a mem_cons_self).1 hb'] at hp

variable [LinearOrder K]

/-- **`upper_bound`** is the first node in order with a larger key. -/
theorem upperBound_spec {t : BinTree Addr} (hT : Represents tr T t) (ho : Ordered tr T t) (key : K) :
    T.upperBound tr key = some (t.toList.find? fun a => decide (key < keyOf tr T a)) := by
  have hh := height_le_length t
  unfold upperBound
  rw [hT.root, search_spec tr (g := upperBoundLoop tr T key)
    (q := fun _ => false) (fun n c => by cases n <;> rfl)
    nofun (fun n a c hk _ => ?_) (fun n a c hk => ?_) hT.sound
    (ho.imp fun hab => ⟨fun hk => ?_, nofun⟩) (by rw [hT.size]; exact hh), Option.or_none]
  · show upperBoundLoop tr T key n (T.mem.child a (decide (compare key (keyOf tr T a) ≥ 0)))
      (if compare key (keyOf tr T a) < 0 then some a else c) = _
    rw [compare_lt (of_decide_eq_true hk)]
    rfl
  · show upperBoundLoop tr T key n (T.mem.child a (decide (compare key (keyOf tr T a) ≥ 0)))
      (if compare key (keyOf tr T a) < 0 then some a else c) = _
    rcases lt_or_eq_of_le (not_lt.1 (of_decide_eq_false hk)) with h | h
    · rw [compare_gt h]
      rfl
    · rw [h, compare_self]
      rfl
  · exact decide_eq_true ((of_decide_eq_true hk).trans hab)

/-- **`lower_bound`** is the first node in order with no smaller key. -/
theorem lowerBound_spec {t : BinTree Addr} (hT : Represents tr T t) (ho : Ordered tr T t) (key : K) :
    T.lowerBound tr key = some (t.toList.find? fun a => decide (key ≤ keyOf tr T a)) := by
  have hh := height_le_length t
  have hstep : ∀ n a c, lowerBoundLoop tr T key (n + 1) (some a) c =
      if compare key (keyOf tr T a) = 0 then some (some a)
      else lowerBoundLoop tr T key n (T.mem.child a (decide (compare key (keyOf tr T a) > 0)))
        (if compare key (keyOf tr T a) < 0 then some a else c) := fun _ _ _ => rfl
  unfold lowerBound
  rw [hT.root, search_spec tr (g := lowerBoundLoop tr T key)
    (q := fun a => decide (key = keyOf tr T a))
    (fun n c => by cases n <;> rfl) (fun n a c _ hk => ?_) (fun n a c hk hne => ?_)
    (fun n a c hk => ?_) hT.sound (ho.imp fun hab => ⟨fun hk => ?_, fun hk => ?_⟩)
    (by rw [hT.size]; exact hh), Option.or_none]
  · rw [hstep, of_decide_eq_true hk, compare_self, if_pos rfl]
  · rw [hstep, compare_lt (lt_of_le_of_ne (of_decide_eq_true hk) (of_decide_eq_false hne))]
    rfl
  · rw [hstep, compare_gt (not_le.1 (of_decide_eq_false hk))]
    rfl
  · exact decide_eq_true ((of_decide_eq_true hk).trans hab.le)
  · rw [of_decide_eq_true hk]
    exact decide_eq_false (not_le.2 hab)

end Search

/-! ## 3. The next node -/

section Next

variable {T}

theorem leftmost_spec : ∀ {t : BinTree Addr} {par : Option Addr} {a : Addr} (n : Nat),
    Sound tr T.mem par t → t.root = some a → t.height ≤ n →
    leftmost T.mem n a = t.toList.head?
  | .nil, _, _, _, _, ha, _ => by cases ha
  | .node l b r, _, _, 0, _, _, hn => absurd hn (by simp [BinTree.height])
  | .node l b r, par, a, n + 1, ⟨hj, _, hl, _⟩, ha, hn => by
      cases ha
      have hn' : max l.height r.height + 1 ≤ n + 1 := hn
      have el : T.mem.child b false = l.root := hj.here
      rw [leftmost, el]
      cases l with
      | nil => rfl
      | node l1 c l2 =>
        show leftmost T.mem n c = _
        rw [leftmost_spec n hl rfl (by omega)]
        simp [BinTree.toList]

theorem climb_spec : ∀ {p : Zipper Addr} {t : BinTree Addr} {a : Addr} (n : Nat),
    Sound tr T.mem none (plug p t) → (plug p t).Balanced → (plug p t).toList.Nodup →
    t.root = some a → p.length < n → climb T.mem n a = some ((after p).head?)
  | _, _, _, 0, _, _, _, _, hn => absurd hn (Nat.not_lt_zero _)
  | [], t, a, n + 1, hs, _, _, ha, _ => by
      cases t with
      | nil => cases ha
      | node l b r =>
        cases ha
        have hp : T.mem.parent a = none := hs.1.parent
        rw [climb, hp]
        rfl
  | f :: p, t, a, n + 1, hs, hb, hnd, ha, hn => by
      obtain ⟨⟨hj, -⟩, hst, -⟩ := sound_plug tr hs hb
      have hpar : T.mem.parent a = some f.label := by
        cases t with
        | nil => cases ha
        | node l b r =>
          cases ha
          exact hst.1.parent
      have hhere : T.mem.child f.label f.side = some a := hj.here.trans ha
      rw [climb, hpar]
      dsimp only
      cases hd : f.side with
      | true =>
        rw [hd] at hhere
        rw [if_neg (by simp [hhere])]
        have ih := climb_spec (t := fork f.side t f.label f.sibling) n hs hb hnd
          (root_fork ..) (by simpa using hn)
        rw [ih]
        simp [Zipper.after, hd]
      | false =>
        have hthere : T.mem.child f.label true = f.sibling.root := by
          have := hj.there
          rwa [hd] at this
        have hne : T.mem.child f.label true ≠ some a := fun e => by
          have hoff := (nodup_plug hnd).2 a (root_mem ha)
          exact hoff (beside_cons.2 (.inr (.inl (root_mem (hthere.symm.trans e)))))
        rw [if_pos hne]
        simp [Zipper.after, hd]

theorem Represents.split {t : BinTree Addr} (hT : Represents tr T t) {l r : List Addr} {a : Addr}
    (ht : t.toList = l ++ a :: r) : ∃ p x y, t = plug p (.node x a y) ∧
      l = before p ++ x.toList ∧ r = y.toList ++ Zipper.after p := by
  obtain ⟨p, x, y, rfl⟩ := exists_plug (a := a) (by rw [ht]; simp)
  have hlist : (plug p (.node x a y)).toList =
      (before p ++ x.toList) ++ a :: (y.toList ++ Zipper.after p) := by
    rw [toList_plug]
    simp [BinTree.toList]
  have hnd := hT.nodup
  rw [hlist] at ht hnd
  obtain ⟨-, h2, h3⟩ := nodup_append.1 hnd
  have hbefore : a ∉ before p ++ x.toList := fun hm => h3 a hm a mem_cons_self rfl
  obtain ⟨e1, -, e2⟩ := (append_cons_inj_of_notMem hbefore (nodup_cons.1 h2).1).1 ht
  exact ⟨p, x, y, rfl, e1.symm, e2.symm⟩

/-- **`++iterator`** goes to the node that follows in order. -/
theorem next_spec {t : BinTree Addr} (hT : Represents tr T t) {l r : List Addr} {a : Addr}
    (ht : t.toList = l ++ a :: r) : T.next a = some r.head? := by
  obtain ⟨p, x, y, rfl, -, rfl⟩ := hT.split tr ht
  obtain ⟨-, ⟨hj, -, -, hy⟩, -⟩ := sound_plug tr hT.sound hT.balanced
  have ey : T.mem.child a true = y.root := hj.there
  have hlen := length_le_plug p (.node x a y)
  have hyh := height_le_length y
  rw [← hT.size] at hlen
  simp only [BinTree.toList, length_append, length_cons] at hlen
  unfold next
  rw [ey]
  cases y with
  | nil =>
    rw [climb_spec tr T.mSize hT.sound hT.balanced hT.nodup rfl (by omega)]
    rfl
  | node y1 b y2 =>
    show (leftmost T.mem T.mSize b).map some = _
    rw [leftmost_spec tr T.mSize hy rfl (by omega), BinTree.toList]
    cases y1.toList <;> rfl

end Next

/-! ## 4. Nodes outside and nodes that leave -/

section Nodes

variable {T}

theorem Represents.construct {t : BinTree Addr} (hT : Represents tr T t) {a : Addr}
    (ha : a ∉ t.toList) (v : V) (m : M) :
    Represents tr { T with mem := T.mem.construct a v m } t := by
  refine ⟨hT.root, hT.size, hT.sound.congr tr fun b hb => ?_, hT.balanced, hT.nodup⟩
  have hne : b ≠ a := fun e => ha (e ▸ hb)
  exact ⟨if_neg hne, if_neg hne, if_neg hne, if_neg hne, if_neg hne⟩

theorem removeIterator_spec {t : BinTree Addr} (hT : Represents tr T t) {l r : List Addr} {a : Addr}
    (ht : t.toList = l ++ a :: r) :
    ∃ T' t', T.removeIterator tr a = some (T', a) ∧ Yields tr T T' (l ++ r) t' := by
  obtain ⟨p, x, y, rfl, rfl, rfl⟩ := hT.split tr ht
  have hlr : before p ++ x.toList ++ (y.toList ++ after p) =
      before p ++ (x.toList ++ y.toList) ++ after p := by
    simp
  obtain ⟨hp, ⟨ja, -⟩, -⟩ := sound_plug tr hT.sound hT.balanced
  obtain ⟨T', t', hrem, hy⟩ := removeLink_spec tr hT
  rw [hlr]
  refine ⟨T', t', ?_, hy⟩
  unfold AVLTree.removeIterator
  rw [ja.parent]
  cases p with
  | nil => exact hrem
  | cons f p =>
    have hoff := (nodup_plug hT.nodup).2 a (root_mem rfl)
    have hside := hp.1.side_eq fun e => hoff (beside_cons.2 (.inr (.inl (root_mem e))))
    simp only [above, hside]
    exact hrem

end Nodes

end MegaSdk.FileService.AVLTree
