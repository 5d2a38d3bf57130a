/-
  File:      MegaSdk/FileService/AvlIterator.lean
  Subject:   THE ITERATORS OF THE AVL TREE (`avl_tree_iterator.h`, `begin`, `end`, `find`).

  An iterator is the node it stands on, `none` being `end()`: it knows nothing of its tree.

  * `mirror` -- the tree with the child pointers exchanged: `previous` in the tree is `next` in its
    mirror, which gives `previous_spec` from `next_spec`;
  * **`iterators_of_run`** -- in every tree of a run of operations the loop visits the nodes in the
    order of their keys, the searches find the first node with no smaller or a larger key, and `--`
    undoes `++` except at `end()`, where it stops at its assertion.
-/
import MegaSdk.FileService.AvlLookup

namespace MegaSdk.FileService.AVLTree

open List

variable {K V M : Type} (tr : Traits K V M) (T : AVLTree V M)

/-! ## 1. The code -/

/-- `for (; node; node = LT::right(*node)) mNode = node;`. -/
def rightmost (h : Memory V M) : Nat → Addr → Option Addr
  | 0, _ => none
  | n + 1, node =>
    match h.child node true with
    | none => some node
    | some right => rightmost h n right

/-- The upward loop of `previous`. -/
def climbBack (h : Memory V M) : Nat → Addr → Option (Option Addr)
  | 0, _ => none
  | n + 1, node =>
    match h.parent node with
    | none => some none
    | some parent =>
      if h.child parent false ≠ some node then some (some parent) else climbBack h n parent

def previous (node : Addr) : Option (Option Addr) :=
  match T.mem.child node false with
  | some left => (rightmost T.mem T.mSize left).map some
  | none => climbBack T.mem T.mSize node

/-- `++iterator`; both steps begin with `assert(mNode)`. -/
def increment (mNode : Option Addr) : Option (Option Addr) := mNode.bind T.next

/-- `--iterator`. -/
def decrement (mNode : Option Addr) : Option (Option Addr) := mNode.bind T.previous

def begin : Option (Option Addr) :=
  match T.mRoot with
  | none => some none
  | some root => (leftmost T.mem T.mSize root).map some

def rbegin : Option (Option Addr) :=
  match T.mRoot with
  | none => some none
  | some root => (rightmost T.mem T.mSize root).map some

def find [LinearOrder K] (key : K) : Option (Option Addr) :=
  (T.findLink tr key).map fun (_, link) => T.read link

def visitLoop : Nat → Option Addr → Option (List Addr)
  | _, none => some []
  | 0, some _ => none
  | n + 1, some node => do
    let i ← T.increment (some node)
    let nodes ← visitLoop n i
    return node :: nodes

def visit : Option (List Addr) := T.begin.bind (T.visitLoop T.mSize)

open Base Base.BinTree Base.Zipper

/-! ## 2. The mirror -/

section Mirror

/-- The memory with the two child pointers of every node exchanged. -/
def Memory.mirror (h : Memory V M) : Memory V M := { h with child := fun a d => h.child a (!d) }

def mirror : AVLTree V M := { T with mem := Memory.mirror T.mem }

/-- Metadata computed with the two sides exchanged. -/
def Traits.mirror : Traits K V M := { tr with update := fun v l r => tr.update v r l }

theorem leftmost_mirror (h : Memory V M) : ∀ (n : Nat) (a : Addr),
    leftmost (Memory.mirror h) n a = rightmost h n a
  | 0, _ => rfl
  | n + 1, a => by
      rw [rightmost]
      show (match h.child a true with
        | none => some a
        | some left => leftmost (Memory.mirror h) n left) = _
      cases h.child a true with
      | none => rfl
      | some b => exact leftmost_mirror h n b

theorem climb_mirror (h : Memory V M) : ∀ (n : Nat) (a : Addr),
    climb (Memory.mirror h) n a = climbBack h n a
  | 0, _ => rfl
  | n + 1, a => by
      rw [climbBack]
      show (match h.parent a with
        | none => some none
        | some b => if h.child b false ≠ some a then some (some b) else climb (Memory.mirror h) n b) = _
      cases h.parent a with
      | none => rfl
      | some b => simp [climb_mirror h]

theorem next_mirror (a : Addr) : T.mirror.next a = T.previous a := by
  unfold next previous
  show (match T.mem.child a false with
    | some right => (leftmost (Memory.mirror T.mem) T.mSize right).map some
    | none => climb (Memory.mirror T.mem) T.mSize a) = _
  cases T.mem.child a false with
  | none => exact climb_mirror T.mem T.mSize a
  | some b =>
    dsimp only
    rw [leftmost_mirror]

variable {T}

theorem Sound.mirror {h : Memory V M} : ∀ {t : BinTree Addr} {par : Option Addr},
    Sound tr h par t → Sound (Traits.mirror tr) (Memory.mirror h) par t.mirror
  | .nil, _, _ => trivial
  | .node l a r, par, ⟨hj, hf, hl, hr⟩ => by
      refine ⟨⟨?_, ?_, hj.parent⟩, ⟨?_, hf.metadata⟩, Sound.mirror hr, Sound.mirror hl⟩
      · rw [root_mirror]
        exact hj.there
      · rw [root_mirror]
        exact hj.here
      · rw [height_mirror, height_mirror, Nat.max_comm]
        exact hf.height

theorem Represents.mirror {t : BinTree Addr} (hT : Represents tr T t) :
    Represents (Traits.mirror tr) T.mirror t.mirror where
  root := by
    rw [root_mirror]
    exact hT.root
  size := by
    rw [toList_mirror, length_reverse]
    exact hT.size
  sound := hT.sound.mirror tr
  balanced := hT.balanced.mirror
  nodup := by
    rw [toList_mirror]
    exact nodup_reverse.2 hT.nodup

end Mirror

/-! ## 3. Steps and searches on the list of nodes -/

section Specs

variable {T}

section

variable {t : BinTree Addr} (hT : Represents tr T t)
include hT

/-- **`--iterator`** goes to the node before. -/
theorem previous_spec {l r : List Addr} {a : Addr}
    (ht : t.toList = l ++ a :: r) : T.previous a = some l.getLast? := by
  have hm : t.mirror.toList = r.reverse ++ a :: l.reverse := by
    rw [toList_mirror, ht]
    simp
  rw [← next_mirror, next_spec (Traits.mirror tr) (hT.mirror tr) hm, head?_reverse]

theorem begin_spec : T.begin = some t.toList.head? := by
  have hh := height_le_length t
  rw [← hT.size] at hh
  unfold begin
  rw [hT.root]
  cases t with
  | nil => rfl
  | node l a r =>
    show (leftmost T.mem T.mSize a).map some = _
    rw [leftmost_spec tr T.mSize hT.sound rfl hh]
    cases hl : (BinTree.node l a r).toList with
    | nil => simp [BinTree.toList] at hl
    | cons b bs => rfl

theorem rbegin_spec : T.rbegin = some t.toList.getLast? := by
  have hm := begin_spec (Traits.mirror tr) (hT.mirror tr)
  rw [toList_mirror, head?_reverse] at hm
  rw [← hm]
  unfold rbegin begin
  show _ = match T.mRoot with
    | none => some none
    | some root => (leftmost (Memory.mirror T.mem) T.mSize root).map some
  cases T.mRoot with
  | none => rfl
  | some root =>
    dsimp only
    rw [leftmost_mirror]

theorem visitLoop_spec : ∀ (r : List Addr) {l : List Addr}
    {n : Nat}, t.toList = l ++ r → r.length ≤ n → T.visitLoop n r.head? = some r
  | [], _, n, _, _ => by cases n <;> rfl
  | a :: r, _, 0, _, hn => absurd hn (Nat.not_succ_le_zero _)
  | a :: r, l, n + 1, ht, hn => by
      have hnext : T.increment (some a) = some r.head? := next_spec tr hT ht
      have hrest := visitLoop_spec r (l := l ++ [a]) (by simp [ht])
        (Nat.le_of_succ_le_succ hn)
      show (T.increment (some a)).bind (fun i => (T.visitLoop n i).bind fun nodes =>
        some (a :: nodes)) = _
      rw [hnext, Option.bind_some, hrest, Option.bind_some]

theorem visit_spec : T.visit = some t.toList := by
  unfold visit
  rw [begin_spec tr hT]
  exact visitLoop_spec tr hT t.toList (l := []) rfl (le_of_eq hT.size.symm)

/-- **`find`** gives the node with the key, `end()` when there is none. -/
theorem find_spec [LinearOrder K] (ho : Ordered tr T t) (key : K) :
    T.find tr key = some (t.toList.find? fun a => decide (keyOf tr T a = key)) := by
  obtain ⟨p, u, rfl, hf, hfind⟩ := findLink_spec tr hT ho key
  unfold find
  rw [hfind]
  show some (T.read (linkIn .root p)) = _
  rw [hT.read tr]
  congr 1
  symm
  cases u with
  | nil =>
    refine find?_eq_none.2 fun b hb => ?_
    rw [mem_plug] at hb
    rcases hb.resolve_left not_mem_nil with hb | hb
    · simpa using ne_of_lt (hf.1 b hb)
    · simpa using ne_of_gt (hf.2 b hb)
  | node l a r =>
    have ha : keyOf tr T a = key := hf
    have hlist : (plug p (.node l a r)).toList =
        (before p ++ l.toList) ++ a :: (r.toList ++ after p) := by
      rw [toList_plug]
      simp [BinTree.toList]
    unfold Ordered at ho
    rw [hlist] at ho ⊢
    -- no node before it has the key
    have hnone : (before p ++ l.toList).find? (fun a => decide (keyOf tr T a = key)) = none :=
      find?_eq_none.2 fun b hb => by
        have hlt := (pairwise_append.1 ho).2.2 b hb a mem_cons_self
        simpa [← ha] using ne_of_lt hlt
    rw [find?_append, hnone, find?_cons_of_pos (by simpa using ha)]
    rfl

end

end Specs

/-! ## 4. Every tree of a run -/

variable {T}

/-- `--` undoes `++`, unless `++` has reached `end()`. -/
theorem decrement_increment {t : BinTree Addr} (hT : Represents tr T t) {a b : Addr}
    (ha : a ∈ t.toList) (hn : T.increment (some a) = some (some b)) :
    T.decrement (some b) = some (some a) := by
  obtain ⟨l, r, ht⟩ := append_of_mem ha
  have hnext : some r.head? = some (some b) := (next_spec tr hT ht).symm.trans hn
  obtain ⟨r', rfl⟩ : ∃ r', r = b :: r' := by
    cases r with
    | nil => cases hnext
    | cons c r' =>
      cases hnext
      exact ⟨r', rfl⟩
  have hb : t.toList = (l ++ [a]) ++ b :: r' := by simp [ht]
  show T.previous b = _
  rw [previous_spec tr hT hb, getLast?_append]
  rfl

/-- `++` undoes `--`, unless `--` has left the tree. -/
theorem increment_decrement {t : BinTree Addr} (hT : Represents tr T t) {a b : Addr}
    (ha : a ∈ t.toList) (hn : T.decrement (some a) = some (some b)) :
    T.increment (some b) = some (some a) := by
  obtain ⟨l, r, ht⟩ := append_of_mem ha
  have hprev : some l.getLast? = some (some b) := (previous_spec tr hT ht).symm.trans hn
  obtain ⟨l', rfl⟩ := getLast?_eq_some_iff.1 (Option.some.inj hprev)
  have hb : t.toList = l' ++ b :: a :: r := by simp [ht]
  exact next_spec tr hT hb

variable [LinearOrder K]

/-- **The iterators of every tree that a run of `add` and `remove` reaches.** The nodes in order have
    the sorted keys; the loop from `begin()` visits exactly them and ends; `find`, `lower_bound` and
    `upper_bound` give the position of the key, of the first key not less and of the first greater;
    `--` undoes `++` and `++` undoes `--` between nodes; `--` on `end()` stops at its assertion, and
    the last node is had from `rbegin()`. -/
theorem iterators_of_run {mem : Memory V M} {S : Finset K}
    (hr : Relation.ReflTransGen (Step tr) (⟨mem, none, 0⟩, ∅) (T, S)) :
    (T.nodes.Nodup ∧ T.nodes.map (keyOf tr T) = S.sort (· ≤ ·)) ∧
      T.visit = some T.nodes ∧
      (∀ key, T.find tr key = some (T.nodes.find? fun a => decide (keyOf tr T a = key)) ∧
        T.lowerBound tr key = some (T.nodes.find? fun a => decide (key ≤ keyOf tr T a)) ∧
        T.upperBound tr key = some (T.nodes.find? fun a => decide (key < keyOf tr T a))) ∧
      (∀ a ∈ T.nodes, (∃ i, T.increment (some a) = some i) ∧ ∃ i, T.decrement (some a) = some i) ∧
      (∀ a ∈ T.nodes, ∀ b, T.increment (some a) = some (some b) →
        T.decrement (some b) = some (some a)) ∧
      (∀ a ∈ T.nodes, ∀ b, T.decrement (some a) = some (some b) →
        T.increment (some b) = some (some a)) ∧
      T.decrement none = none ∧ T.rbegin = some T.nodes.getLast? := by
  obtain ⟨t, hk⟩ := keys_of_run tr hr
  have hT := hk.represents
  rw [hT.nodes tr]
  refine ⟨⟨hT.nodup, hk.sort_eq tr⟩, visit_spec tr hT,
    fun key => ⟨find_spec tr hT hk.ordered key, lowerBound_spec tr hT hk.ordered key,
      upperBound_spec tr hT hk.ordered key⟩, fun a ha => ?_,
    fun a ha b => decrement_increment tr hT ha, fun a ha b => increment_decrement tr hT ha, rfl,
    rbegin_spec tr hT⟩
  obtain ⟨l, r, ht⟩ := append_of_mem ha
  exact ⟨⟨_, next_spec tr hT ht⟩, _, previous_spec tr hT ht⟩

/-- The tree of 1, 2, 3 from its first node to its last. -/
theorem iterators_of_run_three : three.visit = some [1, 2, 3] ∧
    three.lowerBound sizes 2 = some (some 2) ∧ three.upperBound sizes 2 = some (some 3) ∧
    three.find sizes 4 = some none ∧ three.visit = some three.nodes :=
  ⟨by decide +kernel, by decide +kernel, by decide +kernel, by decide +kernel,
    (iterators_of_run sizes three_run).2.1⟩

/-- `++` takes the last node of that tree to `end()`, and `--` does not take it back. -/
theorem decrement_end_three :
    Relation.ReflTransGen (Step sizes) (cleared, ∅) (three, {3, 2, 1}) ∧
      three.increment (some 3) = some none ∧ three.decrement none ≠ some (some 3) :=
  ⟨three_run, by decide +kernel, by decide +kernel⟩

end MegaSdk.FileService.AVLTree
