/-
  File:      MegaSdk/FileService/AvlRuns.lean
  Subject:   EVERY RUN OF add AND remove KEEPS AN AVL TREE OF THE KEYS.

  * `Step tr` -- one operation of a user of the tree, with what it does to a mathematical set of
    keys next to it; a node that is added is outside the tree and has no children, as its
    constructor leaves it (`construct`);
  * `Keys tr` -- the tree holds exactly the keys of the set, in order;
  * **`avlTree_of_run`** -- order, set, heights, balance, parent pointers, size and metadata in
    every tree a run reaches, and no operation stops at an assertion or at a null pointer.
-/
import MegaSdk.Base.Loop
import MegaSdk.FileService.AvlOps

namespace MegaSdk.FileService.AVLTree

open Base Base.BinTree Base.Zipper List

variable {K V M : Type} (tr : Traits K V M) {T T' : AVLTree V M}
variable {t : BinTree Addr} {S : Finset K} {a : Addr}

/-! ## 1. Reading the tree -/

/-- The nodes below a pointer, in order, down to a depth of `n`. -/
def walk (h : Memory V M) : Nat → Option Addr → List Addr
  | _, none => []
  | 0, some _ => []
  | n + 1, some a => walk h n (h.child a false) ++ a :: walk h n (h.child a true)

def nodes (T : AVLTree V M) : List Addr := walk T.mem T.mSize T.mRoot

theorem walk_sound {h : Memory V M} : ∀ {t : BinTree Addr} {par : Option Addr} {n : Nat},
    Sound tr h par t → t.height ≤ n → walk h n t.root = t.toList
  | .nil, _, n, _, _ => by cases n <;> rfl
  | .node l a r, _, 0, _, hn => absurd hn (by simp [BinTree.height])
  | .node l a r, par, n + 1, ⟨hj, _, hl, hr⟩, hn => by
      have hn' : max l.height r.height + 1 ≤ n + 1 := hn
      have el : h.child a false = l.root := hj.here
      have er : h.child a true = r.root := hj.there
      show walk h n (h.child ..) ++ a :: walk h n (h.child ..) = _
      rw [el, er, walk_sound hl (by omega), walk_sound hr (by omega)]
      rfl

theorem Represents.nodes (hT : Represents tr T t) : T.nodes = t.toList := by
  unfold AVLTree.nodes
  rw [hT.root, hT.size]
  exact walk_sound tr hT.sound (height_le_length t)

/-- What `Update` gives from the leaves up. -/
def summary (value : Addr → V) : BinTree Addr → Option (V × M)
  | .nil => none
  | .node l a r => some (value a, tr.update (value a) (summary value l) (summary value r))

theorem carried_eq_summary {h : Memory V M} : ∀ {t : BinTree Addr} {par : Option Addr},
    Sound tr h par t → h.carried t.root = summary tr h.value t
  | .nil, _, _ => rfl
  | .node l a r, _, ⟨hj, hf, hl, hr⟩ => by
      have el : h.child a false = l.root := hj.here
      have er : h.child a true = r.root := hj.there
      have hm := hf.metadata
      rw [el, er, carried_eq_summary hl, carried_eq_summary hr] at hm
      show some (h.value a, h.metadata a) = _
      rw [hm]
      rfl

variable [LinearOrder K]

/-! ## 2. Operations and the set -/

/-- A user's operation on the tree, and the same operation on a set of keys. -/
inductive Step : AVLTree V M × Finset K → AVLTree V M × Finset K → Prop
  | construct {T : AVLTree V M} {S : Finset K} (node : Addr) (v : V) (m : M) :
      node ∉ T.nodes → Step (T, S) ({ T with mem := T.mem.construct node v m }, S)
  | add {T T' : AVLTree V M} {S : Finset K} {node : Addr} {r : Addr × Bool} :
      node ∉ T.nodes → (∀ d, T.mem.child node d = none) → T.add tr node = some (T', r) →
      Step (T, S) (T', insert (keyOf tr T node) S)
  | removeKey {T T' : AVLTree V M} {S : Finset K} {key : K} {r : Option Addr} :
      T.removeKey tr key = some (T', r) → Step (T, S) (T', S.erase key)
  | removeIterator {T T' : AVLTree V M} {S : Finset K} {node r : Addr} :
      node ∈ T.nodes → T.removeIterator tr node = some (T', r) →
      Step (T, S) (T', S.erase (keyOf tr T node))

/-- The tree is in memory as `t` and holds the keys `S`, in order. -/
structure Keys (T : AVLTree V M) (S : Finset K) (t : BinTree Addr) : Prop where
  represents : Represents tr T t
  ordered : Ordered tr T t
  mem_iff : ∀ k, k ∈ S ↔ ∃ a ∈ t.toList, keyOf tr T a = k

omit [LinearOrder K] in
theorem Yields.keyOf {l : List Addr} (hy : Yields tr T T' l t) : keyOf tr T' = keyOf tr T := by
  funext a
  show tr.key (T'.mem.value a) = tr.key (T.mem.value a)
  rw [hy.value a]

theorem Keys.construct (hk : Keys tr T S t) (ha : a ∉ t.toList) (v : V) (m : M) :
    Keys tr { T with mem := T.mem.construct a v m } S t := by
  have hne : ∀ b ∈ t.toList, b ≠ a := fun b hb e => ha (e ▸ hb)
  have same : ∀ b ∈ t.toList, SameAt T.mem (T.mem.construct a v m) b := fun b hb =>
    ⟨if_neg (hne b hb), if_neg (hne b hb), if_neg (hne b hb), if_neg (hne b hb), if_neg (hne b hb)⟩
  have hkey : ∀ b ∈ t.toList,
      AVLTree.keyOf tr { T with mem := T.mem.construct a v m } b = AVLTree.keyOf tr T b :=
    fun b hb => congrArg tr.key (same b hb).value
  obtain ⟨⟨h1, h2, h3, h4, h5⟩, ho, hm⟩ := hk
  refine ⟨⟨h1, h2, h3.congr tr same, h4, h5⟩, ho.imp_of_mem fun {x y} hx hy hlt => ?_, fun k => ?_⟩
  · rwa [hkey x hx, hkey y hy]
  rw [hm k]
  exact ⟨fun ⟨b, hb, e⟩ => ⟨b, hb, (hkey b hb).trans e⟩,
    fun ⟨b, hb, e⟩ => ⟨b, hb, (hkey b hb).symm.trans e⟩⟩

theorem Keys.add (hk : Keys tr T S t) (hout : a ∉ t.toList) (hnull : ∀ d, T.mem.child a d = none) :
    ∃ T' r t', T.add tr a = some (T', r) ∧ Keys tr T' (insert (AVLTree.keyOf tr T a) S) t' := by
  rcases add_spec tr hk.represents hk.ordered hout (funext hnull) with
    ⟨b, hb, e, hadd⟩ | ⟨l, r, T', t', hl, h1, h2, hadd, hy⟩
  · -- the key is there already
    have hin : AVLTree.keyOf tr T a ∈ S := (hk.mem_iff _).2 ⟨b, hb, e⟩
    refine ⟨T, _, t, hadd, ?_⟩
    rwa [Finset.insert_eq_of_mem hin]
  refine ⟨T', _, t', hadd, hy.represents, ?_, fun k => ?_⟩
  · have ho := hk.ordered
    unfold Ordered at ho ⊢
    rw [hl] at ho
    obtain ⟨o1, o2, o3⟩ := pairwise_append.1 ho
    rw [hy.keyOf tr, hy.toList]
    refine pairwise_append.2 ⟨o1, pairwise_cons.2 ⟨h2, o2⟩, fun x hx y hyr => ?_⟩
    rcases mem_cons.1 hyr with rfl | hyr
    · exact h1 x hx
    · exact o3 x hx y hyr
  rw [Finset.mem_insert, hk.mem_iff, hy.keyOf tr, hy.toList, hl]
  simp only [mem_append, mem_cons]
  constructor
  · rintro (rfl | ⟨b, hb, rfl⟩)
    · exact ⟨a, .inr (.inl rfl), rfl⟩
    · exact ⟨b, hb.imp_right .inr, rfl⟩
  rintro ⟨b, hb | rfl | hb, rfl⟩
  · exact .inr ⟨b, .inl hb, rfl⟩
  · exact .inl rfl
  · exact .inr ⟨b, .inr hb, rfl⟩

theorem Keys.remove {p : Zipper Addr} {l r : BinTree Addr} (hk : Keys tr T S (plug p (.node l a r))) :
    ∃ T' t', T.removeLink tr (linkIn .root p) (above none p) = some (T', a) ∧
      Keys tr T' (S.erase (AVLTree.keyOf tr T a)) t' := by
  obtain ⟨T', t', hrem, hy⟩ := removeLink_spec tr hk.represents
  have hlist : (plug p (.node l a r)).toList =
      (before p ++ l.toList) ++ a :: (r.toList ++ after p) := by
    rw [toList_plug]
    simp [toList]
  have hnew : t'.toList = (before p ++ l.toList) ++ (r.toList ++ after p) := by
    rw [hy.toList]
    simp
  have ho := hk.ordered
  unfold Ordered at ho
  rw [hlist] at ho
  obtain ⟨o1, o2, o3⟩ := pairwise_append.1 ho
  obtain ⟨o4, o5⟩ := pairwise_cons.1 o2
  refine ⟨T', t', hrem, hy.represents, ?_, fun k => ?_⟩
  · unfold Ordered
    rw [hy.keyOf tr, hnew]
    exact pairwise_append.2 ⟨o1, o5, fun x hx y hyr => o3 x hx y (mem_cons_of_mem _ hyr)⟩
  rw [Finset.mem_erase, hk.mem_iff, hy.keyOf tr, hnew, hlist]
  constructor
  · rintro ⟨hne, b, hb, rfl⟩
    refine ⟨b, ?_, rfl⟩
    rcases mem_append.1 hb with hb | hb
    · exact mem_append_left _ hb
    · rcases mem_cons.1 hb with rfl | hb
      · exact absurd rfl hne
      · exact mem_append_right _ hb
  rintro ⟨b, hb, rfl⟩
  rcases mem_append.1 hb with hb | hb
  · exact ⟨ne_of_lt (o3 b hb a (mem_cons_self ..)), b, mem_append_left _ hb, rfl⟩
  · exact ⟨ne_of_gt (o4 b hb), b, mem_append_right _ (mem_cons_of_mem _ hb), rfl⟩

theorem Keys.removeKey (hk : Keys tr T S t) (key : K) :
    ∃ T' r t', T.removeKey tr key = some (T', r) ∧ Keys tr T' (S.erase key) t' := by
  obtain ⟨p, u, rfl, hf, hfind⟩ := findLink_spec tr hk.represents hk.ordered key
  unfold AVLTree.removeKey
  simp only [hfind, Option.bind_eq_bind, Option.bind_some, hk.represents.read tr]
  cases u with
  | nil =>
    refine ⟨T, none, plug p .nil, rfl, ?_⟩
    have hout : key ∉ S := fun hin => by
      obtain ⟨b, hb, rfl⟩ := (hk.mem_iff key).1 hin
      rw [mem_plug] at hb
      rcases hb.resolve_left not_mem_nil with hb | hb
      · exact lt_irrefl _ (hf.1 b hb)
      · exact lt_irrefl _ (hf.2 b hb)
    rwa [Finset.erase_eq_of_notMem hout]
  | node l a r =>
    have ha : AVLTree.keyOf tr T a = key := hf
    obtain ⟨T', t', hrem, hk'⟩ := hk.remove tr
    refine ⟨T', some a, t', ?_, ha ▸ hk'⟩
    simp only [hrem]
    rfl

theorem Keys.removeIterator (hk : Keys tr T S t) (ha : a ∈ t.toList) :
    ∃ T' r t', T.removeIterator tr a = some (T', r) ∧
      Keys tr T' (S.erase (AVLTree.keyOf tr T a)) t' := by
  obtain ⟨p, l, r, rfl⟩ := exists_plug ha
  obtain ⟨hp, ⟨ja, -⟩, -⟩ := sound_plug tr hk.represents.sound hk.represents.balanced
  obtain ⟨T', t', hrem, hk'⟩ := hk.remove tr
  refine ⟨T', a, t', ?_, hk'⟩
  unfold AVLTree.removeIterator
  rw [ja.parent]
  cases p with
  | nil => exact hrem
  | cons f p =>
    have hoff := (nodup_plug hk.represents.nodup).2 a (root_mem rfl)
    have hside := hp.1.side_eq fun e => hoff (beside_cons.2 (.inr (.inl (root_mem e))))
    simp only [above, hside]
    exact hrem

/-! ## 3. Runs -/

theorem keys_of_step {s s' : AVLTree V M × Finset K} (hs : Step tr s s') :
    (∃ t, Keys tr s.1 s.2 t) → ∃ t, Keys tr s'.1 s'.2 t := by
  rintro ⟨t, hk⟩
  cases hs with
  | construct node v m hout => exact ⟨t, hk.construct tr (hk.represents.nodes tr ▸ hout) v m⟩
  | add hout hnull h =>
    obtain ⟨T', r, t', e, hk'⟩ := hk.add tr (hk.represents.nodes tr ▸ hout) hnull
    cases h.symm.trans e
    exact ⟨t', hk'⟩
  | removeKey h =>
    obtain ⟨T', r, t', e, hk'⟩ := hk.removeKey tr _
    cases h.symm.trans e
    exact ⟨t', hk'⟩
  | removeIterator hin h =>
    obtain ⟨T', r, t', e, hk'⟩ := hk.removeIterator tr (hk.represents.nodes tr ▸ hin)
    cases h.symm.trans e
    exact ⟨t', hk'⟩

theorem keys_of_run {mem : Memory V M}
    (hr : Relation.ReflTransGen (Step tr) (⟨mem, none, 0⟩, ∅) (T, S)) : ∃ t, Keys tr T S t :=
  run_inv (fun s => ∃ t, Keys tr s.1 s.2 t) (fun _ _ hi hs => keys_of_step tr hs hi)
    ⟨.nil, ⟨rfl, rfl, trivial, trivial, nodup_nil⟩, .nil,
      fun k => by simp [toList]⟩ hr

theorem Keys.sort_eq (hk : Keys tr T S t) : t.toList.map (AVLTree.keyOf tr T) = S.sort (· ≤ ·) := by
  have hlt : (t.toList.map (AVLTree.keyOf tr T)).Pairwise (· < ·) :=
    pairwise_map.2 hk.ordered
  refine (List.Perm.eq_of_pairwise' (hlt.imp le_of_lt) (S.pairwise_sort _) ?_)
  refine (perm_ext_iff_of_nodup (hlt.imp ne_of_lt) (S.sort_nodup _)).2 fun k => ?_
  rw [Finset.mem_sort, hk.mem_iff, mem_map]

omit [LinearOrder K] in
theorem Represents.at_node (hT : Represents tr T t) {p : Zipper Addr} {l r : BinTree Addr}
    (ht : t = plug p (.node l a r)) :
    T.mem.child a false = l.root ∧ T.mem.child a true = r.root ∧ T.mem.parent a = above none p ∧
      (T.mem.height a).toNat = (BinTree.node l a r).height ∧ l.height ≤ r.height + 1 ∧
      r.height ≤ l.height + 1 ∧
      T.mem.carried (some a) = summary tr T.mem.value (.node l a r) := by
  subst ht
  obtain ⟨-, hs, k1, k2, -, -⟩ := sound_plug tr hT.sound hT.balanced
  have hsum := carried_eq_summary tr hs
  obtain ⟨hj, hf, -, -⟩ := hs
  exact ⟨hj.here, hj.there, hj.parent, hf.height, k1, k2, hsum⟩

/-- **Every run of `add`, `remove(key)` and `remove(iterator)` from the empty tree keeps an AVL tree
of the keys.** The memory holds a binary tree `t` whose keys in order are strictly increasing and
are the sorted set; `mSize` counts its nodes; at every place of `t` child and parent pointers mirror
one another, the cached height is the subtree's, the two subtrees differ by at most one level and
the metadata is `Update` of the subtree; and every operation ends without a failed assertion. -/
theorem avlTree_of_run {mem : Memory V M} {S : Finset K}
    (hr : Relation.ReflTransGen (Step tr) (⟨mem, none, 0⟩, ∅) (T, S)) :
    ∃ t : BinTree Addr,
      (T.mRoot = t.root ∧ T.nodes = t.toList ∧ t.toList.Nodup ∧ T.mSize = t.toList.length) ∧
      ((t.toList.map (keyOf tr T)).Pairwise (· < ·) ∧
        t.toList.map (keyOf tr T) = S.sort (· ≤ ·)) ∧
      (∀ (p : Zipper Addr) (l : BinTree Addr) (a : Addr) (r : BinTree Addr), t = plug p (.node l a r) →
        T.mem.child a false = l.root ∧ T.mem.child a true = r.root ∧
        T.mem.parent a = above none p ∧ (T.mem.height a).toNat = (BinTree.node l a r).height ∧
        l.height ≤ r.height + 1 ∧ r.height ≤ l.height + 1 ∧
        T.mem.carried (some a) = summary tr T.mem.value (.node l a r)) ∧
      (∀ a, a ∉ T.nodes → (∀ d, T.mem.child a d = none) → (T.add tr a).isSome) ∧
      (∀ key, (T.removeKey tr key).isSome) ∧ ∀ a ∈ T.nodes, (T.removeIterator tr a).isSome := by
  obtain ⟨t, hk⟩ := keys_of_run tr hr
  have hnodes := hk.represents.nodes tr
  refine ⟨t, ⟨hk.represents.root, hnodes, hk.represents.nodup, hk.represents.size⟩,
    ⟨pairwise_map.2 hk.ordered, hk.sort_eq tr⟩, fun p l a r e => hk.represents.at_node tr e,
    fun a ha hnull => ?_, fun key => ?_, fun a ha => ?_⟩
  · obtain ⟨T', r, -, e, -⟩ := hk.add tr (hnodes ▸ ha) hnull
    rw [e]
    rfl
  · obtain ⟨T', r, -, e, -⟩ := hk.removeKey tr key
    rw [e]
    rfl
  obtain ⟨T', r, -, e, -⟩ := hk.removeIterator tr (hnodes ▸ ha)
  rw [e]
  rfl

/-- How the range trees add: a node is allocated for the value, then linked in. -/
def insertNew (T : AVLTree V M) (a : Addr) (v : V) (m : M) : AVLTree V M :=
  let T := { T with mem := T.mem.construct a v m }
  ((T.add tr a).map Prod.fst).getD T

theorem insertNew_run {mem : Memory V M}
    (hr : Relation.ReflTransGen (Step tr) (⟨mem, none, 0⟩, ∅) (T, S)) (v : V) (m : M)
    (ha : a ∉ T.nodes) :
    Relation.ReflTransGen (Step tr) (⟨mem, none, 0⟩, ∅)
      (T.insertNew tr a v m, insert (tr.key v) S) := by
  obtain ⟨t, hk⟩ := keys_of_run tr hr
  have hnodes := hk.represents.nodes tr
  have hk' := hk.construct tr (hnodes ▸ ha) v m
  have ha' := hk'.represents.nodes tr
  have hnull : ∀ d, (T.mem.construct a v m).child a d = none := fun d => congrFun (if_pos rfl) d
  obtain ⟨T', r, -, hadd, -⟩ := hk'.add tr (hnodes ▸ ha) hnull
  have hkey : keyOf tr ({ T with mem := T.mem.construct a v m } : AVLTree V M) a = tr.key v :=
    congrArg tr.key (if_pos rfl)
  unfold insertNew
  simp only [hadd]
  rw [← hkey]
  exact (hr.tail (.construct a v m ha)).tail (.add (ha' ▸ hnodes ▸ ha) hnull hadd)

def sizes : Traits Nat Nat Nat where
  key := id
  update _ left right := 1 + (left.map Prod.snd).getD 0 + (right.map Prod.snd).getD 0

def cleared : AVLTree Nat Nat :=
  ⟨⟨fun _ _ => none, fun _ => none, fun _ => 0, fun _ => 0, fun _ => 0⟩, none, 0⟩

def three : AVLTree Nat Nat :=
  ((cleared.insertNew sizes 1 1 0).insertNew sizes 2 2 0).insertNew sizes 3 3 0

theorem three_run : Relation.ReflTransGen (Step sizes) (cleared, ∅) (three, {3, 2, 1}) :=
  insertNew_run sizes (insertNew_run sizes (insertNew_run sizes (T := cleared)
    .refl 1 0 (a := 1) (by decide +kernel)) 2 0 (a := 2) (by decide +kernel)) 3 0 (a := 3)
    (by decide +kernel)

/-- Adding 1, 2, 3 in order rotates the root to 2. -/
theorem avlTree_of_run_three : three.mRoot = some 2 ∧ three.mem.metadata 2 = 3 ∧
    ∃ t : BinTree Addr, three.nodes = t.toList ∧
      t.toList.map (keyOf sizes three) = ({3, 2, 1} : Finset Nat).sort (· ≤ ·) := by
  obtain ⟨t, ⟨-, hn, -, -⟩, ⟨-, hk⟩, -⟩ := avlTree_of_run sizes three_run
  exact ⟨by decide +kernel, by decide +kernel, t, hn, hk⟩

/-- **Every tree is low**: with the height that its root has cached, it has at least
`fib (height + 2) - 1` nodes. -/
theorem height_of_run {mem : Memory V M}
    (hr : Relation.ReflTransGen (Step tr) (⟨mem, none, 0⟩, ∅) (T, S)) :
    Nat.fib (T.mem.heightOf T.mRoot + 2) ≤ T.mSize + 1 := by
  obtain ⟨t, hk, -⟩ := keys_of_run tr hr
  rw [hk.root, hk.sound.heightOf, hk.size]
  exact hk.balanced.fib_le

theorem height_of_run_three : three.mem.heightOf three.mRoot = 2 ∧
    Nat.fib (three.mem.heightOf three.mRoot + 2) ≤ three.mSize + 1 :=
  ⟨by decide +kernel, height_of_run sizes three_run⟩

end MegaSdk.FileService.AVLTree
