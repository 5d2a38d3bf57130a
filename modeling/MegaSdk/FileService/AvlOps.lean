/-
  File:      MegaSdk/FileService/AvlOps.lean
  Subject:   WHAT add AND remove DO to the tree, over the upward pass of AvlBalance.lean.

  * `Represents tr T t` -- the tree `T` is in memory as `t`, balanced, with fresh caches;
  * `findLink_spec` -- the search ends at the node with the key, or at the hole where it belongs;
  * `add_spec` -- a fresh node is linked in at that hole, or nothing changes;
  * `lift_spec`, `splice_spec` -- the two ways a node is taken out: its only child moves up, or
    its inorder predecessor takes its place;
  * `removeLink_spec` -- **removal** leaves the other nodes in order.
-/
import MegaSdk.FileService.AvlBalance

namespace MegaSdk.FileService.AVLTree

open Base Base.BinTree Base.Zipper List

variable {K V M : Type} (tr : Traits K V M) {h h' : Memory V M} {T T' : AVLTree V M}
variable {p : Zipper Addr} {r t x : BinTree Addr} {a b : Addr} {par sub : Option Addr} {k : Nat}
  {f : Frame Addr}

/-! ## 1. A subtree and the way up from it -/

theorem mem_plug : b ∈ (plug p t).toList ↔ b ∈ t.toList ∨ Beside p b := by
  simp only [toList_plug, mem_append, Beside]
  tauto

/-- In a sound balanced tree every subtree is sound and balanced, and so is the way up. -/
theorem sound_plug : ∀ {p : Zipper Addr} {t : BinTree Addr},
    Sound tr h par (plug p t) → (plug p t).Balanced →
    Around tr h par t.root t.height p ∧ Sound tr h (above par p) t ∧ t.Balanced
  | [], _, hs, hb => ⟨trivial, hs, hb⟩
  | f :: p, t, hs, hb => by
      obtain ⟨ha, hs', hb'⟩ := sound_plug (p := p) hs hb
      obtain ⟨hj, -, st, sf⟩ := (sound_fork tr).1 hs'
      obtain ⟨k1, k2, bt, bf⟩ := (balanced_fork ..).1 hb'
      rw [root_fork, height_fork] at ha
      exact ⟨⟨hj, sf, bf, k1, k2, ha⟩, st, bt⟩

theorem above_append (par p) : ∀ q : Zipper Addr,
    above par (q ++ p) = above (above par p) q
  | [] => rfl
  | _ :: _ => rfl

theorem around_append : ∀ {q : Zipper Addr} {sub : Option Addr}
    {k : Nat}, Around tr h (above par p) sub k q → Around tr h par (top sub q) (height k q) p →
    Around tr h par sub k (q ++ p)
  | [], _, _, _, hp => hp
  | f :: q, sub, k, ⟨hj, sf, bf, k1, k2, hq⟩, hp => by
      rw [← above_append] at hj
      exact ⟨hj, sf, bf, k1, k2, around_append hq hp⟩

theorem Around.adopt (c : Option Addr) : ∀ {q : Zipper Addr} {f : Frame Addr}
    {sub : Option Addr} {k : Nat} {t : BinTree Addr}, (plug (f :: q) t).toList.Nodup →
    Around tr h par sub k (f :: q) →
    Around tr (h.adopt (top sub (f :: q)) c) c sub k (f :: q)
  | [], f, sub, k, t, hn, ⟨hj, sf, bf, k1, k2, _⟩ => by
      obtain ⟨-, hfs, -, -, -⟩ := (nodup_fork ..).1 hn
      have hc : Confined [f.label] h (h.setParent f.label c) := .setParent (mem_singleton_self _) c
      exact ⟨⟨hj.here, hj.there, if_pos rfl⟩, hc.sound_one tr hfs sf, bf, k1, k2, trivial⟩
  | g :: q, f, sub, k, t, hn, ⟨hj, sf, bf, k1, k2, hq⟩ => by
      have hq' := Around.adopt c (q := q) hn hq
      have hb := (nodup_plug (p := g :: q) hn).2
      -- the outermost node is none of those in the innermost frame
      have htop : ∀ b ∈ (fork f.side t f.label f.sibling).toList, top sub (f :: g :: q) ≠ some b :=
        fun b hm e => by
          refine hb b hm ?_
          have hr : (plug (g :: q) .nil).root = some b := by
            rwa [root_plug]
          have hm' := root_mem hr
          rw [mem_plug] at hm'
          exact hm'.resolve_left not_mem_nil
      have same : ∀ b ∈ (fork f.side t f.label f.sibling).toList,
          SameAt h (h.adopt (top sub (f :: g :: q)) c) b := fun b hm => by
        have hc : Confined (top sub (f :: g :: q)).toList h (h.adopt (top sub (f :: g :: q)) c) :=
          .adopt (fun a ha => Option.mem_toList.2 ha) c
        exact hc.outside b fun hm' => htop b hm (Option.mem_toList.1 hm')
      refine ⟨hj.congr (same _ ((mem_fork ..).2 (.inl rfl))), sf.congr tr fun b hm => ?_, bf, k1,
        k2, hq'⟩
      exact same b ((mem_fork ..).2 (.inr (.inr hm)))

def linkIn (base : Link) : Zipper Addr → Link
  | [] => base
  | f :: _ => .child f.label f.side

/-- `*link = p` in memory. -/
def Memory.store (h : Memory V M) (p : Option Addr) : Link → Memory V M
  | .root => h
  | .child a d => h.setChild a d p

theorem write_mem (p : Option Addr) (link : Link) : (T.write p link).mem = T.mem.store p link := by
  cases link <;> rfl

theorem write_mSize (p : Option Addr) (link : Link) : (T.write p link).mSize = T.mSize := by
  cases link <;> rfl

def holder (p : Zipper Addr) : List Addr := (above none p).toList

theorem holder_beside (hb : b ∈ holder p) : Beside p b := by
  cases p with
  | nil => cases hb
  | cons f p =>
    rw [mem_singleton.1 hb]
    exact beside_cons.2 (.inl rfl)

theorem Confined.store (p) (q : Option Addr) :
    Confined (holder p) h (h.store q (linkIn .root p)) := by
  cases p with
  | nil => exact ⟨fun _ _ => ⟨rfl, rfl, rfl, rfl, rfl⟩, fun _ => rfl⟩
  | cons f p => exact .setChild (mem_singleton_self _) _ _

theorem Around.write {q : Option Addr} (hn : (plug p t).toList.Nodup)
    (ha : Around tr h none sub k p) : Around tr (h.store q (linkIn .root p)) none q k p := by
  cases p with
  | nil => trivial
  | cons f p => exact ha.setChild tr hn

/-! ## 2. The tree -/

/-- The tree `T` is in memory as `t`. -/
structure Represents (T : AVLTree V M) (t : BinTree Addr) : Prop where
  root : T.mRoot = t.root
  size : T.mSize = t.toList.length
  sound : Sound tr T.mem none t
  balanced : t.Balanced
  nodup : t.toList.Nodup

/-- An operation ended in a tree with the nodes `nodes`, whose values it did not touch. -/
structure Yields (T T' : AVLTree V M) (nodes : List Addr) (t : BinTree Addr) : Prop where
  represents : Represents tr T' t
  toList : t.toList = nodes
  value : ∀ b, T'.mem.value b = T.mem.value b

theorem Represents.read (hT : Represents tr T (plug p t)) : T.read (linkIn .root p) = t.root := by
  cases p with
  | nil => exact hT.root
  | cons f p => exact (sound_plug tr hT.sound hT.balanced).1.1.here

theorem rebalanceFrom_spec {d : Bool} {s z : BinTree Addr}
    (ha : Joined T.mem (above none p) d s.root a z.root) (hs : Sound tr T.mem (some a) s)
    (hz : Sound tr T.mem (some a) z) (bs : s.Balanced) (bz : z.Balanced)
    (h1 : s.height ≤ z.height + 2) (h2 : z.height ≤ s.height + 2) (h3 : max s.height z.height ≤ k)
    (h4 : k ≤ max s.height z.height + 2)
    (h5 : s.height = z.height + 2 ∨ z.height = s.height + 2 → k ≤ max s.height z.height + 1)
    (hp : Around tr T.mem none (some a) k p) (hn : (plug p (fork d s a z)).toList.Nodup)
    (hsize : T.mSize = (plug p (fork d s a z)).toList.length) :
    ∃ T' t, T.rebalanceFrom tr a = some T' ∧ Yields tr T T' (plug p (fork d s a z)).toList t := by
  have hl := length_le_plug p (fork d s a z)
  obtain ⟨g, t, hr, hres⟩ := rebalance_sound tr (n := T.mSize + 1) ha hs hz bs bz h1 h2 h3 h4 h5 hp
    hn (by omega)
  refine ⟨{ T with mem := g, mRoot := t.root }, t, ?_, ⟨rfl, ?_, hres.sound, hres.balanced, ?_⟩,
    hres.toList, hres.confined.value⟩
  · unfold rebalanceFrom
    rw [hr]
    rfl
  · rwa [hres.toList]
  · rwa [hres.toList]

/-- The upward pass from the node above the hole, once a subtree within one level of the former
one is there. -/
theorem rebalanceFrom_above {u : BinTree Addr} (ha : Around tr T.mem none u.root k (f :: p))
    (hu : Sound tr T.mem (some f.label) u) (bu : u.Balanced) (h1 : u.height ≤ k + 1)
    (h2 : k ≤ u.height + 1) (hn : (plug (f :: p) u).toList.Nodup)
    (hsize : T.mSize = (plug (f :: p) u).toList.length) :
    ∃ T' t, T.rebalanceFrom tr f.label = some T' ∧ Yields tr T T' (plug (f :: p) u).toList t := by
  obtain ⟨hj, sf, bf, k1, k2, hp⟩ := ha
  exact rebalanceFrom_spec tr hj hu sf bu bf (by omega) (by omega) (by omega) (by omega) (by omega)
    hp hn hsize

/-! ## 3. Searching -/

section Search

variable [LinearOrder K]

def keyOf (T : AVLTree V M) (a : Addr) : K := tr.key (T.mem.value a)

/-- The keys in order are strictly increasing. -/
def Ordered (T : AVLTree V M) (t : BinTree Addr) : Prop :=
  t.toList.Pairwise fun a b => keyOf tr T a < keyOf tr T b

theorem compare_lt {k k' : K} (hk : k < k') : compare k k' = -1 := if_pos hk

theorem compare_gt {k k' : K} (hk : k' < k) : compare k k' = 1 := by
  unfold compare
  rw [if_neg (lt_asymm hk), if_pos hk]

theorem compare_self (k : K) : compare k k = 0 := by
  unfold compare
  rw [if_neg (lt_irrefl k), if_neg (lt_irrefl k)]

/-- Where a search for `key` ends: at a hole between the smaller and the larger keys, or at the
node that has it. -/
def Found (T : AVLTree V M) (key : K) (p : Zipper Addr) : BinTree Addr → Prop
  | .nil => (∀ b ∈ before p, keyOf tr T b < key) ∧ ∀ b ∈ after p, key < keyOf tr T b
  | .node _ a _ => keyOf tr T a = key

theorem findLinkLoop_spec {key : K} : ∀ {t : BinTree Addr} {p : Zipper Addr} {n : Nat},
    Represents tr T (plug p t) → Ordered tr T (plug p t) →
    (∀ b ∈ before p, keyOf tr T b < key) → (∀ b ∈ after p, key < keyOf tr T b) → t.height < n →
    ∃ p' t', plug p' t' = plug p t ∧ Found tr T key p' t' ∧
      findLinkLoop tr T key n (above none p) (linkIn .root p) =
        some (above none p', linkIn .root p')
  | _, _, 0, _, _, _, _, hl => absurd hl (Nat.not_lt_zero _)
  | .nil, p, n + 1, hT, _, hb, ha, _ => by
      refine ⟨p, .nil, rfl, ⟨hb, ha⟩, ?_⟩
      rw [findLinkLoop, hT.read]
      rfl
  | .node l a r, p, n + 1, hT, ho, hb, ha, hl => by
      have hloop : findLinkLoop tr T key (n + 1) (above none p) (linkIn .root p) =
          if compare key (keyOf tr T a) = 0 then some (above none p, linkIn .root p)
          else findLinkLoop tr T key n (some a)
            (.child a (decide (compare key (keyOf tr T a) > 0))) := by
        rw [findLinkLoop, hT.read]
        rfl
      have hsort := ho
      unfold Ordered at hsort
      rw [toList_plug, pairwise_append, pairwise_append] at hsort
      obtain ⟨⟨-, hmid, -⟩, -, -⟩ := hsort
      obtain ⟨-, hr, hlr⟩ := pairwise_append.1 hmid
      have hl1 : max l.height r.height + 1 < n + 1 := hl
      rcases lt_trichotomy key (keyOf tr T a) with hk | hk | hk
      · -- into the left child: the node and what is right of it are larger
        have hafter : ∀ b ∈ after (⟨false, a, r⟩ :: p), key < keyOf tr T b := fun b hm => by
          rcases mem_append.1 hm with hm | hm
          · rcases mem_cons.1 hm with rfl | hm
            · exact hk
            · exact hk.trans ((pairwise_cons.1 hr).1 b hm)
          · exact ha b hm
        obtain ⟨p', t', e, hf, hres⟩ := findLinkLoop_spec (p := ⟨false, a, r⟩ :: p) (n := n)
          hT ho (fun b hm => hb b (by simpa [before] using hm)) hafter (by omega)
        refine ⟨p', t', e, hf, ?_⟩
        rwa [hloop, compare_lt hk]
      · refine ⟨p, .node l a r, rfl, hk.symm, ?_⟩
        rw [hloop, hk, compare_self]
        rfl
      have hbefore : ∀ b ∈ before (⟨true, a, l⟩ :: p), keyOf tr T b < key := fun b hm => by
        rcases mem_append.1 hm with hm | hm
        · exact hb b hm
        rcases mem_append.1 hm with hm | hm
        · exact (hlr b hm a (mem_cons_self ..)).trans hk
        · exact mem_singleton.1 hm ▸ hk
      obtain ⟨p', t', e, hf, hres⟩ := findLinkLoop_spec (p := ⟨true, a, l⟩ :: p) (n := n)
        hT ho hbefore (fun b hm => ha b (by simpa [Zipper.after] using hm)) (by omega)
      refine ⟨p', t', e, hf, ?_⟩
      rwa [hloop, compare_gt hk]

/-- **`findLink`** ends at the node with the key, or at the hole where the key belongs. -/
theorem findLink_spec (hT : Represents tr T t) (ho : Ordered tr T t) (key : K) :
    ∃ p u, plug p u = t ∧ Found tr T key p u ∧
      T.findLink tr key = some (above none p, linkIn .root p) := by
  have hh := height_le_length t
  have hsz := hT.size
  exact findLinkLoop_spec tr (p := []) hT ho nofun
    nofun (by omega)

/-! ## 4. Adding a node -/

omit [LinearOrder K] in
/-- A node outside the tree, without children, is linked in at a hole. -/
theorem addLink_hole (hT : Represents tr T (plug p .nil)) (hout : ¬ Beside p a)
    (hnull : T.mem.child a = fun _ => none) :
    ∃ T' t, T.addLink tr (linkIn .root p) a (above none p) = some (T', a, true) ∧
      Yields tr T T' (before p ++ a :: after p) t := by
  obtain ⟨hp, -, -⟩ := sound_plug tr hT.sound hT.balanced
  have hlist : (plug p (fork false .nil a .nil)).toList = before p ++ a :: after p := by
    rw [toList_plug]
    simp [fork, toList]
  have hlist0 : (plug p .nil).toList = before p ++ after p := by
    rw [toList_plug]
    simp [toList]
  have hnd : (plug p (fork false .nil a .nil)).toList.Nodup := by
    have hn := hT.nodup
    rw [hlist0] at hn
    rw [hlist, nodup_middle, nodup_cons]
    exact ⟨fun hm => hout (mem_append.1 hm), hn⟩
  set h₁ := T.mem.store (some a) (linkIn .root p)
  have hc1 : Confined (holder p) T.mem h₁ := .store p _
  have ha1 := hc1.outside a fun hm => hout (holder_beside hm)
  have hc2 : Confined [a] h₁
      (h₁.setParent a (above none p)) :=
    .setParent (mem_singleton_self a) _
  have hp2 : Around tr (h₁.setParent a (above none p)) none
      (some a) 0 p :=
    (hp.write tr hT.nodup).frame tr hc2 hout
  have hchild : ∀ d, (h₁.setParent a (above none p)).child a d =
      none := fun d => by
    show h₁.child a d = none
    rw [ha1.child, hnull]
  have hlen : T.mSize + 1 = (plug p (fork false .nil a .nil)).toList.length := by
    rw [hlist, hT.size, hlist0]
    simp only [length_append, length_cons]
    omega
  obtain ⟨T', t, hr, hy⟩ := rebalanceFrom_spec tr (k := 0) (p := p)
    (T := { T.write (some a) (linkIn .root p) with
      mem := h₁.setParent a (above none p)
      mSize := T.mSize + 1 })
    (d := false) (s := .nil) (z := .nil) (a := a) ⟨hchild false, hchild true, if_pos rfl⟩ trivial
    trivial trivial trivial (by simp) (by simp) (by simp [BinTree.height]) (by simp)
    (by simp [BinTree.height]) hp2 hnd hlen
  refine ⟨T', t, ?_, hy.represents, hy.toList.trans hlist, fun b => ?_⟩
  · unfold addLink
    rw [hT.read]
    simp only [BinTree.root, write_mem, write_mSize, Option.bind_eq_bind]
    rw [hr]
    rfl
  · exact (hy.value b).trans (hc1.value b)

/-- **`add`**: a node outside the tree and without children is linked in between the smaller and
the larger keys; a key that is already there stays with its node. -/
theorem add_spec (hT : Represents tr T t) (ho : Ordered tr T t) (hout : a ∉ t.toList)
    (hnull : T.mem.child a = fun _ => none) :
    (∃ b ∈ t.toList, keyOf tr T b = keyOf tr T a ∧ T.add tr a = some (T, b, false)) ∨
    ∃ l r T' t', t.toList = l ++ r ∧ (∀ b ∈ l, keyOf tr T b < keyOf tr T a) ∧
      (∀ b ∈ r, keyOf tr T a < keyOf tr T b) ∧ T.add tr a = some (T', a, true) ∧
      Yields tr T T' (l ++ a :: r) t' := by
  obtain ⟨p, u, rfl, hf, hfind⟩ := findLink_spec tr hT ho (keyOf tr T a)
  have hadd : T.add tr a = T.addLink tr (linkIn .root p) a (above none p) := by
    unfold add
    have e : T.findLink tr (tr.key (T.mem.value a)) = _ := hfind
    rw [e]
    rfl
  rw [hadd]
  cases u with
  | node l b r =>
    left
    refine ⟨b, mem_plug.2 (.inl (root_mem rfl)), hf, ?_⟩
    unfold addLink
    rw [hT.read]
    rfl
  | nil =>
    right
    have hout' : ¬ Beside p a := fun hb => hout (mem_plug.2 (.inr hb))
    obtain ⟨T', t', hr, hy⟩ := addLink_hole tr hT hout' hnull
    exact ⟨before p, after p, T', t', by rw [toList_plug]; simp [toList], hf.1, hf.2, hr, hy⟩

end Search

/-! ## 5. Removing a node -/

/-- A node with one child or none: the child moves up into the hole. -/
theorem lift_spec {u : BinTree Addr} (hp : Around tr T.mem none (some a) k p)
    (hu : Sound tr T.mem (some a) u) (bu : u.Balanced) (hk : k = u.height + 1)
    (hn : (plug p u).toList.Nodup) (hsize : T.mSize = (plug p u).toList.length) :
    ∃ T' t, T.lift tr (linkIn .root p) u.root (above none p) = some T' ∧
      Yields tr T T' (plug p u).toList t := by
  obtain ⟨hnu, hnb⟩ := nodup_plug hn
  have hc1 : Confined (holder p) T.mem (T.mem.store u.root (linkIn .root p)) := .store p _
  have hu1 := hc1.sound tr (fun b hb hm => hnb b hb (holder_beside hm)) hu
  have hu2 := hu1.adopt tr (above none p) hnu
  have hc2 : Confined u.toList (T.mem.store u.root (linkIn .root p))
      ((T.mem.store u.root (linkIn .root p)).adopt u.root (above none p)) :=
    .adopt (fun _ e => root_mem e) _
  have hp2 := (hp.write tr hn).congr tr fun b hb =>
    hc2.outside b fun hm => hnb b hm hb
  have hval : ∀ b, ((T.mem.store u.root (linkIn .root p)).adopt u.root (above none p)).value b =
      T.mem.value b := fun b => (hc2.value b).trans (hc1.value b)
  cases p with
  | nil => exact ⟨_, u, rfl, ⟨rfl, hsize, hu2, bu, hnu⟩, rfl, hval⟩
  | cons f p =>
    obtain ⟨T', t, hr, hy⟩ := rebalanceFrom_above tr
      (T := { T.write u.root (linkIn .root (f :: p)) with
        mem := (T.mem.store u.root (linkIn .root (f :: p))).adopt u.root (some f.label) })
      hp2 hu2 bu (by omega) (by omega) hn hsize
    exact ⟨T', t, hr, hy.represents, hy.toList, fun b => (hy.value b).trans (hval b)⟩

theorem lastRight_spec (base : Link) : ∀ {s : BinTree Addr} {q : Zipper Addr} {par : Option Addr}
    {a : Addr} {n : Nat}, s.root = some a → Sound tr h par s → after q = [] → s.height ≤ n →
    ∃ q' x b, plug q' (.node x b .nil) = plug q s ∧ after q' = [] ∧
      lastRight h n (linkIn base q) a = some (linkIn base q', b)
  | .node x b r, q, par, a, 0, _, _, _, hn => by
      simp [BinTree.height] at hn
  | .node x b r, q, par, a, n + 1, ha, ⟨hj, _, _, hr⟩, hq, hn => by
      cases ha
      have hright : h.child b true = r.root := hj.there
      cases r with
      | nil =>
        refine ⟨q, x, b, rfl, hq, ?_⟩
        rw [lastRight, hright]
        rfl
      | node r1 c r2 =>
        have hn' : (node r1 c r2).height ≤ n := by
          have e : max x.height (node r1 c r2).height + 1 ≤ n + 1 := hn
          omega
        obtain ⟨q', x', b', e, hq', hres⟩ := lastRight_spec base (q := ⟨true, b, x⟩ :: q) rfl hr
          hq hn'
        refine ⟨q', x', b', e, hq', ?_⟩
        rwa [lastRight, hright]

theorem Confined.copyLink {S : List Addr} (hb : b ∈ S) (a) :
    Confined S h (h.copyLink b a) where
  outside v hv :=
    have hne : v ≠ b := fun e => hv (e ▸ hb)
    ⟨if_neg hne, if_neg hne, if_neg hne, rfl, rfl⟩
  value _ := rfl

/-- The replacement takes the node's place: `*link = replacement` and the copy of the links. -/
def exchanged (h : Memory V M) (p : Zipper Addr) (a b : Addr) : Memory V M :=
  (h.store (some b) (linkIn .root p)).copyLink b a

/-- The memory after `splice`. -/
def spliced (h : Memory V M) (p : Zipper Addr) (node c : Addr) (e : Bool) (replacement : Addr)
    (parent : Option Addr) : Memory V M :=
  let h3 := exchanged (h.setChild c e (h.child replacement false)) p node replacement
  let h4 := h3.adopt (h3.child c e) parent
  let h5 := h4.adopt (h4.child replacement false) (some replacement)
  h5.adopt (h5.child replacement true) (some replacement)

theorem splice_mem (p) (node c : Addr) (e : Bool) (b) :
    (T.splice (linkIn .root p) node (.child c e) b).1.mem = spliced T.mem p node c e b
      (if T.mem.parent b = some node then some b else T.mem.parent b) := by
  cases p <;> rfl

theorem splice_mSize (p) (node c : Addr) (e : Bool) (b) :
    (T.splice (linkIn .root p) node (.child c e) b).1.mSize = T.mSize := by
  cases p <;> rfl

theorem spliced_eq {node c : Addr} {e : Bool} {x l r parent : Option Addr}
    (hb : h.child b false = x) (hx : (exchanged (h.setChild c e x) p node b).child c e = x)
    (hl : (exchanged (h.setChild c e x) p node b).child b false = l)
    (hr : (exchanged (h.setChild c e x) p node b).child b true = r) :
    spliced h p node c e b parent = (((exchanged (h.setChild c e x) p node b).adopt x parent).adopt l
      (some b)).adopt r (some b) := by
  subst hb
  unfold spliced
  simp [hx, hl, hr]

section Exchange

variable {p : Zipper Addr} {a b : Addr}

theorem exchanged_confined (h : Memory V M) : Confined (b :: holder p) h (exchanged h p a b) :=
  ((Confined.store p _).mono fun _ => mem_cons_of_mem _).trans
    (.copyLink (mem_cons_self ..) a)

theorem exchanged_here (ha : ¬ Beside p a) :
    (exchanged h p a b).child b = h.child a ∧ (exchanged h p a b).parent b = h.parent a := by
  have hs := (Confined.store (h := h) p (some b)).outside a fun hm => ha (holder_beside hm)
  exact ⟨(if_pos rfl).trans hs.child, (if_pos rfl).trans hs.parent⟩

section

variable {c : Addr} (e : Bool) (y : Option Addr)

theorem exchanged_around (hn : (plug p t).toList.Nodup) (hc : ¬ Beside p c) (hb : ¬ Beside p b)
    (hp : Around tr h none sub k p) :
    Around tr (exchanged (h.setChild c e y) p a b) none (some b) k p := by
  have c1 : Confined [c] h (h.setChild c e y) := .setChild (mem_singleton_self c) _ _
  have c3 : Confined [b] _ (exchanged (h.setChild c e y) p a b) := .copyLink (mem_singleton_self b) a
  exact ((hp.frame tr c1 hc).write tr hn).frame tr c3 hb

theorem exchanged_sound (hc : c ∉ x.toList) (hb : b ∉ x.toList) (hp : ∀ v ∈ x.toList, ¬ Beside p v)
    (hx : Sound tr h par x) : Sound tr (exchanged (h.setChild c e y) p a b) par x := by
  have c1 : Confined [c] h (h.setChild c e y) := .setChild (mem_singleton_self c) _ _
  refine (exchanged_confined _).sound tr (fun v hv hm => ?_) (c1.sound_one tr hc hx)
  rcases mem_cons.1 hm with rfl | hm
  · exact hb hv
  · exact hp v hv (holder_beside hm)

end

end Exchange

/-- The predecessor takes the node's place, above the way `q` down to its own place, where its left
subtree `x` stays, and above the node's right subtree `r`. -/
theorem spliced_spec {q : Zipper Addr} {j : Nat} {c : Addr} {e : Bool}
    (hlink : linkIn (.child a false) q = .child c e) (hp : Around tr h none (some a) k p)
    (hq : Around tr h (some a) (some b) j q)
    (ja : Joined h (above none p) false (plug q (.node x b .nil)).root a r.root)
    (jb : Joined h (above (some a) q) false x.root b none) (sx : Sound tr h (some b) x)
    (sr : Sound tr h (some a) r)
    (hn : (plug p (.node (plug q (.node x b .nil)) a r)).toList.Nodup) :
    let g := spliced h p a c e b (above (some b) q)
    Joined g (above none p) false (top x.root q) b r.root ∧ Sound tr g (above (some b) q) x ∧
    Sound tr g (some b) r ∧ Around tr g none (some b) k p ∧ Around tr g (some b) x.root j q ∧
    ∀ v, g.value v = h.value v := by
  intro g
  generalize hl : plug q (.node x b .nil) = l at *
  obtain ⟨hn1, hnb⟩ := nodup_plug hn
  obtain ⟨hal, har, hnl, hnr, hlr⟩ := (nodup_fork false l r a).1 hn1
  obtain ⟨hn2, hnq⟩ := nodup_plug (hl ▸ hnl)
  obtain ⟨hbx, -, hnx, -, -⟩ := (nodup_fork false x .nil b).1 hn2
  -- where the pieces are
  have ml : ∀ v, v ∈ l.toList ↔ v ∈ (node x b .nil).toList ∨ Beside q v := fun v => by
    rw [← hl]
    exact mem_plug
  have mx : ∀ v ∈ x.toList, v ∈ (node x b .nil).toList := fun v hv => mem_append_left _ hv
  have mb : b ∈ (node x b .nil).toList := root_mem rfl
  have lx : ∀ v ∈ x.toList, v ∈ l.toList := fun v hv => (ml v).2 (.inl (mx v hv))
  have lb : b ∈ l.toList := (ml b).2 (.inl mb)
  have lq : ∀ v, Beside q v → v ∈ l.toList := fun v hv => (ml v).2 (.inr hv)
  have pl : ∀ v ∈ l.toList, ¬ Beside p v := fun v hv => hnb v (mem_append_left _ hv)
  have pa : ¬ Beside p a := hnb a (root_mem rfl)
  have pr : ∀ v ∈ r.toList, ¬ Beside p v := fun v hv =>
    hnb v (mem_append_right _ (mem_cons_of_mem _ hv))
  have qx : ∀ v ∈ x.toList, ¬ Beside q v := fun v hv => hnq v (mx v hv)
  have qb : ¬ Beside q b := hnq b mb
  -- the root of what is left of the left subtree
  have hz : ∀ v ∈ (top x.root q).toList, v ∈ x.toList ∨ Beside q v := fun v hv => by
    rw [← root_plug, Option.mem_toList] at hv
    exact mem_plug.1 (root_mem hv)
  have zl : ∀ v ∈ (top x.root q).toList, v ∈ l.toList := fun v hv => (hz v hv).elim (lx v) (lq v)
  -- the holder of the predecessor's link
  have hc : c = a ∨ Beside q c := by
    cases q with
    | nil =>
      cases hlink
      exact .inl rfl
    | cons f q =>
      cases hlink
      exact .inr (beside_cons.2 (.inl rfl))
  have cb : c ≠ b := by
    rintro rfl
    exact hc.elim (fun e => hal (e ▸ lb)) qb
  have cp : ¬ Beside p c := hc.elim (fun e => e ▸ pa) fun hm => pl c (lq c hm)
  -- the steps and what each may change
  have c1 : Confined [c] h (h.setChild c e x.root) := .setChild (mem_singleton_self _) _ _
  have c3 := exchanged_confined (p := p) (a := a) (b := b) (h.setChild c e x.root)
  have c4 : ∀ g : Memory V M, Confined x.toList g (g.adopt x.root (above (some b) q)) :=
    fun _ => .adopt (fun _ e => root_mem e) _
  have c5 : ∀ g : Memory V M,
      Confined (top x.root q).toList g (g.adopt (top x.root q) (some b)) :=
    fun _ => .adopt (fun _ e => Option.mem_toList.2 e) _
  have c6 : ∀ g : Memory V M, Confined r.toList g (g.adopt r.root (some b)) :=
    fun _ => .adopt (fun _ e => root_mem e) _
  have off3 : ∀ v, v ≠ b → ¬ Beside p v → v ∉ b :: holder p := fun v h1 h2 hm =>
    (mem_cons.1 hm).elim h1 fun hm => h2 (holder_beside hm)
  obtain ⟨e1, e2⟩ := exchanged_here pa
  have hleft : (exchanged (h.setChild c e x.root) p a b).child b false = top x.root q := by
    rw [e1]
    cases q with
    | nil =>
      cases hlink
      exact if_pos ⟨rfl, rfl⟩
    | cons f q =>
      cases hlink
      refine (if_neg fun he => ?_).trans (ja.here.trans (hl ▸ root_plug ..))
      exact hal (he.1 ▸ lq _ (beside_cons.2 (.inl rfl)))
  have hright : (exchanged (h.setChild c e x.root) p a b).child b true = r.root := by
    rw [e1]
    refine (if_neg fun he => ?_).trans ja.there
    cases q with
    | nil =>
      cases hlink
      cases he.2
    | cons f q =>
      cases hlink
      exact hal (he.1 ▸ lq _ (beside_cons.2 (.inl rfl)))
  have hself : (exchanged (h.setChild c e x.root) p a b).child c e = x.root := by
    rw [(c3.outside c (off3 c cb cp)).child]
    exact if_pos ⟨rfl, rfl⟩
  have hmem : g = _ := spliced_eq jb.here hself hleft hright
  rw [hmem]
  refine ⟨?_, ?_, ?_, ?_, ?_, fun v => ?_⟩
  · refine Joined.congr ((c6 _).outside b (hlr b lb)) (Joined.congr ((c5 _).outside b fun hm => ?_)
      (Joined.congr ((c4 _).outside b hbx) ⟨hleft, hright, e2.trans ja.parent⟩))
    exact (hz b hm).elim hbx qb
  · have s3 := exchanged_sound tr (a := a) e x.root (fun hm => hc.elim (fun e => hal (e ▸ lx c hm))
      (qx c hm)) hbx (fun v hv => pl v (lx v hv)) sx
    have s4 := s3.adopt tr (above (some b) q) hnx
    refine (c6 _).sound tr (fun v hv => hlr v (lx v hv)) ?_
    cases q with
    | nil => exact s4.adopt tr (some b) hnx
    | cons f q =>
      refine (c5 _).sound tr (fun v hv hm => qx v hv ?_) s4
      have hroot : (plug (f :: q) .nil).root = some v := (root_plug ..).trans (Option.mem_toList.1 hm)
      exact (mem_plug.1 (root_mem hroot)).resolve_left not_mem_nil
  · have s3 := exchanged_sound tr (a := a) e x.root (hc.elim (fun e => e ▸ har) fun hm =>
      hlr c (lq c hm)) (hlr b lb) pr sr
    have s4 := (c4 _).sound tr (fun v hv hm => hlr v (lx v hm) hv) s3
    have s5 := (c5 _).sound tr (fun v hv hm => hlr v (zl v hm) hv) s4
    exact s5.adopt tr (some b) hnr
  · have p3 := exchanged_around tr (a := a) e x.root hn cp (pl b lb) hp
    have p4 := p3.congr tr fun v hv => (c4 _).outside v fun hm => pl v (lx v hm) hv
    have p5 := p4.congr tr fun v hv => (c5 _).outside v fun hm => pl v (zl v hm) hv
    exact p5.congr tr fun v hv => (c6 _).outside v fun hm => pr v hm hv
  · cases q with
    | nil => trivial
    | cons f q =>
      cases hlink
      have q1 := hq.setChild tr (q := x.root) (hl ▸ hnl)
      have q3 := q1.congr tr fun v hv => c3.outside v (off3 v (fun e => qb (e ▸ hv)) (pl v (lq v hv)))
      have q4 := q3.congr tr fun v hv => (c4 _).outside v fun hm => qx v hm hv
      have q5 := Around.adopt tr (some b) (hl ▸ hnl) q4
      exact q5.congr tr fun v hv => (c6 _).outside v (hlr v (lq v hv))
  · exact ((c6 _).value v).trans (((c5 _).value v).trans (((c4 _).value v).trans
      ((c3.value v).trans (c1.value v))))

theorem plug_sublist {s : BinTree Addr} (hs : s.toList.Sublist t.toList) :
    (plug p s).toList.Sublist (plug p t).toList := by
  rw [toList_plug, toList_plug]
  exact (hs.append_left _).append_right _

theorem splice_spec {q : Zipper Addr}
    (hs : Sound tr T.mem none (plug p (.node (plug q (.node x b .nil)) a r)))
    (hb : (plug p (.node (plug q (.node x b .nil)) a r)).Balanced)
    (hn : (plug p (.node (plug q (.node x b .nil)) a r)).toList.Nodup) (hq : after q = [])
    (hsize : T.mSize + 1 = (plug p (.node (plug q (.node x b .nil)) a r)).toList.length) :
    ∃ S c T' t, T.splice (linkIn .root p) a (linkIn (.child a false) q) b = (S, some c) ∧
      S.rebalanceFrom tr c = some T' ∧
      Yields tr T T' (before p ++ ((plug q (.node x b .nil)).toList ++ r.toList) ++ after p) t := by
  obtain ⟨hp, ha, ba⟩ := sound_plug tr hs hb
  obtain ⟨ja, -, sl, sr⟩ := ha
  obtain ⟨k1, k2, bl, br⟩ := ba
  obtain ⟨haq, ⟨jb, -, sx, -⟩, -, -, bx, -⟩ := sound_plug tr sl bl
  set l := before p ++ ((plug q (.node x b .nil)).toList ++ r.toList) ++ after p with hl
  have hx : (BinTree.node x b .nil).height = x.height + 1 := by simp [BinTree.height]
  have hlen : T.mSize = l.length := by
    rw [toList_plug p] at hsize
    simp only [hl, BinTree.toList, length_append, length_cons] at hsize ⊢
    omega
  have hnd : l.Nodup := by
    refine hn.sublist ?_
    rw [toList_plug p]
    exact (((sublist_cons_self a _).append_left _).append_left _).append_right _
  obtain ⟨c, e, hlink⟩ : ∃ c e, linkIn (.child a false) q = .child c e := by
    cases q <;> exact ⟨_, _, rfl⟩
  have hpar : (if T.mem.parent b = some a then some b else T.mem.parent b) = above (some b) q := by
    rw [jb.parent]
    cases q with
    | nil => exact if_pos rfl
    | cons f q =>
      refine if_neg fun e => ((nodup_fork false _ r a).1 (nodup_plug hn).1).1 (mem_plug.2 (.inr ?_))
      exact beside_cons.2 (.inl (Option.some.inj e).symm)
  obtain ⟨jg, sgx, sgr, pg, qg, vg⟩ := spliced_spec tr hlink hp haq ja jb sx sr hn
  have hmem := splice_mem (T := T) p a c e b
  rw [hpar] at hmem
  rw [← hmem] at jg sgx sgr pg qg vg
  have hlist : (plug (q ++ ⟨false, b, r⟩ :: p) x).toList = l := by
    rw [hl, plug_append, plug, toList_plug p]
    simp only [fork, toList]
    rw [toList_plug q, toList_plug q, hq]
    simp [toList]
  have haround : Around tr (T.splice (linkIn .root p) a (.child c e) b).1.mem none x.root
      (node x b .nil).height (q ++ ⟨false, b, r⟩ :: p) := by
    refine around_append tr qg ⟨jg, sgr, br, ?_, ?_, ?_⟩
    · rwa [← height_plug]
    · rwa [← height_plug]
    · rwa [← height_plug]
  obtain ⟨f, w, hw, hf⟩ : ∃ f w, q ++ ⟨false, b, r⟩ :: p = f :: w ∧ above (some b) q = some f.label := by
    cases q <;> exact ⟨_, _, rfl, rfl⟩
  rw [hw] at haround hlist
  rw [hf] at sgx hpar
  obtain ⟨T', t, hr, hy⟩ := rebalanceFrom_above tr haround sgx bx (by omega) (by omega)
    (hlist ▸ hnd) (by rw [splice_mSize]; exact hlen.trans (congrArg List.length hlist).symm)
  refine ⟨_, f.label, T', t, ?_, hr, hy.represents, hy.toList.trans hlist, fun v => ?_⟩
  · rw [hlink]
    exact Prod.ext rfl hpar
  · exact (hy.value v).trans (vg v)

/-- **Removal** of the node at a link leaves the other nodes in order. -/
theorem removeLink_spec {l : BinTree Addr} (hT : Represents tr T (plug p (.node l a r))) :
    ∃ T' t, T.removeLink tr (linkIn .root p) (above none p) = some (T', a) ∧
      Yields tr T T' (before p ++ (l.toList ++ r.toList) ++ after p) t := by
  obtain ⟨hp, ⟨ja, -, sl, sr⟩, -, -, bl, br⟩ := sound_plug tr hT.sound hT.balanced
  have hleft : T.mem.child a false = l.root := ja.here
  have hright : T.mem.child a true = r.root := ja.there
  have hread : T.read (linkIn .root p) = some a := hT.read
  have hlen := hT.size
  rw [toList_plug] at hlen
  simp only [toList, length_append, length_cons] at hlen
  -- what is left when one subtree is empty
  have one : ∀ u : BinTree Addr, u.toList = l.toList ++ r.toList → Sound tr T.mem (some a) u →
      u.Balanced → (node l a r).height = u.height + 1 →
      ∃ T' t, ({ T with mSize := T.mSize - 1 } : AVLTree V M).lift tr (linkIn .root p) u.root
        (above none p) = some T' ∧
        Yields tr T T' (before p ++ (l.toList ++ r.toList) ++ after p) t := by
    intro u hu su bu hk
    have hn : (plug p u).toList.Nodup := hT.nodup.sublist (plug_sublist (by
      rw [hu]
      exact (sublist_cons_self a _).append_left _))
    have hsz : T.mSize - 1 = (plug p u).toList.length := by
      rw [toList_plug, hu]
      simp only [length_append]
      omega
    obtain ⟨T', t, hr, hy⟩ := lift_spec tr (T := { T with mSize := T.mSize - 1 }) hp su bu hk hn hsz
    rw [toList_plug, hu] at hy
    exact ⟨T', t, hr, hy.represents, hy.toList, hy.value⟩
  unfold removeLink
  simp only [hread, Option.bind_eq_bind, Option.bind_some, hleft, hright]
  cases l with
  | nil =>
    obtain ⟨T', t, hr, hy⟩ := one r rfl sr br (by simp [BinTree.height])
    refine ⟨T', t, ?_, hy⟩
    show (lift tr _ _ r.root _).bind _ = _
    rw [hr]
    rfl
  | node l1 c l2 =>
    cases r with
    | nil =>
      obtain ⟨T', t, hr, hy⟩ := one (.node l1 c l2) (append_nil _).symm sl bl
        (by simp [BinTree.height])
      refine ⟨T', t, ?_, hy⟩
      simp only [BinTree.root] at hr ⊢
      rw [hr]
      rfl
    | node r1 e r2 =>
      have hfuel : (node l1 c l2).height ≤ T.mSize - 1 + 1 := by
        have hh := height_le_length (node l1 c l2)
        omega
      obtain ⟨q, x, b, hl, hq, hlast⟩ := lastRight_spec tr (.child a false) (q := []) rfl sl rfl
        hfuel
      have hl' : plug q (.node x b .nil) = .node l1 c l2 := hl
      rw [← hl'] at hT
      obtain ⟨S, d, T', t, hsp, hr, hy⟩ := splice_spec tr (T := { T with mSize := T.mSize - 1 })
        hT.sound hT.balanced hT.nodup hq (by
          have e := hT.size
          have hpos : 0 < T.mSize := by
            omega
          show T.mSize - 1 + 1 = _
          omega)
      rw [hl'] at hy
      refine ⟨T', t, ?_, hy.represents, hy.toList, hy.value⟩
      rw [linkIn] at hlast
      simp only [root, hlast, Option.bind_some, hsp, hr]
      rfl

end MegaSdk.FileService.AVLTree
