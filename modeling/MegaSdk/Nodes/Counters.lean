/-
  File:      MegaSdk/Nodes/Counters.lean
  Subject:   THE COUNTERS THAT ARE KEPT ARE THE ONES THAT WOULD BE CALCULATED.

  * `Linked` -- the child lists are those of the parent pointers, which form a forest, and only files
    hang below files;
  * `Counted` -- every node carries the counter that `calculateNodeCounter` would return for it; on a
    linked tree this is that no node has a defect (`Linked.counted_iff`);
  * `defectOf_updateTreeCounter` -- adding along the ancestors changes the defect of the first one;
  * `Good.setparent` -- such a move keeps the counters right.
-/
import MegaSdk.Base.Forest
import MegaSdk.Nodes.Manager

namespace MegaSdk.Nodes.NodeManager

open Base List Function OrdMap Option

variable {s s' : NodeManager} {h k a : Nat} {n : Node} {p : Nat} {o : Option Nat}

/-! ## 1. The tree of a state -/

def par (s : NodeManager) (k : Nat) : Option Nat := (s.node k).bind (·.parent)

def kids (s : NodeManager) (k : Nat) : List Nat := ((s.node k).map (·.mChildren.keys)).getD []

def counter (s : NodeManager) (k : Nat) : NodeCounter := ((s.node k).map (·.mCounter)).getD 0

def own (s : NodeManager) (k : Nat) : NodeCounter :=
  match s.node k with
  | none => 0
  | some n => NodeCounter.addOwn 0 n.type (s.typeOf n.parent == .filenode) n.size

def marked (s : NodeManager) (k : Nat) : Bool := ((s.node k).map (·.removed)).getD false

section

variable (hn : s.node h = some n)
include hn

theorem par_of_node : s.par h = n.parent := by
  unfold par
  rw [hn]
  rfl

theorem kids_of_node : s.kids h = n.mChildren.keys := by
  unfold kids
  rw [hn]
  rfl

theorem counter_of_node : s.counter h = n.mCounter := by
  unfold counter
  rw [hn]
  rfl

theorem typeOf_of_node : s.typeOf (some h) = n.type := by
  unfold typeOf
  rw [bind_some, hn]

theorem own_of_node :
    s.own h = NodeCounter.addOwn 0 n.type (s.typeOf n.parent == .filenode) n.size := by
  unfold own
  rw [hn]

end

theorem nodup_kids (s : NodeManager) (a) : (s.kids a).Nodup := by
  unfold kids
  cases s.node a with
  | none => exact nodup_nil
  | some n => exact n.mChildren.nodup_keys

theorem exists_of_par (hp : s.par k = some p) : ∃ n, s.node k = some n := by
  unfold par at hp
  cases hn : s.node k with
  | none =>
    rw [hn] at hp
    cases hp
  | some n => exact ⟨n, rfl⟩

theorem exists_of_kids (hk : k ∈ s.kids a) : ∃ n, s.node a = some n := by
  unfold kids at hk
  cases hn : s.node a with
  | none =>
    rw [hn] at hk
    cases hk
  | some n => exact ⟨n, rfl⟩

/-- The child lists are those of the parent pointers, the pointers form a forest, and only files hang
    below files. -/
structure Linked (s : NodeManager) : Prop where
  kids : ∀ a k, k ∈ s.kids a ↔ s.par k = some a
  ranked : Ranked s.par
  files : ∀ k p, s.par k = some p → s.typeOf (some p) = .filenode → s.typeOf (some k) = .filenode

def handles (s : NodeManager) : Finset Nat := s.mNodes.keys.toFinset

theorem mem_handles : h ∈ s.handles ↔ ∃ n, s.node h = some n := by
  unfold handles
  rw [List.mem_toFinset, OrdMap.mem_keys, isSome_iff_exists]
  rfl

theorem card_handles_le (s : NodeManager) : s.handles.card ≤ s.mNodes.size := by
  rw [← length_keys]
  exact toFinset_card_le _

theorem Linked.parent_mem (hl : Linked s) (hp : s.par k = some p) : p ∈ s.handles :=
  mem_handles.2 (exists_of_kids ((hl.kids p k).2 hp))

theorem child_mem (hp : s.par k = some p) : k ∈ s.handles :=
  mem_handles.2 (exists_of_par hp)

def path (s : NodeManager) (o : Option Nat) : List Nat := chain s.par s.mNodes.size o

def Known (s : NodeManager) (o : Option Nat) : Prop := ∀ p, o = some p → ∃ n, s.node p = some n

theorem Linked.ends (hl : Linked s) (ho : s.Known o) : Ends s.par s.mNodes.size o :=
  hl.ranked.ends (fun _ _ => hl.parent_mem) (fun a ha => mem_handles.2 (ho a ha))
    s.card_handles_le

theorem known_none : s.Known none := nofun

theorem known_some (hp : ∃ n, s.node p = some n) : s.Known (some p) := by
  rintro _ ⟨⟩
  exact hp

theorem Linked.known_par (hl : Linked s) : s.Known (s.par k) :=
  fun _ hp => mem_handles.1 (hl.parent_mem hp)

/-! ## 2. What is counted is what is calculated -/

theorem addOwn_eq (nc : NodeCounter) (t : NodeType) (v : Bool) (size : Int) :
    nc.addOwn t v size = NodeCounter.addOwn 0 t v size + nc := by
  cases t <;> cases v <;>
    simp [NodeCounter.addOwn, NodeCounter.zero_eq, NodeCounter.add_eq, add_comm]

/-- The defect of a node: its counter against itself and the counters of its children. -/
def defectOf (s : NodeManager) (a : Nat) : NodeCounter := defect s.kids s.own s.counter a

/-- **Every node carries the counter that would be calculated for it.** -/
def Counted (s : NodeManager) : Prop :=
  ∀ h n, s.node h = some n → n.mCounter = s.calculateNodeCounter h (s.typeOf n.parent)

theorem calculateFuel_succ (f : Nat) (hn : s.node h = some n) :
    s.calculateFuel (f + 1) h (s.typeOf n.parent) =
      s.own h + ((s.kids h).map fun k => s.calculateFuel f k n.type).sum := by
  rw [own_of_node hn, kids_of_node hn, ← addOwn_eq, calculateFuel, hn]

theorem Linked.typeOf_parent (hl : Linked s) (hn : s.node h = some n) (hk : k ∈ s.kids h) :
    s.typeOf (s.par k) = n.type := by
  rw [(hl.kids h k).1 hk, typeOf_of_node hn]

theorem defectOf_of_not_node (hn : s.node a = none) : s.defectOf a = 0 := by
  unfold defectOf
  rw [defect_eq_zero]
  unfold counter own kids
  rw [hn]
  rfl

/-- The calculated counters do not depend on the fuel, from the number of nodes on. -/
theorem Linked.calculateFuel_stable (hl : Linked s) {f : Nat} (hf : s.mNodes.size ≤ f)
    (ha : ∃ n, s.node a = some n) (t : NodeType) :
    s.calculateFuel (f + 1) a t = s.calculateFuel f a t := by
  refine hl.ranked.descend (fun k _ hp => child_mem hp)
    (P := fun f a => ∀ t, s.calculateFuel (f + 1) a t = s.calculateFuel f a t)
    (fun f a ih t => ?_) a (mem_handles.2 ha) f (s.card_handles_le.trans hf) t
  conv_lhs => rw [calculateFuel]
  conv_rhs => rw [calculateFuel]
  cases hn : s.node a with
  | none => rfl
  | some n =>
    have hsum : (n.mChildren.keys.map fun k => s.calculateFuel (f + 1) k n.type) =
        n.mChildren.keys.map fun k => s.calculateFuel f k n.type := by
      refine map_congr_left fun k hk => ih k ?_ n.type
      rw [← kids_of_node hn] at hk
      exact (hl.kids a k).1 hk
    simp only [hsum]

/-- **On a linked tree the counters are right exactly if no node has a defect.** -/
theorem Linked.counted_iff (hl : Linked s) : Counted s ↔ ∀ a, s.defectOf a = 0 := by
  constructor
  · intro hc a
    cases hn : s.node a with
    | none => exact defectOf_of_not_node hn
    | some n =>
      unfold defectOf
      rw [defect_eq_zero, counter_of_node hn, hc a n hn]
      unfold calculateNodeCounter
      rw [← hl.calculateFuel_stable le_rfl ⟨n, hn⟩, calculateFuel_succ _ hn]
      congr 2
      refine map_congr_left fun k hk => ?_
      obtain ⟨m, hm⟩ := exists_of_par ((hl.kids a k).1 hk)
      rw [counter_of_node hm, hc k m hm, ← par_of_node hm, hl.typeOf_parent hn hk]
      rfl
  intro hd h n hn
  suffices hcalc : ∀ a ∈ s.handles, ∀ f, s.handles.card ≤ f → ∀ n, s.node a = some n →
      s.calculateFuel f a (s.typeOf n.parent) = s.counter a by
    have := hcalc h (mem_handles.2 ⟨n, hn⟩) s.mNodes.size s.card_handles_le n hn
    rw [counter_of_node hn] at this
    exact this.symm
  refine hl.ranked.descend (fun k _ hp => child_mem hp)
    fun f a ih n hn => ?_
  rw [calculateFuel_succ f hn, defect_eq_zero.1 (hd a)]
  congr 2
  refine map_congr_left fun k hk => ?_
  have hpar := (hl.kids a k).1 hk
  obtain ⟨m, hm⟩ := exists_of_par hpar
  rw [← ih k hpar m hm, ← par_of_node hm, hl.typeOf_parent hn hk]

/-! ## 3. Changes of counters -/

theorem node_insert :
    ({ s with mNodes := s.mNodes.insert h n } : NodeManager).node k =
      if h = k then some n else s.node k := get?_insert ..

theorem node_modify (f : Node → Node) :
    (s.modify h f).node k = (s.node k).map fun n => if k = h then f n else n := by
  unfold modify
  cases hn : s.node h with
  | none =>
    cases hk : s.node k with
    | none => rfl
    | some n =>
      have hne : k ≠ h := fun he => by
        rw [he, hn] at hk
        cases hk
      rw [map_some, if_neg hne]
  | some n =>
    rw [node_insert]
    by_cases hk : h = k
    · subst hk
      rw [if_pos rfl, hn, map_some, if_pos rfl]
    rw [if_neg hk]
    cases s.node k with
    | none => rfl
    | some m => rw [map_some, if_neg fun he => hk he.symm]

/-- The same nodes up to their counters. -/
def SameTree (s s' : NodeManager) : Prop :=
  ∀ k, ∃ c, s'.node k = (s.node k).map fun n => { n with mCounter := c }

theorem SameTree.refl : SameTree s s := by
  intro k
  cases s.node k with
  | none => exact ⟨0, rfl⟩
  | some n => exact ⟨n.mCounter, rfl⟩

theorem SameTree.trans {s'' : NodeManager} (h₁ : SameTree s s') (h₂ : SameTree s' s'') :
    SameTree s s'' := by
  intro k
  obtain ⟨c₁, e₁⟩ := h₁ k
  obtain ⟨c₂, e₂⟩ := h₂ k
  refine ⟨c₂, ?_⟩
  rw [e₂, e₁, Option.map_map]
  rfl

section

variable (ht : SameTree s s')
include ht

theorem SameTree.par : s'.par = s.par := by
  funext k
  obtain ⟨c, e⟩ := ht k
  unfold NodeManager.par
  rw [e, Option.bind_map]
  rfl

theorem SameTree.kids : s'.kids = s.kids := by
  funext k
  obtain ⟨c, e⟩ := ht k
  unfold NodeManager.kids
  rw [e, Option.map_map]
  rfl

theorem SameTree.marked : s'.marked = s.marked := by
  funext k
  obtain ⟨c, e⟩ := ht k
  unfold NodeManager.marked
  rw [e, Option.map_map]
  rfl

theorem SameTree.typeOf : s'.typeOf = s.typeOf := by
  funext o
  unfold NodeManager.typeOf
  cases o with
  | none => rfl
  | some p =>
    obtain ⟨c, e⟩ := ht p
    rw [bind_some, bind_some, e]
    cases s.node p <;> rfl

theorem SameTree.own : s'.own = s.own := by
  funext k
  obtain ⟨c, e⟩ := ht k
  unfold NodeManager.own
  rw [e, ht.typeOf]
  cases s.node k <;> rfl

theorem SameTree.exists_iff : (∃ n, s'.node k = some n) ↔ ∃ n, s.node k = some n := by
  obtain ⟨c, e⟩ := ht k
  rw [e]
  cases s.node k <;> simp

theorem SameTree.linked (hl : Linked s) : Linked s' where
  kids := by rw [ht.kids, ht.par]; exact hl.kids
  ranked := ht.par ▸ hl.ranked
  files := by rw [ht.par, ht.typeOf]; exact hl.files

end

theorem sameTree_setNodeCounter (c : NodeCounter) : SameTree s (s.setNodeCounter h c) := by
  intro k
  unfold setNodeCounter
  rw [node_modify]
  by_cases hk : k = h
  · exact ⟨c, by simp [hk]⟩
  obtain ⟨c', e⟩ := (SameTree.refl) k
  refine ⟨c', ?_⟩
  simp only [if_neg hk]
  rw [← e]
  exact map_id'

theorem counter_setNodeCounter (c : NodeCounter) (hn : s.node h = some n) :
    (s.setNodeCounter h c).counter = Function.update s.counter h c := by
  funext k
  unfold counter setNodeCounter
  rw [node_modify]
  by_cases hk : k = h
  · subst hk
    rw [hn]
    simp
  · rw [update_of_ne hk]
    simp [if_neg hk]

/-- What the operation adds. -/
def OperationType.amount : OperationType → NodeCounter → NodeCounter
  | .increase, nc => nc
  | .decrease, nc => -nc

theorem OperationType.apply_eq (op : OperationType) (c nc : NodeCounter) :
    op.apply c nc = c + op.amount nc := by
  cases op with
  | increase => rfl
  | decrease => exact sub_eq_add_neg c nc

section

variable (hl : Linked s)
include hl

section

variable (nc : NodeCounter)

section

variable (op : OperationType)

theorem updateTreeFuel_spec (f : Nat) (ho : s.Known o) :
    SameTree s (updateTreeFuel nc op f s o) ∧
      (updateTreeFuel nc op f s o).counter = addAll (chain s.par f o) (op.amount nc) s.counter := by
  induction f generalizing s o with
  | zero => exact ⟨.refl, (addAll_nil ..).symm⟩
  | succ f ih =>
    cases o with
    | none => exact ⟨.refl, (addAll_nil ..).symm⟩
    | some a =>
      obtain ⟨n, hn⟩ := ho a rfl
      rw [updateTreeFuel, hn]
      have ht := sameTree_setNodeCounter (s := s) (h := a) (op.apply n.mCounter nc)
      have hknown : (s.setNodeCounter a (op.apply n.mCounter nc)).Known n.parent := by
        intro p hp
        rw [ht.exists_iff]
        exact hl.known_par p (by rw [par_of_node hn, hp])
      obtain ⟨htree, hcount⟩ := ih (ht.linked hl) hknown
      refine ⟨ht.trans htree, ?_⟩
      rw [hcount, ht.par, counter_setNodeCounter _ hn, op.apply_eq, ← counter_of_node hn,
        ← par_of_node hn]
      exact (addAll_cons hl.ranked.not_mem_chain ..).symm

theorem updateTreeCounter_spec (ho : s.Known o) :
    SameTree s (s.updateTreeCounter o nc op) ∧
      (s.updateTreeCounter o nc op).counter = addAll (s.path o) (op.amount nc) s.counter :=
  updateTreeFuel_spec hl nc op _ ho

/-- **Updating the ancestors changes the defect of the first of them only.** -/
theorem defectOf_updateTreeCounter (ho : s.Known o) (a) :
    (s.updateTreeCounter o nc op).defectOf a =
      s.defectOf a + if o = some a then op.amount nc else 0 := by
  obtain ⟨ht, hc⟩ := updateTreeCounter_spec hl nc op ho
  unfold defectOf
  rw [ht.kids, ht.own, hc]
  exact defect_addAll_chain hl.kids s.nodup_kids hl.ranked (hl.ends ho) _ _ a

theorem counter_updateTreeCounter (ho : s.Known o) (ha : a ∉ s.path o) :
    (s.updateTreeCounter o nc op).counter a = s.counter a := by
  rw [(updateTreeCounter_spec hl nc op ho).2]
  exact if_neg ha

end

end

end

/-! ## 4. A move -/

def relinked (h : Nat) (old p : Option Nat) (k : Nat) (m : Node) : Node :=
  let children := if old = some k then m.mChildren.erase h else m.mChildren
  { m with
    parenthandle := if k = h then p else m.parenthandle
    parent := if k = h then p else m.parent
    mChildren := if p = some k then children.insert h () else children }

theorem node_relink (h : Nat) (old p : Option Nat) (k : Nat) :
    (s.relink h old p).node k = (s.node k).map (relinked h old p k) := by
  unfold relink addChild removeChild
  cases old <;> cases p <;> simp only [node_modify, Option.map_map]
  all_goals
    congr 1
    funext m
    unfold relinked
    simp only [comp_apply, Option.some.injEq, reduceCtorEq, if_false, eq_comm]
    split_ifs <;> rfl

section Relink

variable {n : Node} {old p : Option Nat}

theorem par_relink (hn : s.node h = some n) :
    (s.relink h old p).par = Function.update s.par h p := by
  funext k
  unfold par
  rw [node_relink, bind_map]
  by_cases hk : k = h
  · subst hk
    rw [hn]
    simp [relinked]
  rw [update_of_ne hk]
  congr 1
  funext m
  simp [relinked, hk]

theorem counter_relink : (s.relink h old p).counter = s.counter := by
  funext k
  unfold counter
  rw [node_relink, Option.map_map]
  rfl

theorem typeOf_relink : (s.relink h old p).typeOf = s.typeOf := by
  funext o
  unfold typeOf
  cases o with
  | none => rfl
  | some q =>
    rw [bind_some, bind_some, node_relink]
    cases s.node q <;> rfl

theorem known_relink (ho : s.Known o) : (s.relink h old p).Known o := by
  intro q hq
  obtain ⟨m, hm⟩ := ho q hq
  exact ⟨_, by rw [node_relink, hm]; rfl⟩

theorem own_relink_of_ne (hk : k ≠ h) : (s.relink h old p).own k = s.own k := by
  unfold own
  rw [node_relink, typeOf_relink]
  cases s.node k with
  | none => rfl
  | some m => simp [relinked, hk]

theorem mem_kids_relink (s : NodeManager) (h) (old p) (a k) :
    k ∈ (s.relink h old p).kids a ↔ (∃ m, s.node a = some m) ∧
      (k = h ∧ p = some a ∨ k ∈ s.kids a ∧ ¬ (old = some a ∧ k = h)) := by
  unfold kids
  rw [node_relink]
  cases s.node a with
  | none => simp
  | some m =>
    simp only [map_some, relinked]
    by_cases hp : p = some a <;> by_cases ho : old = some a <;>
      simp [hp, ho, mem_keys_insert, mem_keys_erase, and_comm]

theorem sum_map_congr {l l' : List Nat} (hl : l.Nodup) (hl' : l'.Nodup) (hiff : ∀ k, k ∈ l ↔ k ∈ l')
    (c : Nat → NodeCounter) : (l.map c).sum = (l'.map c).sum :=
  (((perm_ext_iff_of_nodup hl hl').2 hiff).map c).sum_eq

theorem sum_map_add {l l' : List Nat} (hl : l.Nodup) (hl' : l'.Nodup) (hh : h ∉ l')
    (hiff : ∀ k, k ∈ l ↔ k = h ∨ k ∈ l') (c : Nat → NodeCounter) :
    (l.map c).sum = (l'.map c).sum + c h := by
  rw [sum_map_congr hl (nodup_cons.2 ⟨hh, hl'⟩) (by simpa only [mem_cons] using hiff), map_cons,
    sum_cons, add_comm]

theorem sum_kids_relink (hl : Linked s) (hn : s.node h = some n) (hne : p ≠ n.parent)
    (hp : s.Known p) (c : Nat → NodeCounter) (a : Nat) :
    (((s.relink h n.parent p).kids a).map c).sum + (if n.parent = some a then c h else 0) =
      ((s.kids a).map c).sum + if p = some a then c h else 0 := by
  have hpar := par_of_node hn
  have hmem : h ∈ s.kids a ↔ n.parent = some a := by rw [hl.kids, hpar]
  have hiff := mem_kids_relink s h n.parent p a
  have hnodup := nodup_kids (s.relink h n.parent p) a
  by_cases hold : n.parent = some a
  · -- the old parent: one child less
    have hpa : p ≠ some a := fun he => hne (he.trans hold.symm)
    rw [if_pos hold, if_neg hpa, add_zero]
    refine (sum_map_add (s.nodup_kids a) hnodup (fun he => ?_) (fun k => ?_) c).symm
    · rcases ((hiff h).1 he).2 with hc | hc
      · exact hpa hc.2
      · exact hc.2 ⟨hold, rfl⟩
    rw [hiff]
    constructor
    · intro hk
      by_cases hkh : k = h
      · exact .inl hkh
      · exact .inr ⟨exists_of_kids hk, .inr ⟨hk, fun he => hkh he.2⟩⟩
    · rintro (rfl | ⟨-, hc | hc⟩)
      · exact hmem.2 hold
      · exact absurd hc.2 hpa
      · exact hc.1
  rw [if_neg hold, add_zero]
  by_cases hpa : p = some a
  · -- the new parent: one child more
    rw [if_pos hpa]
    refine sum_map_add hnodup (s.nodup_kids a) (fun he => hold (hmem.1 he)) (fun k => ?_) c
    rw [hiff]
    constructor
    · rintro ⟨-, hc | hc⟩
      · exact .inl hc.1
      · exact .inr hc.1
    rintro (rfl | hk)
    · exact ⟨hp a hpa, .inl ⟨rfl, hpa⟩⟩
    · exact ⟨exists_of_kids hk, .inr ⟨hk, fun he => hold he.1⟩⟩
  · rw [if_neg hpa, add_zero]
    refine sum_map_congr hnodup (s.nodup_kids a) (fun k => ?_) c
    rw [hiff]
    constructor
    · rintro ⟨-, hc | hc⟩
      · exact absurd hc.2 hpa
      · exact hc.1
    · exact fun hk => ⟨exists_of_kids hk, .inr ⟨hk, fun he => hold he.1⟩⟩

theorem defectOf_relink (hl : Linked s) (hn : s.node h = some n) (hne : p ≠ n.parent)
    (hp : s.Known p) (a) :
    (s.relink h n.parent p).defectOf a = s.defectOf a +
      (if n.parent = some a then n.mCounter else 0) - (if p = some a then n.mCounter else 0) +
        (s.own a - (s.relink h n.parent p).own a) := by
  have hsum := sum_kids_relink hl hn hne hp s.counter a
  rw [counter_of_node hn, ← eq_sub_iff_add_eq] at hsum
  unfold defectOf defect
  rw [counter_relink, hsum]
  abel

end Relink

/-- The move of `h` below `p` leaves a node tree, and does not take a version from its file without
    giving it another parent. -/
def MoveOk (s : NodeManager) (h : Nat) (p : Option Nat) : Prop :=
  s.par h = p ∨ match p with
    | none => s.typeOf (s.par h) ≠ .filenode
    | some q =>
      h ∉ s.path (some q) ∧ (s.typeOf (some q) = .filenode → s.typeOf (some h) = .filenode)

instance (s : NodeManager) (h : Nat) (p : Option Nat) : Decidable (MoveOk s h p) := by
  unfold MoveOk
  cases p <;> infer_instance

/-- What the proofs use of a move that takes place. -/
structure Moves (s : NodeManager) (h : Nat) (n : Node) (p : Option Nat) : Prop where
  node : s.node h = some n
  ne : p ≠ n.parent
  known : s.Known p
  path : h ∉ s.path p
  files : s.typeOf p = .filenode → n.type = .filenode
  role : p = none → s.typeOf n.parent ≠ .filenode

theorem MoveOk.moves {p : Option Nat} (hm : MoveOk s h p) (hn : s.node h = some n)
    (hne : p ≠ n.parent) (hp : s.Known p) : Moves s h n p := by
  have hpar := par_of_node hn
  replace hm := hm.resolve_left fun he => hne (he.symm.trans hpar)
  cases p with
  | none =>
    refine ⟨hn, hne, hp, ?_, fun he => ?_, fun _ => hpar ▸ hm⟩
    · unfold path
      rw [chain_none]
      exact not_mem_nil
    · cases he
  | some q =>
    refine ⟨hn, hne, hp, hm.1, fun he => ?_, nofun⟩
    rw [← typeOf_of_node hn]
    exact hm.2 he

section Moves

variable {n : Node} {p : Option Nat}

theorem Moves.linked (m : Moves s h n p) (hl : Linked s) : Linked (s.relink h n.parent p) where
  kids := by
    intro a k
    rw [mem_kids_relink, par_relink m.node]
    by_cases hk : k = h
    · subst hk
      rw [update_self]
      constructor
      · rintro ⟨-, hc | ⟨hc, hno⟩⟩
        · exact hc.2
        · have := (hl.kids a k).1 hc
          rw [par_of_node m.node] at this
          exact absurd ⟨this, rfl⟩ hno
      · exact fun hp => ⟨m.known a hp, .inl ⟨rfl, hp⟩⟩
    · rw [update_of_ne hk, ← hl.kids]
      constructor
      · rintro ⟨-, hc | hc⟩
        · exact absurd hc.1 hk
        · exact hc.1
      · exact fun hc => ⟨exists_of_kids hc, .inr ⟨hc, fun he => hk he.2⟩⟩
  ranked := by
    rw [par_relink m.node]
    refine hl.ranked.update (f := s.mNodes.size + 1) (fun a => hl.ends hl.known_par) ?_
    cases p with
    | none =>
      exact not_mem_nil
    | some q =>
      have hends : Ends s.par (s.mNodes.size + 1) (some q) := hl.ends hl.known_par
      rw [chain_eq_of_ends hends (hl.ends m.known)]
      exact m.path
  files := by
    intro k q hq hfile
    rw [par_relink m.node] at hq
    rw [typeOf_relink] at hfile ⊢
    by_cases hk : k = h
    · subst hk
      rw [update_self] at hq
      rw [typeOf_of_node m.node]
      exact m.files (hq ▸ hfile)
    · rw [update_of_ne hk] at hq
      exact hl.files k q hq hfile

/-- The counter that `updateCounter` gives the moved node. -/
def movedCounter (s : NodeManager) (n : Node) (p : Option Nat) : NodeCounter :=
  if s.typeOf p = .filenode then
    if 0 < n.mCounter.files then
      { n.mCounter with
        files := n.mCounter.files - 1
        storage := n.mCounter.storage - n.size
        versions := n.mCounter.versions + 1
        versionStorage := n.mCounter.versionStorage + n.size }
    else n.mCounter
  else if s.typeOf n.parent = .filenode ∧ p ≠ none then
    { n.mCounter with
      files := n.mCounter.files + 1
      storage := n.mCounter.storage + n.size
      versions := n.mCounter.versions - 1
      versionStorage := n.mCounter.versionStorage - n.size }
  else n.mCounter

/-- The state of `updateCounter` when the old ancestors are done. -/
def leave (s : NodeManager) (h : Nat) (n : Node) (p : Option Nat) : NodeManager :=
  (s.relink h n.parent p).updateTreeCounter n.parent n.mCounter .decrease

section

variable (m : Moves s h n p)
include m

section

variable (hl : Linked s)
include hl

theorem Moves.sameTree_leave : SameTree (s.relink h n.parent p) (s.leave h n p) :=
  (updateTreeCounter_spec (m.linked hl) _ _
    (known_relink (par_of_node m.node ▸ hl.known_par))).1

theorem Moves.counter_leave : (s.leave h n p).counter h = n.mCounter := by
  have hknown : s.Known n.parent := par_of_node m.node ▸ hl.known_par
  unfold leave
  rw [counter_updateTreeCounter (m.linked hl) _ _ (known_relink hknown), counter_relink,
    counter_of_node m.node]
  -- the moved node is not among its old ancestors
  unfold NodeManager.path
  have hnot : h ∉ chain s.par (s.relink h n.parent p).mNodes.size n.parent := by
    rw [← par_of_node m.node]
    exact hl.ranked.not_mem_chain
  rwa [par_relink m.node, chain_update hnot]

theorem Moves.node_leave : ∃ m', (s.leave h n p).node h = some m' := by
  rw [(m.sameTree_leave hl).exists_iff, node_relink, m.node]
  exact ⟨_, rfl⟩

theorem Moves.setparent_eq :
    s.setparent h p = ((s.leave h n p).setNodeCounter h (s.movedCounter n p)).updateTreeCounter p
        (s.movedCounter n p) .increase ∨
      s.movedCounter n p = n.mCounter ∧
        s.setparent h p = (s.leave h n p).updateTreeCounter p (s.movedCounter n p) .increase := by
  have hrel : (s.relink h n.parent p).node h = some (relinked h n.parent p h n) := by
    rw [node_relink, m.node]
    rfl
  have htype : (s.leave h n p).typeOf = s.typeOf := by
    rw [(m.sameTree_leave hl).typeOf, typeOf_relink]
  have hpar : (relinked h n.parent p h n).parent = p := if_pos rfl
  have hcount : (relinked h n.parent p h n).mCounter = n.mCounter := rfl
  have hsize : (relinked h n.parent p h n).size = n.size := rfl
  unfold setparent
  rw [m.node]
  dsimp only
  rw [if_neg m.ne]
  unfold updateCounter
  rw [hrel]
  dsimp only
  rw [hpar, hcount, show (s.relink h n.parent p).updateTreeCounter n.parent n.mCounter
    .decrease = s.leave h n p from rfl, htype]
  unfold movedCounter
  split
  · split
    · exact .inl rfl
    · exact .inr ⟨rfl, rfl⟩
  split
  · exact .inl rfl
  · exact .inr ⟨rfl, rfl⟩

theorem Moves.defectOf_leave (a) :
    (s.leave h n p).defectOf a = s.defectOf a - (if p = some a then n.mCounter else 0) +
      (s.own a - (s.relink h n.parent p).own a) := by
  unfold leave
  rw [defectOf_updateTreeCounter (m.linked hl) _ _
    (known_relink (par_of_node m.node ▸ hl.known_par)), defectOf_relink hl m.node m.ne m.known]
  split
  · rw [OperationType.amount]
    abel
  · abel

/-- **What a move does**: the tree is that of `relink`, and only the defect of the moved node changes,
    by what its counter and its own weight change. -/
theorem Moves.setparent_spec :
    SameTree (s.relink h n.parent p) (s.setparent h p) ∧
      ∀ a, (s.setparent h p).defectOf a = s.defectOf a + if a = h then
        s.movedCounter n p - n.mCounter - ((s.relink h n.parent p).own h - s.own h) else 0 := by
  have ht := m.sameTree_leave hl
  have hlink : Linked (s.leave h n p) := ht.linked (m.linked hl)
  have hknown : (s.leave h n p).Known p := fun q hq =>
    ht.exists_iff.2 (known_relink m.known q hq)
  suffices hset : SameTree (s.relink h n.parent p) (s.setparent h p) ∧
      ∀ a, (s.setparent h p).defectOf a = s.defectOf a +
        (if a = h then s.movedCounter n p - n.mCounter else 0) +
          (s.own a - (s.relink h n.parent p).own a) by
    refine ⟨hset.1, fun a => ?_⟩
    rw [hset.2]
    by_cases hah : a = h
    · subst hah
      simp only [if_true]
      abel
    · rw [if_neg hah, if_neg hah, own_relink_of_ne hah, sub_self, add_zero]
  rcases m.setparent_eq hl with he | ⟨hcount, he⟩
  · -- the counter of the moved node is written
    obtain ⟨m', hm'⟩ := m.node_leave hl
    have hset := sameTree_setNodeCounter (s := s.leave h n p) (h := h) (s.movedCounter n p)
    have hknown' : ((s.leave h n p).setNodeCounter h (s.movedCounter n p)).Known p :=
      fun q hq => hset.exists_iff.2 (hknown q hq)
    rw [he]
    refine ⟨(ht.trans hset).trans (updateTreeCounter_spec (hset.linked hlink) _ _ hknown').1,
      fun a => ?_⟩
    have hmem : h ∈ (s.leave h n p).kids a ↔ p = some a := by
      rw [hlink.kids, ht.par, par_relink m.node, update_self]
    have hd : ((s.leave h n p).setNodeCounter h (s.movedCounter n p)).defectOf a =
        (s.leave h n p).defectOf a +
          (if a = h then s.movedCounter n p - n.mCounter else 0) -
            if p = some a then s.movedCounter n p - n.mCounter else 0 := by
      unfold defectOf
      rw [hset.kids, hset.own, counter_setNodeCounter _ hm', defect_update (nodup_kids _ a),
        m.counter_leave hl]
      simp only [hmem]
    rw [defectOf_updateTreeCounter (hset.linked hlink) _ _ hknown', hd, m.defectOf_leave hl]
    split
    · rw [OperationType.amount]
      abel
    · abel
  · rw [he, hcount]
    refine ⟨ht.trans (updateTreeCounter_spec hlink _ _ hknown).1, fun a => ?_⟩
    rw [defectOf_updateTreeCounter hlink _ _ hknown, m.defectOf_leave hl, sub_self, ite_self]
    split
    · rw [OperationType.amount]
      abel
    · abel

end

end

end Moves

/-! ## 5. Moves keep the counters right -/

/-- A linked tree with right counters. -/
structure Good (s : NodeManager) : Prop where
  linked : Linked s
  defects : ∀ a, s.defectOf a = 0

theorem Good.counter_eq (hg : Good s) (a) :
    s.counter a = s.own a + ((s.kids a).map s.counter).sum := defect_eq_zero.1 (hg.defects a)

theorem files_sum_eq_zero {l : List Nat} {c : Nat → NodeCounter}
    (hl : ∀ k ∈ l, (c k).files = 0) : (l.map c).sum.files = 0 := by
  induction l with
  | nil => rfl
  | cons k l ih =>
    rw [map_cons, sum_cons, NodeCounter.add_eq, hl k (mem_cons_self ..),
      ih fun j hj => hl j (mem_cons_of_mem _ hj), zero_add]

/-- A version counts no file: below it there are versions only. -/
theorem Good.files_of_version (hg : Good s) {q : Nat} (hp : s.par k = some q)
    (hq : s.typeOf (some q) = .filenode) : (s.counter k).files = 0 := by
  have hl := hg.linked
  refine hl.ranked.descend (fun k _ hp => child_mem hp)
    (P := fun _ k => ∀ q, s.par k = some q → s.typeOf (some q) = .filenode → (s.counter k).files = 0)
    (fun f k ih q hp hq => ?_) k (child_mem hp) _ le_rfl q hp hq
  obtain ⟨n, hn⟩ := exists_of_par hp
  have htype := hl.files k q hp hq
  have hkids : ((s.kids k).map s.counter).sum.files = 0 := files_sum_eq_zero fun j hj => by
    have hj := (hl.kids k j).1 hj
    exact ih j hj k hj htype
  rw [typeOf_of_node hn] at htype
  rw [hg.counter_eq, NodeCounter.add_eq, hkids, own_of_node hn, ← par_of_node hn, hp, hq, htype]
  rfl

theorem Good.files_of_file (hg : Good s) (hn : s.node k = some n) (htype : n.type = .filenode)
    (hrole : s.typeOf n.parent ≠ .filenode) : n.mCounter.files = 1 := by
  have hkids : ((s.kids k).map s.counter).sum.files = 0 := files_sum_eq_zero fun j hj =>
    hg.files_of_version ((hg.linked.kids k j).1 hj) (by rw [typeOf_of_node hn, htype])
  have hown : (s.own k).files = 1 := by
    rw [own_of_node hn, htype, beq_false_of_ne hrole]
    rfl
  rw [← counter_of_node hn, hg.counter_eq, NodeCounter.add_eq, hkids, hown]
  rfl

section Moves

variable {n : Node} {p : Option Nat}

/-- The counter of the moved node changes by what its role changes. -/
theorem Moves.movedCounter_eq (m : Moves s h n p) (hg : Good s) :
    s.movedCounter n p - n.mCounter = (s.relink h n.parent p).own h - s.own h := by
  have hnode : (s.relink h n.parent p).node h = some (relinked h n.parent p h n) := by
    rw [node_relink, m.node]
    rfl
  have hpar : (relinked h n.parent p h n).parent = p := if_pos rfl
  rw [own_of_node hnode, hpar, typeOf_relink, own_of_node m.node]
  show _ = NodeCounter.addOwn 0 n.type _ n.size - _
  unfold movedCounter
  by_cases hnew : s.typeOf p = .filenode
  · have htype := m.files hnew
    rw [if_pos hnew, hnew, htype]
    by_cases hold : s.typeOf n.parent = .filenode
    · -- from one file to another: a version stays a version
      have hzero : n.mCounter.files = 0 := by
        cases hq : n.parent with
        | none =>
          rw [hq] at hold
          cases hold
        | some q =>
          rw [← counter_of_node m.node]
          exact hg.files_of_version ((par_of_node m.node).trans hq) (hq ▸ hold)
      rw [hzero, hold, if_neg (by decide), sub_self, sub_self]
    · rw [beq_false_of_ne hold]
      simp [NodeCounter.addOwn, NodeCounter.zero_eq, NodeCounter.sub_eq,
        hg.files_of_file m.node htype hold]
  rw [if_neg hnew, beq_false_of_ne hnew]
  by_cases hold : s.typeOf n.parent = .filenode
  · have hsome : p ≠ none := fun he => m.role he hold
    have htype : n.type = .filenode := by
      cases hq : n.parent with
      | none =>
        rw [hq] at hold
        cases hold
      | some q =>
        rw [← typeOf_of_node m.node]
        exact hg.linked.files h q ((par_of_node m.node).trans hq) (hq ▸ hold)
    rw [if_pos ⟨hold, hsome⟩, hold, htype]
    simp [NodeCounter.addOwn, NodeCounter.zero_eq, NodeCounter.sub_eq]
  · rw [if_neg fun he => hold he.1, beq_false_of_ne hold, sub_self, sub_self]

/-- **A move keeps the counters right**, and no node is lost. -/
theorem Good.setparent (hg : Good s) (hp : s.Known p) (hm : MoveOk s h p) :
    Good (s.setparent h p) ∧
      ∀ k, (∃ n, s.node k = some n) → ∃ n, (s.setparent h p).node k = some n := by
  cases hn : s.node h with
  | none =>
    unfold NodeManager.setparent
    rw [hn]
    exact ⟨hg, fun _ => id⟩
  | some n =>
    by_cases hne : p = n.parent
    · unfold NodeManager.setparent
      rw [hn]
      dsimp only
      rw [if_pos hne]
      exact ⟨hg, fun _ => id⟩
    have m := hm.moves hn hne hp
    obtain ⟨ht, hd⟩ := m.setparent_spec hg.linked
    refine ⟨⟨ht.linked (m.linked hg.linked), fun a => ?_⟩, fun k ⟨n', hn'⟩ => ?_⟩
    · rw [hd, hg.defects a, m.movedCounter_eq hg, sub_self, ite_self, add_zero]
    · rw [ht.exists_iff, node_relink, hn']
      exact ⟨_, rfl⟩

end Moves

end MegaSdk.Nodes.NodeManager
