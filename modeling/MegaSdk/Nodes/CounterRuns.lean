/-
  File:      MegaSdk/Nodes/CounterRuns.lean
  Subject:   THE COUNTERS OVER WHOLE RUNS of arrivals, moves and removals.

  A version that becomes a file again is counted anew only by a move straight from its file to another
  parent. Where the move passes through a null parent, because the new one has not arrived yet, the
  node goes on as a version (`version_through_null`). The same holds for a version whose file is
  removed without it.

  * `ReadOk`, `PurgeOk` -- the conditions on an arrival and on a purge, together `KeepsRoles`;
  * `Purging` -- the invariant between two rounds of a purge: a version whose file is already gone has
    no parent, and its turn comes;
  * `counted_of_run` -- **the counters are right in every run that meets the conditions.**
-/
import MegaSdk.Nodes.Counters

namespace MegaSdk.Nodes.NodeManager

open Base List Function Option

variable {s s' : NodeManager} {h k a : Nat} {o : Option Nat} {l : List Nat}

/-! ## 1. Changes that the counters do not see -/

def core (n : Node) : Node := { n with removed := false, parenthandle := none }

/-- The same nodes up to marks and parent handles. -/
def SameCore (s s' : NodeManager) : Prop := ∀ k, (s'.node k).map core = (s.node k).map core

theorem SameCore.refl : SameCore s s := fun _ => rfl

theorem SameCore.trans {s'' : NodeManager} (h₁ : SameCore s s') (h₂ : SameCore s' s'') :
    SameCore s s'' := fun k => (h₂ k).trans (h₁ k)

theorem sameCore_modify {f : Node → Node} (hf : ∀ n, core (f n) = core n) :
    SameCore s (s.modify h f) := by
  intro k
  rw [node_modify, Option.map_map]
  congr 1
  funext n
  split
  · simp [hf]
  · simp

section

variable (hs : SameCore s s')
include hs

theorem SameCore.map {β : Type} (g : Node → β) (hg : ∀ n, g (core n) = g n)
    (k) : (s'.node k).map g = (s.node k).map g := by
  have hcore := congrArg (Option.map g) (hs k)
  rw [Option.map_map, Option.map_map] at hcore
  have hcomp : g ∘ core = g := funext hg
  rwa [hcomp] at hcore

theorem SameCore.par : s'.par = s.par := by
  funext k
  have := hs.map (·.parent) (fun _ => rfl) k
  unfold NodeManager.par
  revert this
  cases s'.node k <;> cases s.node k <;> simp

theorem SameCore.kids : s'.kids = s.kids := by
  funext k
  unfold NodeManager.kids
  rw [hs.map (·.mChildren.keys) fun _ => rfl]

theorem SameCore.counter : s'.counter = s.counter := by
  funext k
  unfold NodeManager.counter
  rw [hs.map (·.mCounter) fun _ => rfl]

theorem SameCore.typeOf : s'.typeOf = s.typeOf := by
  funext o
  cases o with
  | none => rfl
  | some p =>
    have := hs.map (·.type) (fun _ => rfl) p
    unfold NodeManager.typeOf
    rw [bind_some, bind_some]
    revert this
    cases s'.node p <;> cases s.node p <;> simp

theorem SameCore.own : s'.own = s.own := by
  funext k
  have := hs.map (fun n => (n.type, n.parent, n.size)) (fun _ => rfl) k
  unfold NodeManager.own
  rw [hs.typeOf]
  revert this
  cases s'.node k <;> cases s.node k <;> simp
  intro ht hp hz
  rw [ht, hp, hz]

theorem SameCore.exists_iff : (∃ n, s'.node k = some n) ↔ ∃ n, s.node k = some n := by
  have := hs k
  revert this
  cases s'.node k <;> cases s.node k <;> simp

theorem SameCore.good (hg : Good s) : Good s' where
  linked :=
    { kids := by rw [hs.kids, hs.par]; exact hg.linked.kids
      ranked := hs.par ▸ hg.linked.ranked
      files := by rw [hs.par, hs.typeOf]; exact hg.linked.files }
  defects := by
    intro a
    unfold defectOf
    rw [hs.kids, hs.own, hs.counter]
    exact hg.defects a

end

theorem sameCore_of_mNodes (he : s'.mNodes = s.mNodes) : SameCore s s' := by
  intro k
  unfold node
  rw [he]

theorem Good.of_mNodes (hg : Good s) (he : s'.mNodes = s.mNodes) : Good s' :=
  (sameCore_of_mNodes he).good hg

theorem SameCore.known (hs : SameCore s s') (ho : s.Known o) : s'.Known o :=
  fun p hp => hs.exists_iff.2 (ho p hp)

theorem SameCore.path (hs : SameCore s s') (hg : Good s) (ho : s.Known o) :
    s'.path o = s.path o := by
  have hends := (hs.good hg).linked.ends (hs.known ho)
  unfold NodeManager.path
  rw [hs.par] at hends ⊢
  exact chain_eq_of_ends hends (hg.linked.ends ho)

theorem SameCore.moveOk (hs : SameCore s s') (hg : Good s) {p : Option Nat} (hp : s.Known p)
    (hm : MoveOk s h p) : MoveOk s' h p := by
  unfold MoveOk at hm ⊢
  rw [hs.par, hs.typeOf]
  cases p with
  | none => exact hm
  | some q =>
    dsimp only at hm ⊢
    rwa [hs.path hg hp]

/-! ## 2. Arrivals -/

def inMap (s : NodeManager) (r : NodeRecord) : NodeManager :=
  { s with mNodes := s.mNodes.insert r.h (Node.new r) }

section Insert

variable {r : NodeRecord}

theorem node_inMap : (s.inMap r).node k = if r.h = k then some (Node.new r) else s.node k :=
  node_insert

theorem node_inMap_self : (s.inMap r).node r.h = some (Node.new r) := by
  rw [node_inMap, if_pos rfl]

theorem node_inMap_of_ne (hk : k ≠ r.h) : (s.inMap r).node k = s.node k := by
  rw [node_inMap, if_neg hk.symm]

theorem par_inMap (hnew : s.node r.h = none) : (s.inMap r).par = s.par := by
  funext k
  by_cases hk : k = r.h
  · subst hk
    unfold par
    rw [node_inMap_self, hnew]
    rfl
  · unfold par
    rw [node_inMap_of_ne hk]

theorem kids_inMap (hnew : s.node r.h = none) : (s.inMap r).kids = s.kids := by
  funext k
  by_cases hk : k = r.h
  · subst hk
    unfold kids
    rw [node_inMap_self, hnew]
    rfl
  · unfold kids
    rw [node_inMap_of_ne hk]

theorem typeOf_inMap (ho : o ≠ some r.h) : (s.inMap r).typeOf o = s.typeOf o := by
  cases o with
  | none => rfl
  | some p =>
    unfold typeOf
    rw [bind_some, bind_some, node_inMap_of_ne fun he => ho (he ▸ rfl)]

theorem Linked.par_ne (hl : Linked s) (hnew : s.node h = none) (k) : s.par k ≠ some h := by
  intro hp
  obtain ⟨n, hn⟩ := mem_handles.1 (hl.parent_mem hp)
  cases hnew.symm.trans hn

theorem own_inMap (hl : Linked s) (hnew : s.node r.h = none) (hk : k ≠ r.h) :
    (s.inMap r).own k = s.own k := by
  unfold own
  rw [node_inMap_of_ne hk]
  cases hn : s.node k with
  | none => rfl
  | some n =>
    dsimp only
    rw [typeOf_inMap]
    rw [← par_of_node hn]
    exact hl.par_ne hnew k

theorem counter_inMap_of_ne (hk : k ≠ r.h) : (s.inMap r).counter k = s.counter k := by
  unfold counter
  rw [node_inMap_of_ne hk]

/-- A new node without parent and children counts itself. -/
theorem Good.inMap (hg : Good s) (hnew : s.node r.h = none) : Good (s.inMap r) where
  linked :=
    { kids := by rw [kids_inMap hnew, par_inMap hnew]; exact hg.linked.kids
      ranked := by rw [par_inMap hnew]; exact hg.linked.ranked
      files := by
        intro k p hp hfile
        rw [par_inMap hnew] at hp
        have hpne : some p ≠ some r.h := fun he => hg.linked.par_ne hnew k (hp.trans he)
        have hkne : some k ≠ some r.h := by
          intro he
          cases he
          obtain ⟨n, hn⟩ := exists_of_par hp
          cases hnew.symm.trans hn
        rw [typeOf_inMap hpne] at hfile
        rw [typeOf_inMap hkne]
        exact hg.linked.files k p hp hfile }
  defects := by
    intro a
    unfold defectOf
    rw [defect_eq_zero, kids_inMap hnew]
    by_cases ha : a = r.h
    · subst ha
      rw [counter_of_node node_inMap_self, own_of_node node_inMap_self]
      have hkids : s.kids r.h = [] := by
        unfold kids
        rw [hnew]
        rfl
      rw [hkids]
      exact (add_zero _).symm
    have hmap : (s.kids a).map (s.inMap r).counter = (s.kids a).map s.counter := by
      refine map_congr_left fun k hk => counter_inMap_of_ne fun he => ?_
      obtain ⟨n, hn⟩ := exists_of_par ((hg.linked.kids a k).1 hk)
      rw [he, hnew] at hn
      cases hn
    rw [hmap, counter_inMap_of_ne ha, own_inMap hg.linked hnew ha, hg.counter_eq a]

end Insert

/-- A node that arrives is no folder below a file, and not its own parent. -/
def PlaceOk (s : NodeManager) (r : NodeRecord) : Prop :=
  s.isRootnode r = true ∨
    r.ph ≠ some r.h ∧ (s.typeOf r.ph = .filenode → r.t = .filenode)

instance (s : NodeManager) (r : NodeRecord) : Decidable (PlaceOk s r) :=
  inferInstanceAs (Decidable (_ ∨ _))

theorem Good.place {r : NodeRecord} (hg : Good s) (hnew : s.node r.h = none) (hok : PlaceOk s r) :
    Good (s.place r) ∧ ∃ n, (s.place r).node r.h = some n := by
  have hin := hg.inMap hnew
  have hself : ∃ n, (s.inMap r).node r.h = some n := ⟨_, node_inMap_self⟩
  have hplace : s.place r = if s.isRootnode r then
      if r.t = .rootnode then { s.inMap r with rootnodesFiles := some r.h } else s.inMap r
    else if (r.ph.bind (s.inMap r).node).isSome then (s.inMap r).setparent r.h r.ph
    else (s.inMap r).addMissing r.ph r.h := rfl
  rw [hplace]
  split
  · split
    · exact ⟨hin.of_mNodes rfl, hself⟩
    · exact ⟨hin, hself⟩
  rename_i hroot
  obtain ⟨hne, hfile⟩ := hok.resolve_left hroot
  split
  · rename_i hph
    cases hq : r.ph with
    | none =>
      rw [hq] at hph
      cases hph
    | some q =>
      rw [hq] at hph hne hfile
      have hknown := known_some (isSome_iff_exists.1 hph)
      have hmove : MoveOk (s.inMap r) r.h (some q) := by
        refine .inr ⟨fun hmem => ?_, fun he => ?_⟩
        · rcases mem_chain_cases hmem with he | ⟨k, hk⟩
          · exact hne (he ▸ rfl)
          · rw [par_inMap hnew] at hk
            exact hg.linked.par_ne hnew k hk
        rw [typeOf_inMap hne] at he
        rw [typeOf_of_node node_inMap_self]
        exact hfile he
      exact (hin.setparent hknown hmove).imp id fun h => h _ hself
  · exact ⟨hin.of_mNodes rfl, hself⟩

/-- The moves of the nodes that waited for `h`, one after the other. -/
def AttachOk (h : Nat) : List Nat → NodeManager → Prop
  | [], _ => True
  | n :: l, s => MoveOk s n (some h) ∧ AttachOk h l (s.setparent n (some h))

instance decidableAttachOk (h : Nat) : ∀ (l : List Nat) (s : NodeManager), Decidable (AttachOk h l s)
  | [], _ => isTrue trivial
  | n :: l, s =>
    have := decidableAttachOk h l (s.setparent n (some h))
    inferInstanceAs (Decidable (MoveOk s n (some h) ∧ AttachOk h l (s.setparent n (some h))))

theorem Good.attach (hg : Good s) (hh : ∃ n, s.node h = some n)
    (hok : AttachOk h l s) : Good (attach h l s) := by
  induction l generalizing s with
  | nil => exact hg
  | cons n l ih =>
    have hknown := known_some hh
    obtain ⟨hset, hkeep⟩ := hg.setparent hknown hok.1
    exact ih hset (hkeep _ hh) hok.2

/-- The condition on `readnode`. -/
def ReadOk (s : NodeManager) (r : NodeRecord) : Prop :=
  if (s.node r.h).isSome then
    match r.ph with
    | none => True
    | some q => MoveOk s r.h (if (s.node q).isSome then some q else none)
  else PlaceOk s r ∧ AttachOk r.h ((s.place r).waitingFor r.h) (s.place r)

instance (s : NodeManager) (r : NodeRecord) : Decidable (ReadOk s r) := by
  unfold ReadOk
  cases r.ph <;> infer_instance

theorem Good.moveNode {ph : Option Nat} (hg : Good s) (hok : match ph with
    | none => True
    | some q => MoveOk s h (if (s.node q).isSome then some q else none)) :
    Good (s.moveNode h ph) := by
  unfold NodeManager.moveNode
  have hmark : SameCore s (s.modify h fun n => { n with removed := false }) :=
    sameCore_modify fun _ => rfl
  generalize hs₁ : (s.modify h fun n => { n with removed := false }) = s₁ at hmark ⊢
  have hg₁ := hmark.good hg
  cases ph with
  | none => exact hg₁
  | some q =>
    dsimp only at hok ⊢
    have hiff : (s₁.node q).isSome ↔ (s.node q).isSome := by
      rw [isSome_iff_exists, isSome_iff_exists]
      exact hmark.exists_iff
    split_ifs at hok with hq
    · rw [if_pos (hiff.2 hq)]
      have hknown := known_some (isSome_iff_exists.1 hq)
      exact (hg₁.setparent (hmark.known hknown) (hmark.moveOk hg hknown hok)).1
    rw [if_neg fun he => hq (hiff.1 he)]
    have hmoved := hg₁.setparent known_none (hmark.moveOk hg known_none hok)
    have hhandle : SameCore (s₁.setparent h none)
        ((s₁.setparent h none).modify h fun n => { n with parenthandle := some q }) :=
      sameCore_modify fun _ => rfl
    exact (hhandle.good hmoved.1).of_mNodes rfl

theorem Good.readnode {r : NodeRecord} (hg : Good s) (hok : ReadOk s r) : Good (s.readnode r) := by
  unfold NodeManager.readnode
  unfold ReadOk at hok
  by_cases hnode : (s.node r.h).isSome
  · rw [if_pos hnode] at hok ⊢
    exact hg.moveNode hok
  rw [if_neg hnode] at hok ⊢
  have hnew : s.node r.h = none := not_isSome_iff_eq_none.1 hnode
  obtain ⟨hplace, hself⟩ := hg.place hnew hok.1
  exact (hplace.attach hself hok.2).of_mNodes rfl

/-! ## 3. Marks -/

theorem sameCore_foldl {f : NodeManager → Nat → NodeManager} (hf : ∀ s k, SameCore s (f s k))
    (l : List Nat) (s) : SameCore s (l.foldl f s) := by
  induction l generalizing s with
  | nil => exact .refl
  | cons k l ih => exact (hf s k).trans (ih (f s k))

theorem sameCore_proctreeFuel (f : Nat) (s) (h) : SameCore s (proctreeFuel f s h) := by
  induction f generalizing s h with
  | zero => exact .refl
  | succ f ih =>
    rw [proctreeFuel]
    cases s.node h with
    | none => exact .refl
    | some n => exact (sameCore_foldl ih _ s).trans (sameCore_modify fun _ => rfl)

theorem sameCore_checkOrphanNodes (inshares : List Nat) :
    SameCore s (s.checkOrphanNodes inshares) := by
  refine (sameCore_foldl (fun s k => ?_) _ s).trans (sameCore_of_mNodes rfl)
  split
  · exact .refl
  · exact sameCore_proctreeFuel _ s k

/-! ## 4. A purge -/

/-- Where a file is removed, its versions are removed in the same purge. -/
def PurgeOk (s : NodeManager) (order : List Nat) : Prop :=
  ∀ p ∈ order, s.marked p = true → s.typeOf (some p) = .filenode →
    ∀ k ∈ s.kids p, s.marked k = true ∧ k ∈ order

instance (s : NodeManager) (order : List Nat) : Decidable (PurgeOk s order) := by
  unfold PurgeOk
  infer_instance

/-- The state between two rounds. A node may have a defect if its file is gone before it: then it has
    no parent, and it is still to be removed. -/
structure Purging (s : NodeManager) (rest : List Nat) : Prop where
  linked : Linked s
  defects : ∀ a, s.defectOf a ≠ 0 → s.par a = none ∧ s.marked a = true ∧ a ∈ rest
  batch : PurgeOk s rest

/-- A node after the node `h` with the children `children` was removed. -/
def purged (h : Nat) (parent : Option Nat) (children : List Nat) (k : Nat) (m : Node) : Node :=
  { m with
    parent := if k ∈ children then none else m.parent
    mChildren := if parent = some k then m.mChildren.erase h else m.mChildren }

theorem node_orphanAll (l) (s : NodeManager) (k) : (s.orphanAll l).node k =
    (s.node k).map fun m => { m with parent := if k ∈ l then none else m.parent } := by
  unfold orphanAll
  induction l generalizing s with
  | nil => simp
  | cons j l ih =>
    rw [foldl_cons, ih, node_modify, Option.map_map]
    congr 1
    funext m
    by_cases hj : k = j
    · simp [hj]
    · simp [hj]

theorem node_erase : ({ s with mNodes := s.mNodes.erase h } : NodeManager).node k =
    if h = k then none else s.node k := OrdMap.get?_erase ..

section Purge

variable {n : Node}

/-- The state of the round before the node is taken out. -/
def discount (s : NodeManager) (n : Node) : NodeManager :=
  s.updateTreeCounter n.parent n.mCounter .decrease

theorem node_purgeNode (hn : s.node h = some n) (hr : n.removed = true) (k) :
    (s.purgeNode h).node k = if h = k then none
      else ((s.discount n).node k).map (purged h n.parent n.mChildren.keys k) := by
  unfold purgeNode
  rw [hn]
  dsimp only
  rw [if_pos hr, node_erase]
  split
  · rfl
  rw [node_orphanAll]
  show Option.map _ (NodeManager.node _ k) = Option.map _ ((s.updateTreeCounter ..).node k)
  cases hp : n.parent with
  | none =>
    congr 1
  | some q =>
    unfold removeChild
    rw [node_modify, Option.map_map]
    congr 1
    funext m
    by_cases hq : k = q
    · simp [purged, hq]
    · simp [purged, hq, Ne.symm hq]

/-- What the proofs use of a round that removes a node. -/
structure Removes (s : NodeManager) (h : Nat) (n : Node) : Prop where
  linked : Linked s
  node : s.node h = some n
  removed : n.removed = true

section

variable (r : Removes s h n)
include r

theorem Removes.known : s.Known n.parent :=
  par_of_node r.node ▸ r.linked.known_par

theorem Removes.sameTree : SameTree s (s.discount n) :=
  (updateTreeCounter_spec r.linked _ _ r.known).1

theorem Removes.par_eq (k) :
    (s.purgeNode h).par k = if k = h ∨ s.par k = some h then none else s.par k := by
  have hkids : k ∈ n.mChildren.keys ↔ s.par k = some h := by
    rw [← kids_of_node r.node, r.linked.kids]
  have hpar : ((s.discount n).node k).bind (·.parent) = s.par k := by
    rw [← r.sameTree.par]
    rfl
  show ((s.purgeNode h).node k).bind (·.parent) = _
  rw [node_purgeNode r.node r.removed]
  by_cases hk : k = h
  · rw [if_pos hk.symm, if_pos (.inl hk)]
    rfl
  rw [if_neg fun he => hk he.symm, bind_map]
  by_cases hc : s.par k = some h
  · rw [if_pos (.inr hc)]
    cases (s.discount n).node k with
    | none => rfl
    | some m => exact if_pos (hkids.2 hc)
  rw [if_neg fun he => he.elim hk hc, ← hpar]
  congr 1
  funext m
  exact if_neg fun he => hc (hkids.1 he)

theorem Removes.mem_kids (a k) : k ∈ (s.purgeNode h).kids a ↔ a ≠ h ∧ k ≠ h ∧ k ∈ s.kids a := by
  have hself : h ∈ s.kids a ↔ n.parent = some a := by
    rw [r.linked.kids, par_of_node r.node]
  have hkids : (s.discount n).kids a = s.kids a := by rw [r.sameTree.kids]
  rw [← hkids] at hself ⊢
  unfold kids at hself ⊢
  rw [node_purgeNode r.node r.removed]
  split_ifs with ha
  · simp [ha]
  cases hm : (s.discount n).node a with
  | none => simp
  | some m =>
    rw [hm] at hself
    simp only [map_some, purged]
    by_cases hp : n.parent = some a
    · simp [hp, OrdMap.mem_keys_erase, Ne.symm ha]
    have hnot : h ∉ m.mChildren.keys := fun he => hp (hself.1 he)
    rw [if_neg hp]
    constructor
    · exact fun hk => ⟨fun he => ha he.symm, fun he => hnot (he ▸ hk), hk⟩
    · exact fun hk => hk.2.2

theorem Removes.typeOf_eq {k} (hk : k ≠ h) :
    (s.purgeNode h).typeOf (some k) = s.typeOf (some k) := by
  rw [← r.sameTree.typeOf]
  unfold typeOf
  rw [Option.bind_some, Option.bind_some, node_purgeNode r.node r.removed,
    if_neg fun he => hk he.symm]
  cases (s.discount n).node k <;> rfl

theorem Removes.marked_eq {k} (hk : k ≠ h) : (s.purgeNode h).marked k = s.marked k := by
  rw [← r.sameTree.marked]
  unfold marked
  rw [node_purgeNode r.node r.removed, if_neg fun he => hk he.symm, Option.map_map]
  rfl

theorem Removes.counter_eq {k} (hk : k ≠ h) :
    (s.purgeNode h).counter k = (s.discount n).counter k := by
  unfold counter
  rw [node_purgeNode r.node r.removed, if_neg fun he => hk he.symm, Option.map_map]
  rfl

theorem Removes.linked_purgeNode : Linked (s.purgeNode h) where
  kids := by
    intro a k
    rw [r.mem_kids, r.par_eq, r.linked.kids]
    split_ifs with hk
    · constructor
      · rintro ⟨ha, hkh, hp⟩
        rcases hk with he | he
        · exact absurd he hkh
        · rw [hp] at he
          exact absurd (some.inj he) ha
      · nofun
    · obtain ⟨hkh, hp⟩ := not_or.1 hk
      exact ⟨fun hc => hc.2.2, fun hc => ⟨fun he => hp (he ▸ hc), hkh, hc⟩⟩
  ranked := r.linked.ranked.mono fun k p hp => by
    rw [r.par_eq] at hp
    split at hp
    · cases hp
    · exact hp
  files := by
    intro k p hp hfile
    rw [r.par_eq] at hp
    split at hp
    · cases hp
    rename_i hk
    obtain ⟨hkh, hkp⟩ := not_or.1 hk
    have hph : p ≠ h := fun he => hkp (he ▸ hp)
    rw [r.typeOf_eq hph] at hfile
    rw [r.typeOf_eq hkh]
    exact r.linked.files k p hp hfile

/-- The role of a node changes only if it was a version of the removed file. -/
theorem Removes.own_eq {k : Nat} (hk : k ≠ h)
    (hrole : s.par k = some h → n.type ≠ .filenode) : (s.purgeNode h).own k = s.own k := by
  have hown : (s.discount n).own k = s.own k := by rw [r.sameTree.own]
  rw [← hown]
  cases hm : (s.discount n).node k with
  | none =>
    unfold own
    rw [node_purgeNode r.node r.removed, if_neg fun he => hk he.symm, hm]
    rfl
  | some m =>
    have hm' : (s.purgeNode h).node k = some (purged h n.parent n.mChildren.keys k m) := by
      rw [node_purgeNode r.node r.removed, if_neg fun he => hk he.symm, hm]
      rfl
    have hpar : m.parent = s.par k := by rw [← r.sameTree.par, par_of_node hm]
    have hpar' := par_of_node hm'
    rw [own_of_node hm', own_of_node hm, ← hpar', r.par_eq, r.sameTree.typeOf, hpar]
    congr 1
    by_cases hc : s.par k = some h
    · rw [if_pos (.inr hc), hc, typeOf_of_node r.node]
      exact (beq_false_of_ne (hrole hc)).symm
    rw [if_neg fun he => he.elim hk hc]
    cases hp : s.par k with
    | none => rfl
    | some p => rw [r.typeOf_eq fun he => hc (hp.trans (he ▸ rfl))]

theorem Removes.sum_kids {a : Nat} (ha : a ≠ h) :
    (((s.purgeNode h).kids a).map (s.purgeNode h).counter).sum +
        (if n.parent = some a then n.mCounter else 0) =
      ((s.kids a).map (s.discount n).counter).sum := by
  have hmem : h ∈ s.kids a ↔ n.parent = some a := by rw [r.linked.kids, par_of_node r.node]
  have hmap : ((s.purgeNode h).kids a).map (s.purgeNode h).counter =
      ((s.purgeNode h).kids a).map (s.discount n).counter :=
    map_congr_left fun k hk => r.counter_eq ((r.mem_kids a k).1 hk).2.1
  have hself : (s.discount n).counter h = n.mCounter := by
    rw [← counter_of_node r.node]
    refine counter_updateTreeCounter r.linked _ _ r.known ?_
    rw [← par_of_node r.node]
    exact r.linked.ranked.not_mem_chain
  rw [hmap]
  split_ifs with hp
  · rw [← hself]
    refine (sum_map_add (nodup_kids _ a) (nodup_kids _ a) (fun he => ?_) (fun k => ?_) _).symm
    · exact ((r.mem_kids a h).1 he).2.1 rfl
    rw [r.mem_kids]
    constructor
    · intro hk
      by_cases hkh : k = h
      · exact .inl hkh
      · exact .inr ⟨ha, hkh, hk⟩
    · rintro (rfl | hk)
      · exact hmem.2 hp
      · exact hk.2.2
  · rw [add_zero]
    refine sum_map_congr (nodup_kids _ a) (nodup_kids _ a) (fun k => ?_) _
    rw [r.mem_kids]
    exact ⟨fun hk => hk.2.2, fun hk => ⟨ha, fun he => hp (hmem.1 (he ▸ hk)), hk⟩⟩

/-- **What a removal does to the defects**: a node has a new one only if it was a version of the
    removed file. -/
theorem Removes.defectOf_eq {a : Nat} (ha : a ≠ h)
    (hrole : s.par a = some h → n.type ≠ .filenode) : (s.purgeNode h).defectOf a = s.defectOf a := by
  have hdis := defectOf_updateTreeCounter r.linked n.mCounter .decrease r.known a
  have hsum := r.sum_kids ha
  rw [← eq_sub_iff_add_eq] at hsum
  have hdis' : (s.discount n).defectOf a =
      s.defectOf a + if n.parent = some a then -n.mCounter else 0 := hdis
  unfold defectOf defect at hdis' ⊢
  rw [r.sameTree.kids, r.sameTree.own] at hdis'
  rw [hsum, r.own_eq ha hrole, r.counter_eq ha]
  calc (s.discount n).counter a - (s.own a + (((s.kids a).map (s.discount n).counter).sum -
          if n.parent = some a then n.mCounter else 0))
      = (s.discount n).counter a - (s.own a + ((s.kids a).map (s.discount n).counter).sum) +
          if n.parent = some a then n.mCounter else 0 := by abel
    _ = s.counter a - (s.own a + ((s.kids a).map s.counter).sum) := by
        rw [hdis']
        split <;> abel

end

end Purge

theorem purgeNode_cases (s : NodeManager) (h) : s.marked h ≠ true ∧ s.purgeNode h = s ∨
    s.marked h = true ∧ ∃ n, s.node h = some n ∧ n.removed = true := by
  unfold purgeNode marked
  cases hn : s.node h with
  | none => exact .inl ⟨Bool.false_ne_true, rfl⟩
  | some n =>
    by_cases hr : n.removed = true
    · exact .inr ⟨hr, n, rfl, hr⟩
    · exact .inl ⟨hr, if_neg hr⟩

theorem Purging.step {rest : List Nat} (hp : Purging s (h :: rest)) : Purging (s.purgeNode h) rest := by
  rcases purgeNode_cases s h with ⟨hm, hsame⟩ | ⟨hm, n, hn, hr⟩
  · rw [hsame]
    refine ⟨hp.linked, fun a ha => ?_, fun p hpr hpm hpf k hk => ?_⟩
    · obtain ⟨h₁, h₂, h₃⟩ := hp.defects a ha
      exact ⟨h₁, h₂, (mem_cons.1 h₃).resolve_left fun he => hm (he ▸ h₂)⟩
    · obtain ⟨h₁, h₂⟩ := hp.batch p (mem_cons_of_mem _ hpr) hpm hpf k hk
      exact ⟨h₁, (mem_cons.1 h₂).resolve_left fun he => hm (he ▸ h₁)⟩
  have r : Removes s h n := ⟨hp.linked, hn, hr⟩
  refine ⟨r.linked_purgeNode, fun a ha => ?_, fun p hpr hpm hpf k hk => ?_⟩
  · have hah : a ≠ h := by
      rintro rfl
      refine ha (defectOf_of_not_node ?_)
      rw [node_purgeNode hn hr, if_pos rfl]
    rw [r.par_eq, r.marked_eq hah]
    by_cases hrole : s.par a = some h ∧ n.type = .filenode
    · -- the file of this version is gone
      obtain ⟨h₁, h₂⟩ := hp.batch h (mem_cons_self ..) hm
        (by rw [typeOf_of_node hn]; exact hrole.2) a ((hp.linked.kids h a).2 hrole.1)
      exact ⟨if_pos (.inr hrole.1), h₁, (mem_cons.1 h₂).resolve_left hah⟩
    rw [r.defectOf_eq hah fun he hf => hrole ⟨he, hf⟩] at ha
    obtain ⟨h₁, h₂, h₃⟩ := hp.defects a ha
    rw [h₁, ite_self]
    exact ⟨rfl, h₂, (mem_cons.1 h₃).resolve_left hah⟩
  · obtain ⟨hph, hkh, hk⟩ := (r.mem_kids p k).1 hk
    rw [r.marked_eq hph] at hpm
    rw [r.typeOf_eq hph] at hpf
    rw [r.marked_eq hkh]
    obtain ⟨h₁, h₂⟩ := hp.batch p (mem_cons_of_mem _ hpr) hpm hpf k hk
    exact ⟨h₁, (mem_cons.1 h₂).resolve_left hkh⟩

theorem Purging.foldl {order : List Nat} (hp : Purging s order) :
    Purging (order.foldl purgeNode s) [] := by
  induction order generalizing s with
  | nil => exact hp
  | cons h order ih => exact ih hp.step

theorem Good.notifyPurge {order : List Nat} (hg : Good s) (hok : PurgeOk s order) :
    Good (s.notifyPurge order) := by
  have hstart : Purging s order := ⟨hg.linked, fun a ha => absurd (hg.defects a) ha, hok⟩
  have hend := hstart.foldl
  have hgood : Good (order.foldl purgeNode s) := by
    refine ⟨hend.linked, fun a => ?_⟩
    by_contra ha
    exact not_mem_nil (hend.defects a ha).2.2
  exact hgood.of_mNodes rfl

/-! ## 5. Runs -/

/-- The moves leave a node tree in which only files hang below files. No version is moved to a parent
    that is not known yet, and none stays when its file is removed. -/
def KeepsRoles : Op → NodeManager → Prop
  | .readnode r, s => ReadOk s r
  | .notifyPurge order, s => PurgeOk s order
  | _, _ => True

instance (op : Op) (s : NodeManager) : Decidable (KeepsRoles op s) := by
  cases op <;> unfold KeepsRoles <;> infer_instance

theorem Good.exec (hg : Good s) {op : Op} (hok : KeepsRoles op s) : Good (s.exec op) := by
  cases op with
  | readnode r => exact hg.readnode hok
  | postReadNodes inshares => exact (sameCore_checkOrphanNodes inshares).good hg
  | deltree h => exact (sameCore_proctreeFuel _ s h).good hg
  | notifyPurge order => exact hg.notifyPurge hok

/-- **The counters are right in every run that keeps the roles.** -/
theorem counted_of_run {s₀ s : NodeManager} (hl : Linked s₀) (hc : Counted s₀)
    (hr : Relation.ReflTransGen (StepBy exec KeepsRoles) s₀ s) : Counted s := by
  have hgood : Good s := run_inv Good (fun s s' hg ⟨op, hop, he⟩ => he ▸ hg.exec hop)
    ⟨hl, hl.counted_iff.1 hc⟩ hr
  exact hgood.linked.counted_iff.2 hgood.defects

theorem linked_empty : Linked {} where
  kids := by
    intro a k
    constructor
    · exact nofun
    · nofun
  ranked := ⟨fun _ => 0, nofun⟩
  files := by
    nofun

theorem counted_empty : Counted {} := nofun

/-- A cloud drive with a folder and a file in it. The file arrives before the folder, and a new upload
    makes it a version. The new file is removed again with the version moved out of it first. -/
def versionOps : List Op :=
  [.readnode { h := 1, ph := none, t := .rootnode },
    .readnode { h := 3, ph := some 2, t := .filenode, s := 10 },
    .readnode { h := 2, ph := some 1, t := .foldernode },
    .readnode { h := 4, ph := some 2, t := .filenode, s := 20 },
    .readnode { h := 3, ph := some 4, t := .filenode },
    .postReadNodes [],
    .readnode { h := 3, ph := some 2, t := .filenode },
    .deltree 4, .notifyPurge [2, 4]]

theorem counted_of_run_versions : ∃ s,
    Relation.ReflTransGen (StepBy exec KeepsRoles) {} s ∧
      s.counter 1 = { storage := 10, files := 1, folders := 1 } ∧ Counted s := by
  have hr : Relation.ReflTransGen (StepBy exec KeepsRoles) {} (versionOps.foldl exec {}) :=
    run_of_allBy (by decide)
  exact ⟨_, hr, by decide, counted_of_run linked_empty counted_empty hr⟩

/-- A version moves to a folder that arrives only after it. -/
def throughNullOps : List Op :=
  [.readnode { h := 1, ph := none, t := .rootnode },
    .readnode { h := 2, ph := some 1, t := .filenode, s := 10 },
    .readnode { h := 3, ph := some 2, t := .filenode, s := 20 },
    .readnode { h := 3, ph := some 4, t := .filenode },
    .readnode { h := 4, ph := some 1, t := .foldernode }]

/-- **The moved version is below a folder and still counted as a version**, there and in the root. -/
theorem version_through_null : ∃ s n,
    Relation.ReflTransGen (StepBy exec fun _ _ => True) {} s ∧ s.node 3 = some n ∧
      s.typeOf n.parent = .foldernode ∧ n.mCounter = { versionStorage := 20, versions := 1 } ∧
        s.calculateNodeCounter 3 .foldernode = { storage := 20, files := 1 } ∧ ¬ Counted s := by
  have hend : ((throughNullOps.foldl exec {}).node 3).map
      (fun n => ((throughNullOps.foldl exec {}).typeOf n.parent, n.mCounter)) =
        some (.foldernode, { versionStorage := 20, versions := 1 }) := by
    decide
  obtain ⟨n, hn, hfields⟩ := map_eq_some_iff.1 hend
  obtain ⟨htype, hcount⟩ := Prod.mk.inj hfields
  have hcalc : (throughNullOps.foldl exec {}).calculateNodeCounter 3 .foldernode =
      { storage := 20, files := 1 } := by
    decide
  refine ⟨throughNullOps.foldl exec {}, n, run_of_allBy ?_, hn, htype, hcount, hcalc, fun h => ?_⟩
  · exact ⟨trivial, trivial, trivial, trivial, trivial, trivial⟩
  have := h 3 n hn
  rw [htype, hcount] at this
  exact absurd this (by decide)

end MegaSdk.Nodes.NodeManager
