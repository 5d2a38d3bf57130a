/-
  File:      MegaSdk/Sync/Rows.lean
  Subject:   THE ROWS OF A SYNCED FOLDER AND THEIR ORDER (Sync::computeSyncTriplets, sync.cpp).

  * `CloudNode`, `LocalNode`, `FSNode`, `SyncRow` -- what a row joins; `triplets` -- the rows before
    they are sorted, one for every node;
  * `tripletCompare` -- the order of the rows: cloud names are unescaped, local names are not;
  * `Sound` -- the order is consistent on these rows, and the sets that are combined after sorting
    are the classes of equal names;
  * **`sound_of_agree`** -- it is, if no two names of the rows clash;
  * **`sound_iff_plain`** -- it is for every folder with cloud names from `N`, exactly if no name in
    `N` has an escape of anything but `%`.
-/
import MegaSdk.Base.Sorting
import MegaSdk.Sync.Names

namespace MegaSdk.Sync

open Base

/-! ## 1. Rows -/

/-- A node of the cloud: its name and handle; an undefined handle is `none`. -/
structure CloudNode where
  name : Name
  handle : Option Nat
deriving Repr, DecidableEq

/-- A node of the sync tree, with what it was last synced to. -/
structure LocalNode where
  toName_of_localname : Name
  syncedCloudNodeHandle : Option Nat
  fsid_lastSynced : Option Nat
deriving Repr, DecidableEq

structure FSNode where
  toName_of_localname : Name
  fsid : Option Nat
deriving Repr, DecidableEq

/-- A row joins what is taken for one item, and keeps the further nodes of its name. -/
structure SyncRow where
  cloudNode : Option CloudNode := none
  syncNode : Option LocalNode := none
  fsNode : Option FSNode := none
  cloudClashingNames : List CloudNode := []
  fsClashingNames : List FSNode := []
deriving Repr, DecidableEq, Inhabited

/-- The rows as `computeSyncTriplets` first fills them. -/
def triplets (cloudNodes : List CloudNode) (children : List LocalNode) (fsNodes : List FSNode) :
    List SyncRow :=
  cloudNodes.map (fun cn => { cloudNode := some cn }) ++
    children.map (fun sn => { syncNode := some sn }) ++
    fsNodes.map fun fsn => { fsNode := some fsn }

/-- The name a row is compared by, and whether it is unescaped: the cloud node's, else the sync
node's, else the file system node's. -/
def SyncRow.comparedName (row : SyncRow) : Bool × Name :=
  match row.cloudNode with
  | some cn => (true, cn.name)
  | none =>
    match row.syncNode with
    | some sn => (false, sn.toName_of_localname)
    | none =>
      match row.fsNode with
      | some fsn => (false, fsn.toName_of_localname)
      | none => (false, [])

section Compare

variable (toUpper : Int → Int) (mCaseInsensitive : Bool)

/-- What `compareUtf` applies to both characters. -/
def caseTransform : Int → Int := if mCaseInsensitive then toUpper else id

/-- `tripletCompare`: in each of its nine branches the names of both rows. -/
def tripletCompare (lhs rhs : SyncRow) : Int :=
  compareUtf (caseTransform toUpper mCaseInsensitive) lhs.comparedName.1 rhs.comparedName.1
    lhs.comparedName.2 rhs.comparedName.2

/-- The sets that `combineTripletSet` is given, of rows that have been sorted. -/
def tripletSets (rows : List SyncRow) : List (List SyncRow) :=
  equalRuns (tripletCompare toUpper mCaseInsensitive) rows.length rows

/-- The order is consistent on the rows; and however they are sorted, the sets are a division of
them into the classes of equal names. -/
structure Sound (rows : List SyncRow) : Prop where
  consistent : Consistent (tripletCompare toUpper mCaseInsensitive) rows
  sets : ∀ sorted, sorted.Perm rows → SortedBy (tripletCompare toUpper mCaseInsensitive) sorted →
    (tripletSets toUpper mCaseInsensitive sorted).flatten = sorted ∧
      Grouped (tripletCompare toUpper mCaseInsensitive)
        (tripletSets toUpper mCaseInsensitive sorted)

/-! ## 2. Rows whose names do not clash -/

/-- The name of a row, read with its escapes decoded if it is a cloud name. -/
def SyncRow.reading (row : SyncRow) : List Token :=
  Sync.reading row.comparedName.1 row.comparedName.2

def SyncRow.key (row : SyncRow) : List Int :=
  Sync.key (caseTransform toUpper mCaseInsensitive) row.reading

variable {toUpper mCaseInsensitive}

theorem tripletCompare_eq_key {lhs rhs : SyncRow}
    (h : Agree (caseTransform toUpper mCaseInsensitive) lhs.reading rhs.reading) :
    compare (tripletCompare toUpper mCaseInsensitive lhs rhs) 0 =
      List.compareLex compare (lhs.key toUpper mCaseInsensitive)
        (rhs.key toUpper mCaseInsensitive) :=
  compareUtf_eq_key _ _ _ h

/-- **The order is sound on rows whose names do not clash.** -/
theorem sound_of_agree {rows : List SyncRow} (h : ∀ lhs ∈ rows, ∀ rhs ∈ rows,
      Agree (caseTransform toUpper mCaseInsensitive) lhs.reading rhs.reading) :
    Sound toUpper mCaseInsensitive rows := by
  have hlt : ∀ a ∈ rows, ∀ b ∈ rows, (tripletCompare toUpper mCaseInsensitive a b < 0 ↔
      List.compareLex compare (a.key toUpper mCaseInsensitive)
        (b.key toUpper mCaseInsensitive) = .lt) := by
    intro a ha b hb
    rw [← tripletCompare_eq_key (h a ha b hb), compare_lt_iff_lt]
  have hgt : ∀ a ∈ rows, ∀ b ∈ rows, (0 < tripletCompare toUpper mCaseInsensitive a b ↔
      List.compareLex compare (a.key toUpper mCaseInsensitive)
        (b.key toUpper mCaseInsensitive) = .gt) := by
    intro a ha b hb
    rw [← tripletCompare_eq_key (h a ha b hb), compare_gt_iff_gt]
  have heq : ∀ a ∈ rows, ∀ b ∈ rows, (tripletCompare toUpper mCaseInsensitive a b = 0 ↔
      a.key toUpper mCaseInsensitive = b.key toUpper mCaseInsensitive) := by
    intro a ha b hb
    rw [← compare_eq_iff_eq, tripletCompare_eq_key (h a ha b hb),
      Std.LawfulEqCmp.compare_eq_iff_eq]
  have hcons : Consistent (tripletCompare toUpper mCaseInsensitive) rows := by
    refine ⟨?_, ?_, ?_, ?_, ?_⟩
    · intro a ha b hb
      rw [hlt a ha b hb, hgt b hb a ha]
      exact Std.OrientedCmp.gt_iff_lt.symm
    · intro a ha b hb c hc hab hbc
      rw [hlt a ha b hb] at hab
      rw [hlt b hb c hc] at hbc
      exact (hlt a ha c hc).2 (Std.TransCmp.lt_trans hab hbc)
    · intro a ha
      exact (heq a ha a ha).2 rfl
    · intro a ha b hb hab
      exact (heq b hb a ha).2 ((heq a ha b hb).1 hab).symm
    · intro a ha b hb c hc hab hbc
      exact (heq a ha c hc).2 (((heq a ha b hb).1 hab).trans ((heq b hb c hc).1 hbc))
  refine ⟨hcons, ?_⟩
  intro sorted hperm hs
  exact ⟨flatten_equalRuns _ _ sorted le_rfl,
    hcons.grouped _ sorted le_rfl (fun a ha => hperm.subset ha) hs⟩

/-! ## 3. Which cloud names keep the order sound -/

theorem mem_triplets {cloudNodes : List CloudNode} {children : List LocalNode}
    {fsNodes : List FSNode} {row : SyncRow} :
    row ∈ triplets cloudNodes children fsNodes ↔
      (∃ cn ∈ cloudNodes, row = { cloudNode := some cn }) ∨
      (∃ sn ∈ children, row = { syncNode := some sn }) ∨
      (∃ fsn ∈ fsNodes, row = { fsNode := some fsn }) := by
  simp [triplets, eq_comm]

theorem plain_triplets {cloudNodes : List CloudNode} {children : List LocalNode}
    {fsNodes : List FSNode} {transform : Int → Int}
    (h : ∀ cn ∈ cloudNodes, Plain transform (tokens cn.name)) {row : SyncRow}
    (hm : row ∈ triplets cloudNodes children fsNodes) : Plain transform row.reading := by
  obtain ⟨cn, hcn, rfl⟩ | ⟨sn, -, rfl⟩ | ⟨fsn, -, rfl⟩ := mem_triplets.1 hm
  · exact h cn hcn
  · exact plain_literals transform sn.toName_of_localname
  · exact plain_literals transform fsn.toName_of_localname

/-- A cloud name with an escape of anything but `%` joins two local names that are not equal. -/
theorem not_consistent_of_escape {name : Name}
    (h : ¬ Plain (caseTransform toUpper mCaseInsensitive) (tokens name)) :
    ∃ children : List LocalNode, ¬ Consistent (tripletCompare toUpper mCaseInsensitive)
      (triplets [⟨name, none⟩] children []) := by
  obtain ⟨d, hd, hdec, hne⟩ := literal_twin _ h
  let children : List LocalNode := [⟨decoded (tokens name), none, none⟩, ⟨d, none, none⟩]
  refine ⟨children, fun hc => ?_⟩
  have hcloud : { cloudNode := some ⟨name, none⟩ } ∈ triplets [⟨name, none⟩] children [] := by
    simp [triplets]
  have hone : { syncNode := some ⟨decoded (tokens name), none, none⟩ } ∈
      triplets [⟨name, none⟩] children [] := by
    simp [triplets, children]
  have htwo : { syncNode := some ⟨d, none, none⟩ } ∈ triplets [⟨name, none⟩] children [] := by
    simp [triplets, children]
  exact hne (hc.eq_trans _ hone _ hcloud _ htwo (hc.eq_symm _ hcloud _ hone hdec) hd)

/-- **Two results on the order of the rows.**  It is sound on every collection of rows in which no
two names clash.  And it is sound on every collection with cloud names from `N`, whatever the
names of its sync nodes and files, exactly if no name in `N` has an escape of a character that is
not `%`. -/
theorem sound_iff_plain (toUpper : Int → Int) (mCaseInsensitive : Bool) :
    (∀ rows : List SyncRow, (∀ lhs ∈ rows, ∀ rhs ∈ rows,
        Agree (caseTransform toUpper mCaseInsensitive) lhs.reading rhs.reading) →
      Sound toUpper mCaseInsensitive rows) ∧
    ∀ N : Name → Prop,
      (∀ (cloudNodes : List CloudNode) (children : List LocalNode) (fsNodes : List FSNode),
        (∀ cn ∈ cloudNodes, N cn.name) →
        Sound toUpper mCaseInsensitive (triplets cloudNodes children fsNodes)) ↔
      ∀ name, N name → Plain (caseTransform toUpper mCaseInsensitive) (tokens name) := by
  refine ⟨fun rows => sound_of_agree, fun N => ⟨?_, ?_⟩⟩
  · intro h name hN
    by_contra hp
    obtain ⟨children, hc⟩ := not_consistent_of_escape hp
    refine hc (h [⟨name, none⟩] children [] ?_).consistent
    intro cn hcn
    rwa [List.mem_singleton.1 hcn]
  intro h cloudNodes children fsNodes hN
  refine sound_of_agree ?_
  intro lhs hl rhs hr
  have hplain : ∀ cn ∈ cloudNodes,
      Plain (caseTransform toUpper mCaseInsensitive) (tokens cn.name) :=
    fun cn hcn => h cn.name (hN cn hcn)
  exact agree_of_plain _ (plain_triplets hplain hl) (plain_triplets hplain hr)

/-- The cloud name `%41` is equal to the local name `A` and to the local name `%41`, which are not
equal to each other. -/
theorem not_sound_of_escaped_letter :
    ¬ Sound id false (triplets [⟨[37, 52, 49], some 1⟩] [⟨[65], none, none⟩]
      [⟨[37, 52, 49], some 2⟩]) := by
  intro h
  have heq := h.consistent.eq_trans { syncNode := some ⟨[65], none, none⟩ } (by decide)
    { cloudNode := some ⟨[37, 52, 49], some 1⟩ } (by decide)
    { fsNode := some ⟨[37, 52, 49], some 2⟩ } (by decide) (by decide) (by decide)
  exact absurd heq (by decide)

end Compare

end MegaSdk.Sync
