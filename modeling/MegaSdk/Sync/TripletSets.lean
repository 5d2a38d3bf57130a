/-
  File:      MegaSdk/Sync/TripletSets.lean
  Subject:   WHAT COMBINING THE ROWS OF ONE NAME COMES TO.

  * `Equals rows` -- the rows that `combineTripletSet` is given: one node each, equal names, ids
    that differ, and at most one sync node whose cloud and file system node are not both there;
  * `Combined` -- every node is still there once, the sync nodes are with their nodes, and all else
    is in the target row;
  * **`combined_iff`** -- the rows are combined so exactly if the sync node that is not fully synced
    has at least as many rows in front of it as there are fully synced ones: otherwise a fully
    synced row is swapped into the place that was remembered for it.
-/
import MegaSdk.Sync.Triplets

namespace MegaSdk.Sync

open Base List

variable {rows : List SyncRow} {sn : LocalNode} {α : Type} {S : Slot α} {i k p : Nat}
  {cn : CloudNode} {s : Scan}

/-! ## 1. What combining should do -/

def cloudNodes (rows : List SyncRow) : List CloudNode := rows.flatMap cloudSlot.nodes

def fsNodes (rows : List SyncRow) : List FSNode := rows.flatMap fsSlot.nodes

def syncNodes (rows : List SyncRow) : List LocalNode := rows.flatMap fun row => row.syncNode.toList

/-- Both nodes that `sn` was synced to are among the rows. -/
def paired (rows : List SyncRow) (sn : LocalNode) : Bool :=
  (sn.syncedCloudNodeHandle.isSome &&
    (cloudNodes rows).any fun cn => cn.handle == sn.syncedCloudNodeHandle) &&
  (sn.fsid_lastSynced.isSome && (fsNodes rows).any fun fsn => fsn.fsid == sn.fsid_lastSynced)

/-- The row at `p` has a sync node that is not fully synced. -/
def Unpaired (rows : List SyncRow) (p : Nat) : Prop :=
  ∃ sn, (cell rows p).syncNode = some sn ∧ paired rows sn = false

/-- A row as `computeSyncTriplets` makes it. -/
inductive Fresh : SyncRow → Prop where
  | cloud (cn : CloudNode) : Fresh { cloudNode := some cn }
  | sync (sn : LocalNode) : Fresh { syncNode := some sn }
  | fs (fsn : FSNode) : Fresh { fsNode := some fsn }

/-- Two sync nodes were not synced to one cloud node, nor to one file. -/
def SyncedApart (sn sn' : LocalNode) : Prop :=
  (sn.syncedCloudNodeHandle = sn'.syncedCloudNodeHandle → sn.syncedCloudNodeHandle = none) ∧
    (sn.fsid_lastSynced = sn'.fsid_lastSynced → sn.fsid_lastSynced = none)

/-- The rows of one name. -/
structure Equals (toUpper : Int → Int) (mCaseInsensitive : Bool) (rows : List SyncRow) :
    Prop where
  fresh : ∀ row ∈ rows, Fresh row
  names : ∀ row ∈ rows, ∀ row' ∈ rows, tripletCompare toUpper mCaseInsensitive row row' = 0
  handles : ((cloudNodes rows).map CloudNode.handle).Nodup
  fsids : ((fsNodes rows).map FSNode.fsid).Nodup
  synced : (syncNodes rows).Pairwise SyncedApart
  atMostOne : ∀ p q, Unpaired rows p → Unpaired rows q → p = q

/-- The rows `out.1` are `rows` combined, with the target at `out.2`. -/
structure Combined (rows : List SyncRow) (out : List SyncRow × Nat) : Prop where
  cloud : (cloudNodes out.1).Perm (cloudNodes rows)
  sync : (syncNodes out.1).Perm (syncNodes rows)
  fs : (fsNodes out.1).Perm (fsNodes rows)
  together : ∀ sn ∈ syncNodes rows, ∀ cn ∈ cloudNodes rows, ∀ fsn ∈ fsNodes rows,
    sn.syncedCloudNodeHandle ≠ none → cn.handle = sn.syncedCloudNodeHandle →
    sn.fsid_lastSynced ≠ none → fsn.fsid = sn.fsid_lastSynced →
    ∃ row ∈ out.1, row.cloudNode = some cn ∧ row.syncNode = some sn ∧ row.fsNode = some fsn
  rest : ∀ k < out.1.length, k ≠ out.2 →
    (∃ sn, (cell out.1 k).syncNode = some sn ∧ paired rows sn = true) ∨ cell out.1 k = {} ∨
      ∃ cn, cn.name = [] ∧ cell out.1 k = { cloudNode := some cn }

def pairedCount (rows : List SyncRow) : Nat := (syncNodes rows).countP (paired rows)

/-! ## 2. Nodes and cells -/

theorem mem_syncNodes :
    sn ∈ syncNodes rows ↔ ∃ k < rows.length, (cell rows k).syncNode = some sn := by
  simp only [syncNodes, mem_flatMap_cell, Option.mem_toList]

theorem mem_nodes_of_get (hk : k < rows.length) {x : α} (hx : S.get (cell rows k) = some x) :
    x ∈ rows.flatMap S.nodes :=
  mem_flatMap_cell.2 ⟨k, hk, by simp [Slot.nodes, hx]⟩

theorem get_of_mem_nodes (hclean : ∀ k, S.clashing (cell rows k) = []) {x : α}
    (hx : x ∈ rows.flatMap S.nodes) : ∃ k < rows.length, S.get (cell rows k) = some x := by
  obtain ⟨k, hk, hx⟩ := mem_flatMap_cell.1 hx
  rw [Slot.nodes, hclean k, append_nil, Option.mem_toList] at hx
  exact ⟨k, hk, hx⟩

theorem paired_iff :
    paired rows sn = true ↔
      (sn.syncedCloudNodeHandle ≠ none ∧
        ∃ cn ∈ cloudNodes rows, cn.handle = sn.syncedCloudNodeHandle) ∧
      (sn.fsid_lastSynced ≠ none ∧ ∃ fsn ∈ fsNodes rows, fsn.fsid = sn.fsid_lastSynced) := by
  simp [paired, Option.isSome_iff_ne_none]

theorem lt_length_of_syncNode (h : (cell rows k).syncNode = some sn) : k < rows.length := by
  by_contra hk
  rw [cell_of_le (not_lt.1 hk)] at h
  cases h

theorem pairwise_cells {R : LocalNode → LocalNode → Prop} (hsymm : ∀ s s', R s s' → R s' s)
    (h : (syncNodes rows).Pairwise R) {j : Nat} (hjk : j ≠ k) {sn' : LocalNode}
    (hj : (cell rows j).syncNode = some sn) (hk : (cell rows k).syncNode = some sn') :
    R sn sn' := by
  have hp : ∀ {i m : Nat} {s s' : LocalNode}, i < m → (cell rows i).syncNode = some s →
      (cell rows m).syncNode = some s' → R s s' := by
    intro i m s s' him hi hm
    have hi' := lt_length_of_syncNode hi
    have hm' := lt_length_of_syncNode hm
    rw [syncNodes, pairwise_flatMap] at h
    have := pairwise_iff_getElem.1 h.2 i m hi' hm' him
    rw [← cell_eq_getElem hi', ← cell_eq_getElem hm', hi, hm] at this
    exact this s (by simp) s' (by simp)
  rcases lt_or_gt_of_ne hjk with h' | h'
  · exact hp h' hj hk
  · exact hsymm _ _ (hp h' hk hj)

theorem SyncedApart.symm {sn' : LocalNode} (h : SyncedApart sn sn') : SyncedApart sn' sn :=
  ⟨fun e => by rw [e]; exact h.1 e.symm, fun e => by rw [e]; exact h.2 e.symm⟩

section Combining

variable {toUpper : Int → Int} {mCaseInsensitive : Bool} {rows : List SyncRow}

namespace Equals

section

variable (h : Equals toUpper mCaseInsensitive rows)
include h

theorem syncRow (hk : (cell rows k).syncNode = some sn) :
    cell rows k = { syncNode := some sn } := by
  have hm := h.fresh _ (cell_mem (lt_length_of_syncNode hk))
  generalize cell rows k = row at hk hm ⊢
  cases hm with
  | cloud cn => cases hk
  | sync sn' =>
    cases hk
    rfl
  | fs fsn => cases hk

theorem syncNodes_nodup : (syncNodes rows).Nodup := by
  rw [syncNodes, List.Nodup, pairwise_flatMap]
  refine ⟨fun row _ => ?_, pairwise_iff_getElem.2 ?_⟩
  · cases row.syncNode with
    | none => exact .nil
    | some sn => exact pairwise_singleton _ _
  intro i j hi hj hij sn hsn sn' hsn' heq
  rw [← cell_eq_getElem hi, Option.mem_toList] at hsn
  rw [← cell_eq_getElem hj, Option.mem_toList] at hsn'
  cases heq
  cases hp : paired rows sn with
  | true =>
    have hap := pairwise_cells (fun _ _ => SyncedApart.symm) h.synced (by omega) hsn hsn'
    exact (paired_iff.1 hp).1.1 (hap.1 rfl)
  | false =>
    have := h.atMostOne i j ⟨sn, hsn, hp⟩ ⟨sn, hsn', hp⟩
    omega

theorem eq_of_handle {cn' : CloudNode} (hcn : cn ∈ cloudNodes rows) (hcn' : cn' ∈ cloudNodes rows)
    (he : cn.handle = cn'.handle) : cn = cn' :=
  inj_on_of_nodup_map h.handles hcn hcn' he

theorem eq_of_fsid {fsn fsn' : FSNode} (hfs : fsn ∈ fsNodes rows) (hfs' : fsn' ∈ fsNodes rows)
    (he : fsn.fsid = fsn'.fsid) : fsn = fsn' :=
  inj_on_of_nodup_map h.fsids hfs hfs' he

theorem cloudRow (hcn : cn ∈ cloudNodes rows) : ({ cloudNode := some cn } : SyncRow) ∈ rows := by
  obtain ⟨row, hrow, hm⟩ := mem_flatMap.1 hcn
  have hf := h.fresh row hrow
  cases hf with
  | cloud cn' =>
    have : cn = cn' := by simpa [Slot.nodes, cloudSlot] using hm
    rwa [this]
  | _ => simp [Slot.nodes, cloudSlot] at hm

theorem nameless {cn' : CloudNode} (hcn : cn ∈ cloudNodes rows) (hcn' : cn' ∈ cloudNodes rows)
    (he : cn.name = []) : cn'.name = [] := by
  have hcmp := h.names _ (h.cloudRow hcn) _ (h.cloudRow hcn')
  simp only [tripletCompare, SyncRow.comparedName, he, compareUtf] at hcmp
  cases hn : cn'.name with
  | nil => rfl
  | cons c s =>
    rw [hn] at hcmp
    exact absurd hcmp (by simp [compareFrom])

end

end Equals

/-! ## 3. The first loop -/

/-- A sync node with the two nodes it was synced to, and nothing else. -/
def FullySynced (row : SyncRow) : Prop :=
  ∃ cn sn fsn, row = { cloudNode := some cn, syncNode := some sn, fsNode := some fsn } ∧
    sn.syncedCloudNodeHandle ≠ none ∧ cn.handle = sn.syncedCloudNodeHandle ∧
    sn.fsid_lastSynced ≠ none ∧ fsn.fsid = sn.fsid_lastSynced

/-- Before round `i` of the first loop. -/
structure Scanned (rows : List SyncRow) (i : Nat) (s : Scan) : Prop where
  length : s.rows.length = rows.length
  cloud : (cloudNodes s.rows).Perm (cloudNodes rows)
  sync : (syncNodes s.rows).Perm (syncNodes rows)
  fs : (fsNodes s.rows).Perm (fsNodes rows)
  cloudClean : ∀ k, (cell s.rows k).cloudClashingNames = []
  fsClean : ∀ k, (cell s.rows k).fsClashingNames = []
  bound : s.a ≤ i
  front : ∀ k < s.a, FullySynced (cell s.rows k)
  behind : ∀ k, s.a ≤ k → k < i → ∀ sn, (cell s.rows k).syncNode = some sn →
    paired rows sn = false
  ahead : ∀ k, i ≤ k → (cell s.rows k).syncNode = (cell rows k).syncNode
  ahead_sync : ∀ k, i ≤ k → ∀ sn, (cell rows k).syncNode = some sn → cell s.rows k = cell rows k
  count : s.a = (syncNodes (rows.take i)).countP (paired rows)
  left : ∀ p, s.lastNotFullySynced = some p → p < i ∧ Unpaired rows p ∧
    (s.a ≤ p → (cell s.rows p).syncNode = (cell rows p).syncNode)
  noneLeft : s.lastNotFullySynced = none → ∀ p < i, ¬ Unpaired rows p
  lastFully : s.lastFullySynced = if s.a = 0 then none else some (s.a - 1)

theorem scanned_start (h : Equals toUpper mCaseInsensitive rows) :
    Scanned rows 0 { rows := rows } := by
  have hclean : ∀ k, (cell rows k).cloudClashingNames = [] ∧ (cell rows k).fsClashingNames = [] := by
    intro k
    by_cases hk : k < rows.length
    · have hf := h.fresh _ (cell_mem hk)
      generalize cell rows k = row at hf
      cases hf <;> exact ⟨rfl, rfl⟩
    · rw [cell_of_le (not_lt.1 hk)]
      exact ⟨rfl, rfl⟩
  exact {
    length := rfl
    cloud := .rfl
    sync := .rfl
    fs := .rfl
    cloudClean := fun k => (hclean k).1
    fsClean := fun k => (hclean k).2
    bound := le_rfl
    front := nofun
    behind := nofun
    ahead := fun _ _ => rfl
    ahead_sync := fun _ _ _ _ => rfl
    count := rfl
    left := fun p hp => (by cases hp)
    noneLeft := nofun
    lastFully := rfl }

/-- After a pull the row has a node exactly if one is wanted and there, given that no row that was
put aside has it. -/
theorem Slot.Pulled.get_iff {id : α → Option Nat} {before after : List SyncRow} {a : Nat}
    {wanted : Option Nat} (h : S.Pulled id before a i wanted after) (hi : i < before.length)
    (hclean : ∀ k, S.clashing (cell before k) = [])
    (hfront : ∀ k < a, ∀ x, S.get (cell before k) = some x → id x = wanted → wanted = none) :
    S.get (cell after i) ≠ none ↔ wanted ≠ none ∧ ∃ x ∈ before.flatMap S.nodes, id x = wanted := by
  constructor
  · intro hne
    obtain ⟨x, hx⟩ := Option.ne_none_iff_exists'.1 hne
    obtain ⟨hw, hid⟩ := h.got x hx
    exact ⟨hw, x, h.perm.subset (mem_nodes_of_get (h.length ▸ hi) hx), hid⟩
  rintro ⟨hw, x, hx, hid⟩
  obtain ⟨k, hk, hget⟩ := get_of_mem_nodes hclean hx
  rcases lt_or_ge k a with hka | hka
  · exact absurd (hfront k hka x hget hid) hw
  · exact h.found hw k x hka hk hget hid

/-- The rows after the two pulls of round `i`. -/
structure Matched (rows : List SyncRow) (i : Nat) (s : Scan) (sn : LocalNode)
    (after : List SyncRow) : Prop where
  length : after.length = rows.length
  cloud : (cloudNodes after).Perm (cloudNodes rows)
  sync : syncNodes after = syncNodes s.rows
  fs : (fsNodes after).Perm (fsNodes rows)
  cloudClean : ∀ k, (cell after k).cloudClashingNames = []
  fsClean : ∀ k, (cell after k).fsClashingNames = []
  below : ∀ k < s.a, cell after k = cell s.rows k
  syncNode : ∀ k, (cell after k).syncNode = (cell s.rows k).syncNode
  ahead : ∀ k, i < k → ∀ sn', (cell rows k).syncNode = some sn' → cell after k = cell s.rows k
  handle : ∀ cn, (cell after i).cloudNode = some cn → sn.syncedCloudNodeHandle ≠ none ∧
    cn.handle = sn.syncedCloudNodeHandle
  fsid : ∀ fsn, (cell after i).fsNode = some fsn → sn.fsid_lastSynced ≠ none ∧
    fsn.fsid = sn.fsid_lastSynced
  paired_iff : paired rows sn = true ↔
    (cell after i).cloudNode ≠ none ∧ (cell after i).fsNode ≠ none

theorem Scanned.matched (h : Equals toUpper mCaseInsensitive rows) (hs : Scanned rows i s)
    (hi : i < rows.length) (hsn : (cell s.rows i).syncNode = some sn) :
    Matched rows i s sn (fsSlot.pull FSNode.fsid
      (cloudSlot.pull CloudNode.handle s.rows s.a i sn.syncedCloudNodeHandle) s.a i
      sn.fsid_lastSynced) := by
  have hrow : (cell rows i).syncNode = some sn := by rw [← hs.ahead i le_rfl, hsn]
  have hcell : cell s.rows i = { syncNode := some sn } := by
    rw [hs.ahead_sync i le_rfl sn hrow, h.syncRow hrow]
  have hi' : i < s.rows.length := hs.length ▸ hi
  -- a row that was put aside has the nodes of another sync node
  have hapart : ∀ k < s.a, ∀ sn', (cell s.rows k).syncNode = some sn' → SyncedApart sn sn' := by
    intro k hk sn' hsn'
    have hp := (hs.sync.pairwise_iff fun h => SyncedApart.symm h).2 h.synced
    exact pairwise_cells (fun _ _ => SyncedApart.symm) hp (by have := hs.bound; omega) hsn hsn'
  have hc := cloudSlot.pull_spec CloudNode.handle hs.bound hi'
    (show cloudSlot.get (cell s.rows i) = none by rw [hcell]; rfl) sn.syncedCloudNodeHandle
  generalize cloudSlot.pull CloudNode.handle s.rows s.a i sn.syncedCloudNodeHandle = mid at hc ⊢
  have hcfs : ∀ k, (cell mid k).fsNode = (cell s.rows k).fsNode :=
    hc.frame (·.fsNode) fun _ _ => rfl
  have hf := fsSlot.pull_spec FSNode.fsid hs.bound
    (hc.length ▸ hi') (show fsSlot.get (cell mid i) = none from by
      show (cell mid i).fsNode = none
      rw [hcfs, hcell]) sn.fsid_lastSynced
  generalize fsSlot.pull FSNode.fsid mid s.a i sn.fsid_lastSynced = after at hf ⊢
  have hfcloud : ∀ k, (cell after k).cloudNode = (cell mid k).cloudNode :=
    hf.frame (·.cloudNode) fun _ _ => rfl
  have hsync : ∀ k, (cell after k).syncNode = (cell s.rows k).syncNode := fun k =>
    (hf.frame (·.syncNode) (fun _ _ => rfl) k).trans (hc.frame (·.syncNode) (fun _ _ => rfl) k)
  have hfclean : ∀ k, (cell mid k).fsClashingNames = [] := fun k =>
    (hc.frame (·.fsClashingNames) (fun _ _ => rfl) k).trans (hs.fsClean k)
  have hmidfs : fsNodes mid = fsNodes s.rows :=
    flatMap_eq_of_cells hc.length (hc.frame fsSlot.nodes fun _ _ => rfl)
  have hciff := hc.get_iff hi' hs.cloudClean (by
    intro k hk cn hget hid
    obtain ⟨cn', sn', fsn', hrow', -, hcn', -, -⟩ := hs.front k hk
    have hsn' : (cell s.rows k).syncNode = some sn' := by rw [hrow']
    have hcn : some cn' = some cn := by
      rw [← hget, hrow']
      rfl
    cases hcn
    exact (hapart k hk sn' hsn').1 (hid.symm.trans hcn'))
  have hfiff := hf.get_iff (hc.length ▸ hi') hfclean (by
    intro k hk fsn hget hid
    obtain ⟨cn', sn', fsn', hrow', -, -, -, hfsn'⟩ := hs.front k hk
    have hsn' : (cell s.rows k).syncNode = some sn' := by rw [hrow']
    have hfsn : some fsn' = some fsn := by
      rw [← hget]
      show some fsn' = (cell mid k).fsNode
      rw [hcfs, hrow']
    cases hfsn
    exact (hapart k hk sn' hsn').2 (hid.symm.trans hfsn'))
  exact {
    length := by rw [hf.length, hc.length, hs.length]
    cloud := by
      have : cloudNodes after = cloudNodes mid :=
        flatMap_eq_of_cells hf.length (hf.frame cloudSlot.nodes fun _ _ => rfl)
      rw [this]
      exact hc.perm.trans hs.cloud
    sync := flatMap_eq_of_cells (hf.length.trans hc.length) fun k => by rw [hsync k]
    fs := hf.perm.trans ((List.Perm.of_eq hmidfs).trans hs.fs)
    cloudClean := fun k => (hf.frame (·.cloudClashingNames) (fun _ _ => rfl) k).trans
      ((hc.frame (·.cloudClashingNames) (fun _ _ => rfl) k).trans (hs.cloudClean k))
    fsClean := fun k => (hf.frame (·.fsClashingNames) (fun _ _ => rfl) k).trans (hfclean k)
    below := fun k hk => (hf.below k hk).trans (hc.below k hk)
    syncNode := hsync
    ahead := by
      intro k hk sn' hsn'
      have hk' : cell s.rows k = { syncNode := some sn' } := by
        rw [hs.ahead_sync k hk.le sn' hsn', h.syncRow hsn']
      rw [hf.without k (by omega) (by
          show (cell mid k).fsNode = none
          rw [hcfs, hk']),
        hc.without k (by omega) (by rw [hk']; rfl)]
    handle := fun cn hcn => hc.got cn ((hfcloud i).symm.trans hcn)
    fsid := fun fsn hfsn => hf.got fsn hfsn
    paired_iff := by
      rw [Sync.paired_iff, hfcloud i]
      refine and_congr ?_ ?_
      · exact Iff.trans (and_congr_right fun _ => exists_congr fun cn =>
          and_congr_left fun _ => hs.cloud.mem_iff.symm) hciff.symm
      exact Iff.trans (and_congr_right fun _ => exists_congr fun fsn =>
        and_congr_left fun _ =>
          ((List.Perm.of_eq hmidfs).trans hs.fs).mem_iff.symm) hfiff.symm }

theorem syncNodes_take_succ (hi : i < rows.length) :
    syncNodes (rows.take (i + 1)) = syncNodes (rows.take i) ++ (cell rows i).syncNode.toList := by
  rw [take_succ_eq_append_getElem hi, syncNodes, flatMap_append, cell_eq_getElem hi]
  simp [syncNodes]

theorem Scanned.step (h : Equals toUpper mCaseInsensitive rows) (hs : Scanned rows i s)
    (hi : i < rows.length) : Scanned rows (i + 1) (scanRow s i) := by
  have hrow := hs.ahead i le_rfl
  have hb := hs.bound
  have hcount : (syncNodes (rows.take (i + 1))).countP (paired rows) =
      s.a + ((cell s.rows i).syncNode.toList).countP (paired rows) := by
    rw [syncNodes_take_succ hi, countP_append, ← hs.count, hrow]
  rw [scanRow]
  split
  · -- no sync node: the row stays
    rename_i hnone
    rw [hnone] at hrow hcount
    exact { hs with
      bound := by omega
      behind := by
        intro k hak hk sn hsn
        rcases Nat.lt_succ_iff_lt_or_eq.1 hk with hk | rfl
        · exact hs.behind k hak hk sn hsn
        · rw [hnone] at hsn
          cases hsn
      ahead := fun k hk => hs.ahead k (by omega)
      ahead_sync := fun k hk => hs.ahead_sync k (by omega)
      count := by simpa using hcount.symm
      left := fun p hp => ⟨by have := (hs.left p hp).1; omega, (hs.left p hp).2⟩
      noneLeft := by
        intro hn p hp
        rcases Nat.lt_succ_iff_lt_or_eq.1 hp with hp | rfl
        · exact hs.noneLeft hn p hp
        intro hu
        obtain ⟨sn, hsn, -⟩ := hu
        rw [← hrow] at hsn
        cases hsn }
  rename_i sn hsn
  rw [hsn] at hrow hcount
  have hm := hs.matched h hi hsn
  dsimp only
  generalize fsSlot.pull FSNode.fsid (cloudSlot.pull CloudNode.handle s.rows s.a i
    sn.syncedCloudNodeHandle) s.a i sn.fsid_lastSynced = after at hm ⊢
  have hi' : i < after.length := hm.length ▸ hi
  have hai : s.a < after.length := by omega
  split
  · -- fully synced: the row goes to the front
    rename_i hfull
    rw [Bool.and_eq_true, Option.isSome_iff_ne_none, Option.isSome_iff_ne_none] at hfull
    have hp : paired rows sn = true := hm.paired_iff.2 hfull
    have hcell := cell_setTwo hai hi' (cell after i) (cell after s.a)
    have hfs : FullySynced (cell after i) := by
      obtain ⟨cn, hcn⟩ := Option.ne_none_iff_exists'.1 hfull.1
      obtain ⟨fsn, hfsn⟩ := Option.ne_none_iff_exists'.1 hfull.2
      obtain ⟨hw, hid⟩ := hm.handle cn hcn
      obtain ⟨hw', hid'⟩ := hm.fsid fsn hfsn
      refine ⟨cn, sn, fsn, ?_, hw, hid, hw', hid'⟩
      have hsn' := (hm.syncNode i).trans hsn
      have hcc := hm.cloudClean i
      have hfc := hm.fsClean i
      generalize cell after i = row at hcn hfsn hsn' hcc hfc
      cases row
      cases hcn
      cases hfsn
      cases hsn'
      cases hcc
      cases hfc
      rfl
    exact {
      length := by simpa using hm.length
      cloud := (perm_swap cloudSlot.nodes hai hi').trans hm.cloud
      sync := (perm_swap (fun row : SyncRow => row.syncNode.toList) hai hi').trans
        ((List.Perm.of_eq hm.sync).trans hs.sync)
      fs := (perm_swap fsSlot.nodes hai hi').trans hm.fs
      cloudClean := by
        intro k
        rw [hcell k]
        split
        · exact hm.cloudClean _
        · split <;> exact hm.cloudClean _
      fsClean := by
        intro k
        rw [hcell k]
        split
        · exact hm.fsClean _
        · split <;> exact hm.fsClean _
      bound := by dsimp only; omega
      front := by
        intro k hk
        rw [hcell k]
        rcases Nat.lt_succ_iff_lt_or_eq.1 hk with hk | rfl
        · rw [if_neg (by omega), if_neg (by omega), hm.below k hk]
          exact hs.front k hk
        split
        · rename_i he
          rwa [he]
        · rwa [if_pos rfl]
      behind := by
        intro k hak hk sn' hsn'
        dsimp only at hak hsn'
        rw [hcell k] at hsn'
        split at hsn'
        · rename_i hki
          rw [hm.syncNode] at hsn'
          exact hs.behind s.a le_rfl (by omega) sn' hsn'
        · rw [if_neg (by omega), hm.syncNode] at hsn'
          exact hs.behind k (by omega) (by omega) sn' hsn'
      ahead := by
        intro k hk
        rw [hcell k, if_neg (by omega), if_neg (by omega), hm.syncNode]
        exact hs.ahead k (by omega)
      ahead_sync := by
        intro k hk sn' hsn'
        rw [hcell k, if_neg (by omega), if_neg (by omega), hm.ahead k (by omega) sn' hsn']
        exact hs.ahead_sync k (by omega) sn' hsn'
      count := by
        rw [hcount]
        simp [hp]
      left := by
        intro p hpl
        obtain ⟨hpi, hu, hpos⟩ := hs.left p hpl
        refine ⟨by omega, hu, ?_⟩
        intro hap
        dsimp only at hap ⊢
        rw [hcell p, if_neg (by omega), if_neg (by omega), hm.syncNode]
        exact hpos (by omega)
      noneLeft := by
        intro hn p hpi
        rcases Nat.lt_succ_iff_lt_or_eq.1 hpi with hpi | rfl
        · exact hs.noneLeft hn p hpi
        intro hu
        obtain ⟨sn', hsn', hp'⟩ := hu
        rw [← hrow] at hsn'
        cases hsn'
        rw [hp] at hp'
        cases hp'
      lastFully := by simp }
  · -- not fully synced: the row is remembered
    rename_i hfull
    have hp : paired rows sn = false := by
      rw [Bool.eq_false_iff]
      intro hp
      obtain ⟨h₁, h₂⟩ := hm.paired_iff.1 hp
      exact hfull (by
        rw [Bool.and_eq_true, Option.isSome_iff_ne_none, Option.isSome_iff_ne_none]
        exact ⟨h₁, h₂⟩)
    exact { hm with
      sync := (List.Perm.of_eq hm.sync).trans hs.sync
      bound := by dsimp only; omega
      front := by
        intro k hk
        rw [hm.below k hk]
        exact hs.front k hk
      behind := by
        intro k hak hk sn' hsn'
        rw [hm.syncNode] at hsn'
        rcases Nat.lt_succ_iff_lt_or_eq.1 hk with hk | rfl
        · exact hs.behind k hak hk sn' hsn'
        rw [hsn] at hsn'
        cases hsn'
        exact hp
      ahead := fun k hk => (hm.syncNode k).trans (hs.ahead k (by omega))
      ahead_sync := fun k hk sn' hsn' =>
        (hm.ahead k (by omega) sn' hsn').trans (hs.ahead_sync k (by omega) sn' hsn')
      count := by
        rw [hcount]
        simp [hp]
      left := by
        intro p hpl
        cases hpl
        exact ⟨by omega, ⟨sn, hrow.symm, hp⟩, fun _ =>
          (hm.syncNode i).trans (hs.ahead i le_rfl)⟩
      noneLeft := nofun
      lastFully := hs.lastFully }

theorem scanned (h : Equals toUpper mCaseInsensitive rows) :
    Scanned rows rows.length (scan rows) := by
  have := foldl_range_inv (Scanned rows) 0 rows.length
    (fun i s _ hi hs => hs.step h (by omega)) (scanned_start h)
  rwa [Nat.zero_add] at this

/-! ## 4. The second loop -/

/-- What a round makes of the target and the row. -/
structure RowGathered (target row : SyncRow) (q : SyncRow × SyncRow) : Prop where
  cloudPerm : (cloudSlot.nodes q.1 ++ cloudSlot.nodes q.2).Perm
    (cloudSlot.nodes target ++ cloudSlot.nodes row)
  fsPerm : (fsSlot.nodes q.1 ++ fsSlot.nodes q.2).Perm (fsSlot.nodes target ++ fsSlot.nodes row)
  syncTarget : q.1.syncNode = target.syncNode
  syncRow : q.2.syncNode = row.syncNode
  fsNone : q.2.fsNode = none
  fsClash : q.2.fsClashingNames = row.fsClashingNames
  cloudClash : q.2.cloudClashingNames = row.cloudClashingNames
  cloudNone : q.2.cloudNode = none ∨
    (q.2.cloudNode = row.cloudNode ∧ ∃ cn, target.cloudNode = some cn ∧ cn.name = [])
  ownFs : ∀ fsn, ownsFs target fsn = true → target.fsNode = some fsn → q.1.fsNode = some fsn
  ownCloud : ∀ cn, ownsCloud target cn = true → target.cloudNode = some cn →
    q.1.cloudNode = some cn

theorem rowGathered (target row : SyncRow) :
    RowGathered target row
      (gatherCloud (gatherFs target row).1 (gatherFs target row).2) := by
  have hf := fsSlot.gather_spec (ownsFs target) target row
  rw [← gatherFs] at hf
  generalize gatherFs target row = p at hf
  have hsync := hf.frame (·.syncNode) fun _ _ _ => rfl
  have hcloud := hf.frame (·.cloudNode) fun _ _ _ => rfl
  have hclash := hf.frame (·.cloudClashingNames) fun _ _ _ => rfl
  have hnodes := hf.frame cloudSlot.nodes fun _ _ _ => rfl
  rw [gatherCloud]
  split
  · have hc := cloudSlot.gather_spec (ownsCloud p.1) p.1 p.2
    have hcsync := hc.frame (·.syncNode) fun _ _ _ => rfl
    have hcfs := hc.frame (·.fsNode) fun _ _ _ => rfl
    have hcclash := hc.frame (·.fsClashingNames) fun _ _ _ => rfl
    have hcnodes := hc.frame fsSlot.nodes fun _ _ _ => rfl
    exact {
      cloudPerm := by
        have := hc.perm
        rwa [hnodes.1, hnodes.2] at this
      fsPerm := by
        rw [hcnodes.1, hcnodes.2]
        exact hf.perm
      syncTarget := hcsync.1.trans hsync.1
      syncRow := hcsync.2.trans hsync.2
      fsNone := hcfs.2.trans hf.none
      fsClash := hcclash.2.trans hf.clashing
      cloudClash := hc.clashing.trans hclash.2
      cloudNone := .inl hc.none
      ownFs := fun fsn hown hfsn => hcfs.1.trans (hf.own fsn hown hfsn)
      ownCloud := by
        intro cn hown hcn
        refine hc.own cn ?_ (hcloud.1.trans hcn)
        rw [ownsCloud, hsync.1]
        exact hown }
  -- the target has no name
  rename_i hname
  refine {
    cloudPerm := by rw [hnodes.1, hnodes.2]
    fsPerm := hf.perm
    syncTarget := hsync.1
    syncRow := hsync.2
    fsNone := hf.none
    fsClash := hf.clashing
    cloudClash := hclash.2
    cloudNone := .inr ⟨hcloud.2, ?_⟩
    ownFs := fun fsn hown hfsn => hf.own fsn hown hfsn
    ownCloud := fun cn _ hcn => hcloud.1.trans hcn }
  rw [hcloud.1] at hname
  cases hcn : target.cloudNode with
  | none => simp [hcn] at hname
  | some cn =>
    refine ⟨cn, rfl, ?_⟩
    simpa [hcn] using hname

/-- Before round `i` of the second loop, `cur` has become of the rows that the first one left. -/
structure Collected (rows : List SyncRow) (s : Scan) (i : Nat) (cur : List SyncRow) : Prop where
  length : cur.length = rows.length
  cloud : (cloudNodes cur).Perm (cloudNodes rows)
  sync : (syncNodes cur).Perm (syncNodes rows)
  fs : (fsNodes cur).Perm (fsNodes rows)
  syncNode : ∀ k, (cell cur k).syncNode = (cell s.rows k).syncNode
  front : ∀ k < s.a, k ≠ s.targetrow → cell cur k = cell s.rows k
  todo : ∀ k, i ≤ k → k ≠ s.targetrow → cell cur k = cell s.rows k
  done : ∀ k, s.a ≤ k → k < i → k ≠ s.targetrow →
    (cell cur k).fsNode = none ∧ (cell cur k).fsClashingNames = [] ∧
    (cell cur k).cloudClashingNames = [] ∧
    ∀ cn, (cell cur k).cloudNode = some cn → cn.name = []
  target : FullySynced (cell s.rows s.targetrow) →
    (cell cur s.targetrow).cloudNode = (cell s.rows s.targetrow).cloudNode ∧
    (cell cur s.targetrow).fsNode = (cell s.rows s.targetrow).fsNode

theorem Scanned.targetrow_lt (hs : Scanned rows rows.length s) (hn : 0 < rows.length) :
    s.targetrow < rows.length := by
  rw [Scan.targetrow]
  have hb := hs.bound
  have hl := hs.lastFully
  cases hp : s.lastNotFullySynced with
  | some p => exact (hs.left p hp).1
  | none =>
    by_cases h0 : s.a = 0
    · rw [hl, if_pos h0]
      dsimp only
      omega
    rw [hl, if_neg h0]
    dsimp only
    omega

theorem Collected.step (h : Equals toUpper mCaseInsensitive rows) (hs : Scanned rows rows.length s)
    {cur : List SyncRow} (hc : Collected rows s i cur) (ha : s.a ≤ i) (hi : i < rows.length) :
    Collected rows s (i + 1) (gatherRow s.targetrow cur i) := by
  rw [gatherRow]
  split_ifs with hit
  · exact { hc with
      todo := fun k hk => hc.todo k (by omega)
      done := fun k hak hk hkt => hc.done k hak (by omega) hkt }
  have ht : s.targetrow < cur.length := by
    rw [hc.length]
    exact hs.targetrow_lt (by omega)
  have hi' : i < cur.length := hc.length ▸ hi
  have hg := rowGathered (cell cur s.targetrow) (cell cur i)
  dsimp only
  generalize gatherCloud (gatherFs (cell cur s.targetrow) (cell cur i)).1
    (gatherFs (cell cur s.targetrow) (cell cur i)).2 = q at hg
  have hne : s.targetrow ≠ i := fun e => hit e.symm
  have hcell := cell_setTwo ht hi' q.1 q.2
  have hrow := hc.todo i le_rfl hit
  refine {
    length := by simpa using hc.length
    cloud := (perm_setTwo cloudSlot.nodes ht hi' hne hg.cloudPerm).trans hc.cloud
    sync := ?_
    fs := (perm_setTwo fsSlot.nodes ht hi' hne hg.fsPerm).trans hc.fs
    syncNode := ?_
    front := ?_
    todo := ?_
    done := ?_
    target := ?_ }
  · refine (perm_setTwo (fun row : SyncRow => row.syncNode.toList) ht hi' hne ?_).trans hc.sync
    rw [hg.syncTarget, hg.syncRow]
  · intro k
    rw [hcell k]
    split
    · rename_i hk
      rw [hg.syncRow, hk]
      exact hc.syncNode i
    split_ifs with hk
    · rw [hg.syncTarget, hk]
      exact hc.syncNode _
    · exact hc.syncNode k
  · intro k hk hkt
    rw [hcell k, if_neg (by omega), if_neg hkt]
    exact hc.front k hk hkt
  · intro k hk hkt
    rw [hcell k, if_neg (by omega), if_neg hkt]
    exact hc.todo k (by omega) hkt
  · intro k hak hk hkt
    rw [hcell k]
    split_ifs with hki
    · refine ⟨hg.fsNone, by rw [hg.fsClash, hrow]; exact hs.fsClean i,
        by rw [hg.cloudClash, hrow]; exact hs.cloudClean i, ?_⟩
      intro cn hcn
      rcases hg.cloudNone with hn | ⟨he, cn', hcn', hname⟩
      · rw [hn] at hcn
        cases hcn
      · -- the target has a cloud node without a name, so this one has none
        rw [he] at hcn
        exact h.nameless (hc.cloud.subset (mem_nodes_of_get ht hcn'))
          (hc.cloud.subset (mem_nodes_of_get hi' hcn)) hname
    · exact hc.done k hak (by omega) hkt
  intro hfull
  obtain ⟨h₁, h₂⟩ := hc.target hfull
  have hsync := hc.syncNode s.targetrow
  obtain ⟨cn, sn, fsn, hrow', -, hcn, -, hfsn⟩ := hfull
  rw [hcell, if_neg hne, if_pos rfl]
  rw [hrow'] at h₁ h₂ hsync ⊢
  refine ⟨hg.ownCloud cn ?_ h₁, hg.ownFs fsn ?_ h₂⟩
  · simp [ownsCloud, hsync, hcn]
  · simp [ownsFs, hsync, hfsn]

theorem collected (h : Equals toUpper mCaseInsensitive rows) :
    Collected rows (scan rows) rows.length (combineTripletSet rows).1 := by
  have hs := scanned h
  have hb := hs.bound
  have hstart : Collected rows (scan rows) (scan rows).a (scan rows).rows :=
    { hs with
      syncNode := fun _ => rfl
      front := fun _ _ _ => rfl
      todo := fun _ _ _ => rfl
      done := fun k hak hk => absurd hk (by omega)
      target := fun _ => ⟨rfl, rfl⟩ }
  have := foldl_range_inv (Collected rows (scan rows))
    (scan rows).a (rows.length - (scan rows).a)
    (fun i cur ha hi hc => hc.step h hs ha (by omega)) hstart
  rwa [show (scan rows).a + (rows.length - (scan rows).a) = rows.length by omega] at this

/-! ## 5. The rows afterwards -/

theorem Scanned.paired_front (hs : Scanned rows i s) (hi : i ≤ rows.length) (hk : k < s.a)
    (hsn : (cell s.rows k).syncNode = some sn) : paired rows sn = true := by
  have hlen : k < s.rows.length := by
    have := hs.bound
    rw [hs.length]
    omega
  obtain ⟨cn, sn', fsn, hrow, hw, hcn, hw', hfsn⟩ := hs.front k hk
  rw [hrow] at hsn
  cases hsn
  exact paired_iff.2
    ⟨⟨hw, cn, hs.cloud.subset (mem_nodes_of_get hlen (by rw [hrow]; rfl)), hcn⟩,
      ⟨hw', fsn, hs.fs.subset (mem_nodes_of_get hlen (by rw [hrow]; rfl)), hfsn⟩⟩

theorem Scanned.mem_front_iff (hs : Scanned rows rows.length s)
    (hsn : (cell s.rows k).syncNode = some sn) : k < s.a ↔ paired rows sn = true := by
  have hk := lt_length_of_syncNode hsn
  rw [hs.length] at hk
  constructor
  · intro hka
    exact hs.paired_front le_rfl hka hsn
  intro hp
  by_contra hka
  rw [hs.behind k (by omega) hk sn hsn] at hp
  cases hp

theorem Scanned.count_eq (hs : Scanned rows rows.length s) : s.a = pairedCount rows := by
  rw [hs.count, take_length, pairedCount]

/-- The remembered row is that of the sync node that is not fully synced. -/
theorem Scanned.targetrow_of_unpaired (h : Equals toUpper mCaseInsensitive rows)
    (hs : Scanned rows rows.length s) (hu : Unpaired rows p) : s.targetrow = p := by
  have hp : p < rows.length := by
    obtain ⟨sn, hsn, -⟩ := hu
    exact lt_length_of_syncNode hsn
  rw [Scan.targetrow]
  cases hl : s.lastNotFullySynced with
  | some p' => exact h.atMostOne p' p (hs.left p' hl).2.1 hu
  | none => exact absurd hu (hs.noneLeft hl p hp)

/-- **`combineTripletSet` combines the rows of one name exactly if the sync node that is not fully
synced, where there is one, stands behind at least as many rows as there are fully synced nodes.**
Otherwise the row remembered for it is one that was swapped to the front, and it keeps a row of
its own. -/
theorem combined_iff (h : Equals toUpper mCaseInsensitive rows) :
    Combined rows (combineTripletSet rows) ↔
      ∀ p, Unpaired rows p → pairedCount rows ≤ p := by
  have hs := scanned h
  have hc := collected h
  have htarget : (combineTripletSet rows).2 = (scan rows).targetrow := rfl
  generalize (combineTripletSet rows) = out at hc htarget ⊢
  have hnodup := (hs.sync.nodup_iff).2 h.syncNodes_nodup
  constructor
  · intro hcomb p hu
    rw [← hs.count_eq]
    by_contra hlt
    have ht := hs.targetrow_of_unpaired h hu
    obtain ⟨sn, hsn, hpair⟩ := hu
    obtain ⟨k, hk, hksn⟩ := mem_syncNodes.1 (hs.sync.symm.subset
      (mem_syncNodes.2 ⟨p, lt_length_of_syncNode hsn, hsn⟩))
    have hka : ¬ k < (scan rows).a := by
      rw [hs.mem_front_iff hksn, hpair]
      exact Bool.false_ne_true
    have hout : (cell out.1 k).syncNode = some sn := (hc.syncNode k).trans hksn
    rcases hcomb.rest k (by rw [hc.length, ← hs.length]; exact hk) (by omega) with
      ⟨sn', hsn', hp'⟩ | hrow | ⟨cn, -, hrow⟩
    · rw [hout] at hsn'
      cases hsn'
      rw [hpair] at hp'
      cases hp'
    · rw [hrow] at hout
      cases hout
    · rw [hrow] at hout
      cases hout
  intro hcond
  refine ⟨hc.cloud, hc.sync, hc.fs, ?_, ?_⟩
  · intro sn hsn cn hcn fsn hfsn hw hid hw' hid'
    have hp : paired rows sn = true := paired_iff.2 ⟨⟨hw, cn, hcn, hid⟩, ⟨hw', fsn, hfsn, hid'⟩⟩
    obtain ⟨k, hk, hksn⟩ := mem_syncNodes.1 (hs.sync.symm.subset hsn)
    have hfull := hs.front k ((hs.mem_front_iff hksn).2 hp)
    obtain ⟨cn', sn', fsn', hrow, -, hcn', -, hfsn'⟩ := id hfull
    rw [hrow] at hksn
    cases hksn
    have hceq : cn' = cn := h.eq_of_handle
      (hs.cloud.subset (mem_nodes_of_get hk (by rw [hrow]; rfl))) hcn
      (hcn'.trans hid.symm)
    have hfeq : fsn' = fsn := h.eq_of_fsid
      (hs.fs.subset (mem_nodes_of_get hk (by rw [hrow]; rfl))) hfsn
      (hfsn'.trans hid'.symm)
    subst hceq hfeq
    have hk' : k < out.1.length := by rw [hc.length, ← hs.length]; exact hk
    refine ⟨cell out.1 k, cell_mem hk', ?_⟩
    by_cases hkt : k = (scan rows).targetrow
    · have ht := hc.target (hkt ▸ hfull)
      rw [← hkt, hrow] at ht
      exact ⟨ht.1, by rw [hc.syncNode, hrow], ht.2⟩
    · rw [hc.front k ((hs.mem_front_iff (by rw [hrow])).2 hp) hkt, hrow]
      exact ⟨rfl, rfl, rfl⟩
  · intro k hk hkt
    rw [htarget] at hkt
    rw [hc.length] at hk
    by_cases hka : k < (scan rows).a
    · obtain ⟨cn, sn, fsn, hrow, -⟩ := hs.front k hka
      have hsn : (cell (scan rows).rows k).syncNode = some sn := by rw [hrow]
      exact .inl ⟨sn, (hc.syncNode k).trans hsn, (hs.mem_front_iff hsn).1 hka⟩
    · -- behind the front no row but the target has a sync node
      have hsync : (cell out.1 k).syncNode = none := by
        rw [hc.syncNode k]
        cases hsn : (cell (scan rows).rows k).syncNode with
        | none => rfl
        | some sn =>
          have hpair := hs.behind k (by omega) hk sn hsn
          obtain ⟨p, hp, hpsn⟩ := mem_syncNodes.1 (hs.sync.subset
            (mem_syncNodes.2 ⟨k, lt_length_of_syncNode hsn, hsn⟩))
          have hu : Unpaired rows p := ⟨sn, hpsn, hpair⟩
          have ht := hs.targetrow_of_unpaired h hu
          have hpos : (cell (scan rows).rows p).syncNode = some sn := by
            have hle := hcond p hu
            rw [← hs.count_eq] at hle
            cases hl : (scan rows).lastNotFullySynced with
            | none => exact absurd hu (hs.noneLeft hl p hp)
            | some p' =>
              obtain ⟨-, hu', hp'⟩ := hs.left p' hl
              rw [h.atMostOne p' p hu' hu] at hp'
              rw [hp' hle, hpsn]
          exact absurd rfl (pairwise_cells (fun _ _ => Ne.symm) hnodup
            (ht ▸ hkt) hsn hpos)
      obtain ⟨hfs, hfc, hcc, hname⟩ := hc.done k (by omega) hk hkt
      refine .inr ?_
      generalize cell out.1 k = row at hsync hfs hfc hcc hname
      cases row with
      | mk cloud sync fs cc fc =>
        cases hsync
        cases hfs
        cases hfc
        cases hcc
        cases cloud with
        | none => exact .inl rfl
        | some cn => exact .inr ⟨cn, hname cn rfl, rfl⟩

instance (sn sn' : LocalNode) : Decidable (SyncedApart sn sn') :=
  inferInstanceAs (Decidable (_ ∧ _))

/-- A file `a` with its cloud node and sync node, a second cloud node of the name, and a sync node
`a` that has not been synced yet. -/
def unsyncedBehind : List SyncRow :=
  [{ cloudNode := some ⟨[97], some 1⟩ }, { fsNode := some ⟨[97], some 5⟩ },
    { syncNode := some ⟨[97], some 1, some 5⟩ }, { syncNode := some ⟨[97], none, none⟩ },
    { cloudNode := some ⟨[97], some 2⟩ }]

/-- The same nodes with the sync node that has not been synced in front. -/
def unsyncedInFront : List SyncRow :=
  [{ syncNode := some ⟨[97], none, none⟩ }, { syncNode := some ⟨[97], some 1, some 5⟩ },
    { cloudNode := some ⟨[97], some 1⟩ }, { fsNode := some ⟨[97], some 5⟩ },
    { cloudNode := some ⟨[97], some 2⟩ }]

theorem unpaired_behind (hp : Unpaired unsyncedBehind p) : p = 3 := by
  obtain ⟨sn, hsn, hpair⟩ := hp
  match p with
  | 0 | 1 => cases hsn
  | 2 =>
    cases hsn
    exact absurd hpair (by decide)
  | 3 => rfl
  | 4 => cases hsn
  | _ + 5 => cases hsn

theorem unpaired_inFront (hp : Unpaired unsyncedInFront p) : p = 0 := by
  obtain ⟨sn, hsn, hpair⟩ := hp
  match p with
  | 0 => rfl
  | 1 =>
    cases hsn
    exact absurd hpair (by decide)
  | 2 => cases hsn
  | 3 => cases hsn
  | 4 => cases hsn
  | _ + 5 => cases hsn

theorem fresh_of_mem {row : SyncRow} (h : row ∈ unsyncedBehind ∨ row ∈ unsyncedInFront) :
    Fresh row := by
  simp only [unsyncedBehind, unsyncedInFront, mem_cons, not_mem_nil, or_false] at h
  rcases h with (rfl | rfl | rfl | rfl | rfl) | (rfl | rfl | rfl | rfl | rfl) <;> constructor

/-- In this order the rows are combined. -/
theorem combined_iff_behind :
    Equals id false unsyncedBehind ∧
      Combined unsyncedBehind (combineTripletSet unsyncedBehind) := by
  have he : Equals id false unsyncedBehind :=
    ⟨fun row hrow => fresh_of_mem (.inl hrow), by decide, by decide, by decide, by decide,
      fun p q hp hq => (unpaired_behind hp).trans (unpaired_behind hq).symm⟩
  refine ⟨he, (combined_iff he).2 ?_⟩
  intro p hp
  rw [unpaired_behind hp]
  decide

/-- In this order they are not: the second cloud node ends up in the row of the synced file, and
the unsynced sync node in a row that is not the target. -/
theorem not_combined_of_front :
    Equals id false unsyncedInFront ∧
      ¬ Combined unsyncedInFront (combineTripletSet unsyncedInFront) := by
  refine ⟨⟨fun row hrow => fresh_of_mem (.inr hrow), by decide, by decide, by decide, by decide,
    fun p q hp hq => (unpaired_inFront hp).trans (unpaired_inFront hq).symm⟩, ?_⟩
  intro hc
  rcases hc.rest 1 (by decide) (by decide) with ⟨sn, hsn, hp⟩ | hrow | ⟨cn, -, hrow⟩
  · have hsn' : some (⟨[97], none, none⟩ : LocalNode) = some sn := hsn
    cases hsn'
    exact absurd hp (by decide)
  · exact absurd hrow (by decide)
  · have hnone : (cell (combineTripletSet unsyncedInFront).1 1).syncNode = none := by rw [hrow]
    exact absurd hnone (by decide)

end Combining

end MegaSdk.Sync
