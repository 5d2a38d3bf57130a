/-
  File:      MegaSdk/Sync/Triplets.lean
  Subject:   COMBINING THE ROWS OF ONE NAME (Sync::combineTripletSet, sync.cpp).

  The iterators of the source are indices into the rows of the set; `a` moves up as rows are put
  aside in front.

  * `Slot` -- a kind of node in a row with its list of clashing ones: `cloudSlot`, `fsSlot`;
  * `Slot.pull` -- a sync node takes the node it was synced to out of another row;
  * **`Slot.pull_spec`**, **`Slot.gather_spec`** -- what the two do, for both kinds of nodes.
-/
import MegaSdk.Base.Cells
import MegaSdk.Base.Loop
import MegaSdk.Sync.Rows

namespace MegaSdk.Sync

open Base List Option

/-! ## 1. The code -/

/-- A kind of node that a row has one of, and a list of clashing ones. -/
structure Slot (α : Type) where
  get : SyncRow → Option α
  clashing : SyncRow → List α
  put : SyncRow → Option α → List α → SyncRow
  get_put : ∀ row x l, get (put row x l) = x
  clashing_put : ∀ row x l, clashing (put row x l) = l

def cloudSlot : Slot CloudNode where
  get row := row.cloudNode
  clashing row := row.cloudClashingNames
  put row x l := { row with cloudNode := x, cloudClashingNames := l }
  get_put _ _ _ := rfl
  clashing_put _ _ _ := rfl

def fsSlot : Slot FSNode where
  get row := row.fsNode
  clashing row := row.fsClashingNames
  put row x l := { row with fsNode := x, fsClashingNames := l }
  get_put _ _ _ := rfl
  clashing_put _ _ _ := rfl

namespace Slot

variable {α : Type} (S : Slot α)

def swap (rows : List SyncRow) (j i : Nat) : List SyncRow :=
  setTwo rows j (S.put (cell rows j) (S.get (cell rows i)) (S.clashing (cell rows j)))
    i (S.put (cell rows i) (S.get (cell rows j)) (S.clashing (cell rows i)))

/-- The first row from `a` on that has the node with the wanted id. -/
def find (id : α → Option Nat) (rows : List SyncRow) (a : Nat) (wanted : Option Nat) :
    Option Nat :=
  (List.range' a (rows.length - a)).find? fun j =>
    (S.get (cell rows j)).any fun x => id x == wanted

/-- The row at `i` takes the node with the wanted id, if one is wanted and there is one. -/
def pull (id : α → Option Nat) (rows : List SyncRow) (a i : Nat) (wanted : Option Nat) :
    List SyncRow :=
  if wanted.isNone then rows
  else
    match S.find id rows a wanted with
    | some j => S.swap rows j i
    | none => rows

/-- Where `x` goes in a target that has `slot` and `clashing`: a node that is not the one the
target was synced to joins the clashing ones, and so does `x` unless there is no other. -/
def gatherInto (own : α → Bool) (slot : Option α) (clashing : List α) (x : α) :
    Option α × List α :=
  let kept := slot.filter own
  let clashing := if kept.isSome then clashing else clashing ++ slot.toList
  if kept.isSome || !clashing.isEmpty then (kept, clashing ++ [x]) else (some x, clashing)

/-- The node of `row` goes to `target`. -/
def gather (own : α → Bool) (target row : SyncRow) : SyncRow × SyncRow :=
  match S.get row with
  | none => (target, row)
  | some x =>
    let p := gatherInto own (S.get target) (S.clashing target) x
    (S.put target p.1 p.2, S.put row none (S.clashing row))

end Slot

/-- The variables of `combineTripletSet`; an iterator at `b` is `none`. -/
structure Scan where
  rows : List SyncRow
  a : Nat := 0
  lastFullySynced : Option Nat := none
  lastNotFullySynced : Option Nat := none
  syncNode_nfs_count : Nat := 0
deriving Repr

def scanRow (s : Scan) (i : Nat) : Scan :=
  match (cell s.rows i).syncNode with
  | none => s
  | some sn =>
    let rows := cloudSlot.pull CloudNode.handle s.rows s.a i sn.syncedCloudNodeHandle
    let rows := fsSlot.pull FSNode.fsid rows s.a i sn.fsid_lastSynced
    if (cell rows i).cloudNode.isSome && (cell rows i).fsNode.isSome then
      { s with
        rows := setTwo rows s.a (cell rows i) i (cell rows s.a)
        lastFullySynced := some s.a
        a := s.a + 1 }
    else
      { s with
        rows := rows
        lastNotFullySynced := some i
        syncNode_nfs_count := s.syncNode_nfs_count + 1 }

def scan (rows : List SyncRow) : Scan := (List.range' 0 rows.length).foldl scanRow { rows := rows }

/-- The row in which the rest is gathered. -/
def Scan.targetrow (s : Scan) : Nat :=
  match s.lastNotFullySynced with
  | some t => t
  | none =>
    match s.lastFullySynced with
    | some t => t
    | none => s.a

/-- The file system node of the target is the one its sync node was synced to. -/
def ownsFs (target : SyncRow) (fsn : FSNode) : Bool :=
  target.syncNode.any fun sn => sn.fsid_lastSynced == fsn.fsid

def ownsCloud (target : SyncRow) (cn : CloudNode) : Bool :=
  target.syncNode.any fun sn => sn.syncedCloudNodeHandle == cn.handle

def gatherFs (target row : SyncRow) : SyncRow × SyncRow :=
  fsSlot.gather (ownsFs target) target row

/-- For a target without a name, nothing is gathered from the cloud. -/
def gatherCloud (target row : SyncRow) : SyncRow × SyncRow :=
  if target.cloudNode.all fun cn => !cn.name.isEmpty then
    cloudSlot.gather (ownsCloud target) target row
  else (target, row)

def gatherRow (t : Nat) (rows : List SyncRow) (i : Nat) : List SyncRow :=
  if i = t then rows
  else
    let p := gatherFs (cell rows t) (cell rows i)
    let q := gatherCloud p.1 p.2
    setTwo rows t q.1 i q.2

/-- `combineTripletSet`: the rows, and the target row. -/
def combineTripletSet (rows : List SyncRow) : List SyncRow × Nat :=
  let s := scan rows
  ((List.range' s.a (rows.length - s.a)).foldl (gatherRow s.targetrow) s.rows, s.targetrow)

/-! ## 2. Pulling a node into a row -/

namespace Slot

variable {α : Type} (S : Slot α) {id : α → Option Nat} {rows : List SyncRow} {wanted : Option Nat}
  {own : α → Bool}

def nodes (row : SyncRow) : List α := (S.get row).toList ++ S.clashing row

theorem nodes_put (row : SyncRow) (x : Option α) (l : List α) :
    S.nodes (S.put row x l) = x.toList ++ l := by
  rw [nodes, S.get_put, S.clashing_put]

theorem find_some {a j : Nat} (h : S.find id rows a wanted = some j) :
    a ≤ j ∧ j < rows.length ∧ ∃ x, S.get (cell rows j) = some x ∧ id x = wanted := by
  have hp := find?_some h
  obtain ⟨x, hx, hid⟩ := (any_eq_true _ _).1 hp
  have hm := mem_range'_1.1 (mem_of_find?_eq_some h)
  exact ⟨hm.1, by omega, x, hx, by simpa using hid⟩

theorem find_none {a j : Nat} (h : S.find id rows a wanted = none) (ha : a ≤ j)
    (hj : j < rows.length) {x : α} (hx : S.get (cell rows j) = some x) : id x ≠ wanted := by
  have hm := find?_eq_none.1 h j (mem_range'_1.2 ⟨ha, by omega⟩)
  intro hid
  exact hm ((any_eq_true _ _).2 ⟨x, hx, by simpa using hid⟩)

/-- What `pull` makes of the rows, if the row at `i` has no such node yet. -/
structure Pulled (id : α → Option Nat) (rows : List SyncRow) (a i : Nat) (wanted : Option Nat)
    (rows' : List SyncRow) : Prop where
  length : rows'.length = rows.length
  perm : (rows'.flatMap S.nodes).Perm (rows.flatMap S.nodes)
  frame : ∀ {γ : Type} (g : SyncRow → γ), (∀ row x, g (S.put row x (S.clashing row)) = g row) →
    ∀ k, g (cell rows' k) = g (cell rows k)
  below : ∀ k < a, cell rows' k = cell rows k
  without : ∀ k ≠ i, S.get (cell rows k) = none → cell rows' k = cell rows k
  got : ∀ x, S.get (cell rows' i) = some x → wanted ≠ none ∧ id x = wanted
  found : wanted ≠ none → ∀ j x, a ≤ j → j < rows.length → S.get (cell rows j) = some x →
    id x = wanted → S.get (cell rows' i) ≠ none

theorem gatherInto_own {y : α} (h : own y = true) (clashing : List α) (x : α) :
    (gatherInto own (some y) clashing x).1 = some y := by
  simp [gatherInto, h]

variable [DecidableEq α]

/-- **A pull finds the wanted node exactly if a row from `a` on has it, and moves nothing else.** -/
theorem pull_spec (id) {a i : Nat} (ha : a ≤ i)
    (hi : i < rows.length) (hget : S.get (cell rows i) = none) (wanted) :
    S.Pulled id rows a i wanted (S.pull id rows a i wanted) := by
  have hsame : (wanted ≠ none → ∀ j x, a ≤ j → j < rows.length → S.get (cell rows j) = some x →
      id x ≠ wanted) → S.Pulled id rows a i wanted rows := by
    intro hno
    refine ⟨rfl, .rfl, fun _ _ _ => rfl, fun _ _ => rfl, fun _ _ _ => rfl, ?_, ?_⟩
    · intro x hx
      rw [hget] at hx
      cases hx
    · intro hw j x haj hj hx hid
      exact absurd hid (hno hw j x haj hj hx)
  rw [pull]
  split_ifs with hw
  · exact hsame fun h => absurd (isNone_iff_eq_none.1 hw) h
  have hw' : wanted ≠ none := fun h => hw (isNone_iff_eq_none.2 h)
  split
  · rename_i j hfind
    obtain ⟨haj, hj, x, hx, hid⟩ := S.find_some hfind
    have hne : j ≠ i := by
      intro h
      rw [h, hget] at hx
      cases hx
    have hcell := cell_setTwo hj hi
      (S.put (cell rows j) (S.get (cell rows i)) (S.clashing (cell rows j)))
      (S.put (cell rows i) (S.get (cell rows j)) (S.clashing (cell rows i)))
    refine ⟨by simp [swap], ?_, ?_, ?_, ?_, ?_, ?_⟩
    · refine perm_setTwo S.nodes hj hi hne ?_
      rw [S.nodes_put, S.nodes_put, perm_iff_count]
      intro b
      simp only [nodes, count_append]
      omega
    · intro γ g hg k
      rw [swap, hcell k]
      split
      · rename_i h
        rw [h]
        exact hg _ _
      split_ifs with h
      · rw [h]
        exact hg _ _
      · rfl
    · intro k hk
      rw [swap, hcell k, if_neg (by omega), if_neg (by omega)]
    · intro k hki hnone
      rw [swap, hcell k, if_neg hki, if_neg]
      intro hkj
      rw [hkj, hx] at hnone
      cases hnone
    · intro y hy
      rw [swap, hcell i, if_pos rfl, S.get_put, hx] at hy
      cases hy
      exact ⟨hw', hid⟩
    intro _ _ _ _ _ _ _
    rw [swap, hcell i, if_pos rfl, S.get_put, hx]
    exact some_ne_none x
  · rename_i hfind
    exact hsame fun _ j x haj hj hx => S.find_none hfind haj hj hx

/-! ## 3. Gathering a node in the target -/

theorem gatherInto_perm (own) (slot : Option α) (clashing : List α) (x : α) :
    ((gatherInto own slot clashing x).1.toList ++ (gatherInto own slot clashing x).2).Perm
      (slot.toList ++ clashing ++ [x]) := by
  rw [perm_iff_count]
  intro b
  simp only [gatherInto]
  cases slot with
  | none =>
    cases clashing with
    | _ => simp
  | some y =>
    cases hown : own y with
    | true =>
      simp only [Option.filter, hown, Option.isSome_some, if_true, Bool.true_or,
        count_append]
      omega
    | false =>
      simp only [Option.filter, hown, Bool.false_eq_true, if_false, Option.isSome_none]
      rw [if_pos (by simp)]
      simp only [count_append, Option.toList_none, count_nil]
      omega

/-- What `gather` makes of the target and a row. -/
structure Gathered (own : α → Bool) (target row : SyncRow) (p : SyncRow × SyncRow) : Prop where
  perm : (S.nodes p.1 ++ S.nodes p.2).Perm (S.nodes target ++ S.nodes row)
  none : S.get p.2 = none
  clashing : S.clashing p.2 = S.clashing row
  own : ∀ y, own y = true → S.get target = some y → S.get p.1 = some y
  frame : ∀ {γ : Type} (g : SyncRow → γ), (∀ row x l, g (S.put row x l) = g row) →
    g p.1 = g target ∧ g p.2 = g row

/-- **Gathering leaves the row without a node of this kind and loses none.** -/
theorem gather_spec (own) (target row : SyncRow) :
    S.Gathered own target row (S.gather own target row) := by
  rw [gather]
  split
  · rename_i hnone
    exact ⟨.rfl, hnone, rfl, fun _ _ h => h, fun _ _ => ⟨rfl, rfl⟩⟩
  rename_i x hx
  refine ⟨?_, S.get_put _ _ _, S.clashing_put _ _ _, ?_, fun g hg => ⟨hg _ _ _, hg _ _ _⟩⟩
  · have h := gatherInto_perm own (S.get target) (S.clashing target) x
    rw [perm_iff_count] at h ⊢
    intro b
    have hb := h b
    rw [nodes_put, nodes_put]
    simp only [nodes, hx, count_append, toList_none, toList_some,
      count_nil] at hb ⊢
    omega
  intro y hown hy
  simp only [S.get_put, hy]
  exact gatherInto_own hown _ _

end Slot

end MegaSdk.Sync
