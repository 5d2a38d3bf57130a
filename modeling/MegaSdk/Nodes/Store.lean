/-
  File:      MegaSdk/Nodes/Store.lean
  Subject:   NODES IN MEMORY OVER THE ROWS OF THE TABLE (nodemanager.cpp).

  Nodes are loaded from their rows when they are needed and may be dropped again. A node that was
  renamed, moved, added or marked removed stays in memory, and in the notification queue, until
  `notifyPurge` has written it; between taking the queue and writing, the changed nodes are in
  neither.

  * `NodeImage`, `NodeStore` -- the rows, the loaded nodes, the queue, and what each node knows of its
    children;
  * `Coherent` -- how the loaded nodes lie over the rows; it holds in every run (`coherent_of_run`).
-/
import MegaSdk.Base.OrdMap
import MegaSdk.Base.Loop
import MegaSdk.Nodes.Manager

namespace MegaSdk.Nodes

open Base List Function OrdMap Option

/-! ## 1. Nodes, rows and names -/

/-- What a node and its row hold, as far as the lookup of children reads it: `attrstring` is set while
    the attributes are still encrypted, and `n` is the attribute with the name. -/
structure NodeImage where
  parenthandle : Option Nat
  type : NodeType
  attrstring : Bool := false
  n : Option String
deriving DecidableEq, Repr

namespace NodeImage

variable {d i : NodeImage}

/-- `displayname(LOG_CONDITION_DISABLE_NO_KEY)`, which is the name in the row. -/
def storedName (d : NodeImage) : String :=
  match d.n with
  | none => "CRYPTO_ERROR"
  | some n => if n = "" then "BLANK" else n

def displayname (d : NodeImage) : String := if d.attrstring then "NO_KEY" else d.storedName

theorem displayname_of_decrypted (h : d.attrstring = false) : d.displayname = d.storedName := by
  unfold displayname
  rw [h]
  rfl

/-- What a row holds, read: as it is, or decrypted since. -/
def Reads (d i : NodeImage) : Prop :=
  i = d ∨ d.attrstring = true ∧ i = { d with attrstring := false, n := i.n }

theorem Reads.parenthandle (h : d.Reads i) : i.parenthandle = d.parenthandle := by
  rcases h with rfl | ⟨-, h⟩
  · rfl
  · rw [h]

end NodeImage

structure LoadedNode where
  image : NodeImage
  removed : Bool := false
deriving DecidableEq, Repr

/-- `NodeManagerNode`: the known children, each with whether there is a pointer to its entry, and
    whether these are all the children there are. -/
structure ChildEntry where
  mChildren : Option (OrdMap Nat Bool) := none
  mAllChildrenHandleLoaded : Bool := false

/-- The committed rows, the nodes in memory, the notification queue, and the nodes that a running
    `notifyPurge` has taken from the queue and not yet written. -/
structure NodeStore where
  rows : OrdMap Nat NodeImage
  ram : Nat → Option LoadedNode := fun _ => none
  mNodeNotify : List Nat := []
  nodesToReport : List Nat := []
  entry : Nat → ChildEntry := fun _ => {}

namespace NodeStore

variable {d : NodeImage} {n : LoadedNode} {s' : NodeStore}

variable (s : NodeStore)

variable (h : Nat)

/-- The current state of a node: that in memory, or its row if it is not loaded. -/
def current : Option LoadedNode :=
  match s.ram h with
  | some n => some n
  | none => (s.rows.get? h).map fun d => { image := d }

def Known : Prop := (s.current h).isSome = true

instance : Decidable (s.Known h) := inferInstanceAs (Decidable (_ = true))

/-! ## 2. Steps -/

def setRam (n : Option LoadedNode) : NodeStore := { s with ram := Function.update s.ram h n }

def setEntry (p : Nat) (e : ChildEntry) : NodeStore := { s with entry := Function.update s.entry p e }

/-- `addChild`, with a pointer to the child's entry. -/
def addChild (p k : Nat) : NodeStore :=
  s.setEntry p { s.entry p with
    mChildren := some (((s.entry p).mChildren.getD OrdMap.empty).insert k true) }

def removeChild (p k : Nat) : NodeStore :=
  s.setEntry p { s.entry p with mChildren := (s.entry p).mChildren.map (·.erase k) }

/-- `notifyNode`: a node that is already reported, or being reported, is not queued again. -/
def notifyNode : NodeStore :=
  if h ∈ s.mNodeNotify ++ s.nodesToReport then s
  else { s with mNodeNotify := s.mNodeNotify ++ [h] }

def attachTo (p : Option Nat) (k : Nat) : NodeStore :=
  match p with
  | some p => if s.Known p then s.addChild p k else s
  | none => s

def detachFrom (p : Option Nat) (k : Nat) : NodeStore :=
  match p with
  | some p => s.removeChild p k
  | none => s

/-- `getNodeFromDataBase`, `unserializeNode`: the node is loaded from its row. -/
def load : NodeStore :=
  match s.ram h, s.rows.get? h with
  | none, some d => (s.setRam h (some { image := d })).attachTo d.parenthandle h
  | _, _ => s

/-- The last reference to a node that is not to be written is dropped. Its entry stays. -/
def unload : NodeStore :=
  if h ∈ s.mNodeNotify ++ s.nodesToReport then s else s.setRam h none

/-- `getChildren_internal`: the children that are not loaded come from the table. -/
def loadChildren (p : Nat) : NodeStore :=
  let children := (s.rows.entries.filter fun e => e.2.parenthandle == some p).map (·.1)
  let s := children.foldl load s
  s.setEntry p { s.entry p with mAllChildrenHandleLoaded := true }

/-- `saveNodeInRAM` for a new node, for which the nodes `waiting` have waited as their parent. -/
def addNode (d : NodeImage) (waiting : List Nat) : NodeStore :=
  let s := s.setRam h (some { image := d })
  let s := s.setEntry h { s.entry h with mAllChildrenHandleLoaded := true }
  let s := s.attachTo d.parenthandle h
  let s := waiting.foldl (fun s k => s.addChild h k) s
  s.notifyNode h

def setattr (attrstring : Bool) (n : Option String) : NodeStore :=
  match s.ram h with
  | some m =>
    (s.setRam h (some { m with image := { m.image with attrstring, n } })).notifyNode h
  | none => s

/-- `Node::setparent` to a known parent, or to null with the handle of one that is not known yet. -/
def setparent (h p : Nat) : NodeStore :=
  match s.ram h with
  | some m =>
    let s := s.detachFrom m.image.parenthandle h
    let s := s.setRam h (some { m with image := { m.image with parenthandle := some p } })
    (s.attachTo (some p) h).notifyNode h
  | none => s

/-- A node is marked removed (`TreeProcDel`), or comes back. -/
def setRemoved (removed : Bool) : NodeStore :=
  match s.ram h with
  | some m => (s.setRam h (some { m with removed })).notifyNode h
  | none => s

/-- `Node::applykey` when the key is there: the attributes are decrypted in place, and nothing is
    notified. -/
def applykey (n : Option String) : NodeStore :=
  match s.ram h with
  | some m =>
    if m.image.attrstring then
      s.setRam h (some { m with image := { m.image with attrstring := false, n } })
    else s
  | none => s

/-- `applyKeys_internal`: `keys` are the nodes that can be decrypted, with their names. -/
def applykeys (keys : List (Nat × Option String)) : NodeStore :=
  keys.foldl (fun s k => s.applykey k.1 k.2) s

/-- `notifyPurge` applies keys, takes the queue and reports it without the lock. -/
def purgeStart (keys : List (Nat × Option String)) : NodeStore :=
  let s := s.applykeys keys
  if s.nodesToReport = [] then { s with nodesToReport := s.mNodeNotify, mNodeNotify := [] } else s

/-- One round of the loop of `notifyPurge`: the node is removed or written. -/
def purgeRound : NodeStore :=
  match s.nodesToReport with
  | [] => s
  | k :: rest =>
    let s := { s with nodesToReport := rest }
    match s.ram k with
    | none => s
    | some n =>
      if n.removed then
        let s := s.detachFrom n.image.parenthandle k
        let s := (s.setEntry k {}).setRam k none
        { s with rows := s.rows.erase k }
      else { s with rows := s.rows.insert k n.image }

inductive Op
  | load (h : Nat)
  | unload (h : Nat)
  | loadChildren (p : Nat)
  | addNode (h : Nat) (d : NodeImage) (waiting : List Nat)
  | setattr (h : Nat) (attrstring : Bool) (n : Option String)
  | setparent (h p : Nat)
  | setRemoved (h : Nat) (removed : Bool)
  | applykeys (keys : List (Nat × Option String))
  | purgeStart (keys : List (Nat × Option String))
  | purgeRound

def exec : NodeStore → Op → NodeStore
  | s, .load h => s.load h
  | s, .unload h => s.unload h
  | s, .loadChildren p => s.loadChildren p
  | s, .addNode h d waiting => s.addNode h d waiting
  | s, .setattr h attrstring n => s.setattr h attrstring n
  | s, .setparent h p => s.setparent h p
  | s, .setRemoved h removed => s.setRemoved h removed
  | s, .applykeys applied => s.applykeys applied
  | s, .purgeStart applied => s.purgeStart applied
  | s, .purgeRound => s.purgeRound

/-! ## 3. Coherence -/

def Below (p k : Nat) : Prop := ∃ n, s.current k = some n ∧ n.image.parenthandle = some p

def Lists (p k : Nat) (b : Bool) : Prop :=
  ∃ m, (s.entry p).mChildren = some m ∧ m.get? k = some b

/-- How the nodes in memory lie over the rows, where those of `q` are still to be written. -/
structure Lies (s : NodeStore) (q : List Nat) : Prop where
  /-- a loaded node is listed at its parent, with a pointer -/
  listed : ∀ k n p, s.ram k = some n → n.image.parenthandle = some p → s.Known p → s.Lists p k true
  /-- what is listed is a child -/
  child : ∀ p k b, s.Lists p k b → s.Below p k
  /-- a complete list has the children that are not loaded -/
  complete : ∀ p k d, (s.entry p).mAllChildrenHandleLoaded = true → s.ram k = none →
    s.rows.get? k = some d → d.parenthandle = some p → s.Known p → ∃ b, s.Lists p k b
  /-- a loaded node is what its row reads, or still to be written -/
  pending : ∀ k n, s.ram k = some n → k ∈ q ∨
    n.removed = false ∧ ∃ d, s.rows.get? k = some d ∧ d.Reads n.image
  /-- what is to be written is in memory -/
  loaded : ∀ k ∈ q, ∃ n, s.ram k = some n

def toWrite : List Nat := s.mNodeNotify ++ s.nodesToReport

/-- The nodes in memory lie over the rows, and each that is to be written is queued once. -/
structure Coherent : Prop where
  lies : s.Lies s.toWrite
  once : s.toWrite.Nodup

/-- What `Lies` says of the node `k`. -/
structure Sits (s : NodeStore) (q : List Nat) (k : Nat) : Prop where
  listed : ∀ n p, s.ram k = some n → n.image.parenthandle = some p → s.Known p → s.Lists p k true
  child : ∀ p b, s.Lists p k b → s.Below p k
  complete : ∀ p d, (s.entry p).mAllChildrenHandleLoaded = true → s.ram k = none →
    s.rows.get? k = some d → d.parenthandle = some p → s.Known p → ∃ b, s.Lists p k b
  pending : ∀ n, s.ram k = some n → k ∈ q ∨
    n.removed = false ∧ ∃ d, s.rows.get? k = some d ∧ d.Reads n.image
  loaded : k ∈ q → ∃ n, s.ram k = some n

section Frames

variable {s} {h k p j : Nat} {b : Bool} {q q' : List Nat} (o : Option Nat)

theorem current_of_ram (hn : s.ram h = some n) : s.current h = some n := by
  unfold current
  rw [hn]

theorem current_of_row (hn : s.ram h = none) (hd : s.rows.get? h = some d) :
    s.current h = some { image := d } := by
  unfold current
  rw [hn, hd]
  rfl

theorem lists_addChild : (s.addChild p k).Lists j h b ↔
    if j = p ∧ h = k then b = true else s.Lists j h b := by
  unfold Lists addChild setEntry
  by_cases hj : j = p
  · subst hj
    simp only [update_self, some.injEq, exists_eq_left', get?_insert]
    by_cases hk : h = k
    · subst hk
      simp [eq_comm]
    have hk' : ¬ k = h := fun he => hk he.symm
    simp only [if_neg hk', hk]
    cases (s.entry j).mChildren with
    | _ => simp
  · simp [hj]

theorem lists_removeChild : (s.removeChild p k).Lists j h b ↔
    s.Lists j h b ∧ ¬ (j = p ∧ h = k) := by
  unfold Lists removeChild setEntry
  by_cases hj : j = p
  · subst hj
    simp only [update_self]
    cases (s.entry j).mChildren with
    | none => simp
    | some m =>
      simp only [map_some, some.injEq, exists_eq_left', get?_erase]
      by_cases hk : h = k
      · simp [hk]
      · simp [hk, Ne.symm hk]
  · simp [hj]

theorem entry_setEntry (e : ChildEntry) :
    (s.setEntry p e).entry j = if j = p then e else s.entry j := Function.update_apply ..

theorem all_setEntry {e : ChildEntry}
    (he : e.mAllChildrenHandleLoaded = (s.entry p).mAllChildrenHandleLoaded) :
    ((s.setEntry p e).entry j).mAllChildrenHandleLoaded =
      (s.entry j).mAllChildrenHandleLoaded := by
  rw [entry_setEntry]
  split
  · rename_i hj
    rw [he, hj]
  · rfl

theorem lists_setAll : (s.setEntry p { s.entry p with mAllChildrenHandleLoaded := true }).Lists j k b ↔
    s.Lists j k b := by
  unfold Lists
  rw [entry_setEntry]
  split
  · rename_i hj
    rw [hj]
  · rfl

/-- Two states with the same nodes and rows, entries apart. -/
structure SameNodes (s s' : NodeStore) : Prop where
  ram : s'.ram = s.ram
  rows : s'.rows = s.rows
  toWrite : s'.toWrite = s.toWrite
  all : ∀ j, (s'.entry j).mAllChildrenHandleLoaded = (s.entry j).mAllChildrenHandleLoaded

theorem SameNodes.current (hs : SameNodes s s') : s'.current = s.current := by
  funext k
  unfold NodeStore.current
  rw [hs.ram, hs.rows]

theorem SameNodes.known (hs : SameNodes s s') : s'.Known k ↔ s.Known k := by
  unfold NodeStore.Known
  rw [hs.current]

theorem sameNodes_addChild : SameNodes s (s.addChild p k) :=
  ⟨rfl, rfl, rfl, fun _ => all_setEntry rfl⟩

theorem sameNodes_removeChild : SameNodes s (s.removeChild p k) :=
  ⟨rfl, rfl, rfl, fun _ => all_setEntry rfl⟩

theorem sameNodes_attachTo : SameNodes s (s.attachTo o k) := by
  unfold attachTo
  cases o with
  | none => exact ⟨rfl, rfl, rfl, fun _ => rfl⟩
  | some p =>
    dsimp only
    split
    · exact sameNodes_addChild
    · exact ⟨rfl, rfl, rfl, fun _ => rfl⟩

theorem sameNodes_detachFrom : SameNodes s (s.detachFrom o k) := by
  cases o with
  | none => exact ⟨rfl, rfl, rfl, fun _ => rfl⟩
  | some p => exact sameNodes_removeChild

theorem lists_attachTo : (s.attachTo o k).Lists j h b ↔
    if o = some j ∧ s.Known j ∧ h = k then b = true else s.Lists j h b := by
  unfold attachTo
  cases o with
  | none => simp
  | some p =>
    dsimp only
    by_cases hp : s.Known p
    · rw [if_pos hp, lists_addChild]
      by_cases hj : j = p
      · subst hj
        simp [hp]
      · simp [hj, Ne.symm hj]
    rw [if_neg hp]
    by_cases hj : j = p
    · subst hj
      simp [hp]
    · simp [Ne.symm hj]

theorem lists_detachFrom (o) : (s.detachFrom o k).Lists j h b ↔
    s.Lists j h b ∧ ¬ (o = some j ∧ h = k) := by
  cases o with
  | none =>
    show s.Lists j h b ↔ _
    simp
  | some p =>
    show (s.removeChild p k).Lists j h b ↔ _
    rw [lists_removeChild, some.injEq, eq_comm]

theorem mem_toWrite_notifyNode : j ∈ (s.notifyNode h).toWrite ↔ j ∈ s.toWrite ∨ j = h := by
  unfold notifyNode toWrite
  split
  · rename_i hmem
    exact ⟨.inl, fun hj => hj.elim id fun he => he ▸ hmem⟩
  · simp only [mem_append, mem_singleton]
    tauto

theorem nodup_toWrite_notifyNode (hs : s.toWrite.Nodup) : (s.notifyNode h).toWrite.Nodup := by
  unfold notifyNode
  split
  · exact hs
  rename_i hmem
  have hperm : ({ s with mNodeNotify := s.mNodeNotify ++ [h] } : NodeStore).toWrite.Perm
      (h :: s.toWrite) := by
    unfold toWrite
    rw [append_assoc]
    exact perm_middle
  exact hperm.nodup_iff.2 (nodup_cons.2 ⟨hmem, hs⟩)

theorem lies_iff : s.Lies q ↔ ∀ k, s.Sits q k where
  mp h k := ⟨h.listed k, fun p => h.child p k, fun p => h.complete p k, h.pending k, h.loaded k⟩
  mpr h := ⟨fun k => (h k).listed, fun p k => (h k).child p, fun p k => (h k).complete p,
    fun k => (h k).pending, fun k => (h k).loaded⟩

/-- **A node that a step leaves alone**: it is listed nowhere else, and where its parent is known it is
    listed as before. -/
theorem Sits.frame (hs : s.Sits q k) (hram : s'.ram k = s.ram k)
    (hrow : s'.rows.get? k = s.rows.get? k) (hq : k ∈ q' ↔ k ∈ q)
    (hlist : ∀ p b, s'.Lists p k b → s.Lists p k b)
    (hpar : ∀ p, s.Below p k → s'.Known p → s.Known p ∧
      ((s'.entry p).mAllChildrenHandleLoaded = true →
        (s.entry p).mAllChildrenHandleLoaded = true) ∧
      ∀ b, s.Lists p k b → s'.Lists p k b) : s'.Sits q' k where
  listed := by
    intro n p hn hp hk
    rw [hram] at hn
    obtain ⟨hk, -, hl⟩ := hpar p ⟨n, current_of_ram hn, hp⟩ hk
    exact hl true (hs.listed n p hn hp hk)
  child := by
    intro p b hb
    obtain ⟨n, hn, hp⟩ := hs.child p b (hlist p b hb)
    refine ⟨n, ?_, hp⟩
    unfold current
    rwa [hram, hrow]
  complete := by
    intro p d ha hn hd hp hk
    rw [hram] at hn
    rw [hrow] at hd
    obtain ⟨hk, hall, hl⟩ := hpar p ⟨_, current_of_row hn hd, hp⟩ hk
    obtain ⟨b, hb⟩ := hs.complete p d (hall ha) hn hd hp hk
    exact ⟨b, hl b hb⟩
  pending := by
    rw [hram, hrow, hq]
    exact hs.pending
  loaded := by
    rw [hram, hq]
    exact hs.loaded

theorem Lies.notified (hl : s'.Lies (h :: s.toWrite)) (hq : s'.toWrite = s.toWrite)
    (ho : s.toWrite.Nodup) : (s'.notifyNode h).Coherent := by
  have hmem : ∀ k, k ∈ (s'.notifyNode h).toWrite ↔ k ∈ h :: s.toWrite := fun k => by
    rw [mem_toWrite_notifyNode, hq, mem_cons, or_comm]
  have hlies : (s'.notifyNode h).Lies (h :: s.toWrite) := by
    unfold notifyNode
    split
    · exact hl
    · exact { hl with }
  exact ⟨{ hlies with
    pending := fun k => by rw [hmem]; exact hlies.pending k
    loaded := fun k hk => hlies.loaded k ((hmem k).1 hk) }, nodup_toWrite_notifyNode (hq ▸ ho)⟩

theorem ram_setRam (n : Option LoadedNode) :
    (s.setRam h n).ram k = if k = h then n else s.ram k := Function.update_apply ..

theorem current_setRam (n : Option LoadedNode) : (s.setRam h n).current k =
    if k = h then (match n with
      | some m => some m
      | none => (s.rows.get? h).map fun d => { image := d }) else s.current k := by
  unfold current
  rw [ram_setRam]
  by_cases hk : k = h
  · subst hk
    simp only [if_true]
    rfl
  · simp only [if_neg hk]
    rfl


theorem Known.of_setRam {n : Option LoadedNode} (hh : s.Known h) (hk : (s.setRam h n).Known p) :
    s.Known p := by
  unfold Known at hk ⊢
  rw [current_setRam] at hk
  split at hk
  · rename_i he
    exact he ▸ hh
  · exact hk

theorem known_of_ram (hn : s.ram h = some n) : s.Known h := by
  unfold Known
  rw [current_of_ram hn]
  rfl

theorem known_of_row (hn : s.ram h = none) (hd : s.rows.get? h = some d) : s.Known h := by
  unfold Known
  rw [current_of_row hn hd]
  rfl

theorem lists_attachTo_of_ne (hk : h ≠ k) : (s.attachTo o k).Lists j h b ↔ s.Lists j h b := by
  rw [lists_attachTo, if_neg fun hc => hk hc.2.2]

/-- A node comes into memory, or changes there, and is listed at its parent. -/
theorem sits_attachTo {n : LoadedNode}
    (hlist : ∀ p b, s.Lists p h b → n.image.parenthandle = some p)
    (hq : h ∈ q ∨ n.removed = false ∧ s.rows.get? h = some n.image) :
    ((s.setRam h (some n)).attachTo n.image.parenthandle h).Sits q h := by
  have hsame := sameNodes_attachTo (s := s.setRam h (some n)) (k := h) n.image.parenthandle
  have hram : ((s.setRam h (some n)).attachTo n.image.parenthandle h).ram h = some n := by
    rw [hsame.ram, ram_setRam, if_pos rfl]
  refine ⟨fun m p hm hp hk => ?_, fun p b hb => ⟨n, current_of_ram hram, ?_⟩,
    fun p d _ hr => ?_, fun m hm => ?_, fun _ => ⟨n, hram⟩⟩
  · cases hram.symm.trans hm
    rw [lists_attachTo, if_pos ⟨hp, hsame.known.1 hk, rfl⟩]
  · rw [lists_attachTo] at hb
    split_ifs at hb with hc
    · exact hc.1
    · exact hlist p b hb
  · cases hram.symm.trans hr
  · cases hram.symm.trans hm
    rw [hsame.rows]
    exact hq.imp_right (.imp_right fun hd => ⟨_, hd, .inl rfl⟩)

theorem Sits.attachTo {n : Option LoadedNode} (hs : s.Sits q k) (hk : k ≠ h) (hh : s.Known h)
    (hq : k ∈ q' ↔ k ∈ q) (o) : ((s.setRam h n).attachTo o h).Sits q' k := by
  have hsame := sameNodes_attachTo (s := s.setRam h n) (k := h) o
  refine hs.frame (by rw [hsame.ram, ram_setRam, if_neg hk]) (by rw [hsame.rows]; rfl) hq
    (fun p b => (lists_attachTo_of_ne o hk).1) fun p _ hp => ⟨?_, ?_, ?_⟩
  · exact hh.of_setRam (hsame.known.1 hp)
  · rw [hsame.all]
    exact id
  · exact fun b hb => (lists_attachTo_of_ne (s := s.setRam h n) o hk).2 hb

end Frames

/-! ## 4. The steps keep the coherence -/

section Steps

variable {s} {h k p j : Nat} {b : Bool} {q q' : List Nat}

theorem Lies.touch (hl : s.Lies q) {n' : LoadedNode} (hn : s.ram h = some n)
    (hp : n'.image.parenthandle = n.image.parenthandle) (hq : ∀ k, k ≠ h → (k ∈ q' ↔ k ∈ q))
    (hpend : h ∈ q' ∨ n'.removed = false ∧ ∃ d, s.rows.get? h = some d ∧ d.Reads n'.image) :
    (s.setRam h (some n')).Lies q' := by
  have hknown : ∀ p, (s.setRam h (some n')).Known p → s.Known p := fun p =>
    (known_of_ram hn).of_setRam
  refine lies_iff.2 fun k => ?_
  by_cases hk : k = h
  · subst hk
    have hram : (s.setRam k (some n')).ram k = some n' := by rw [ram_setRam, if_pos rfl]
    refine ⟨fun m p hm hpar hk => ?_, fun p b hb => ?_, fun p d _ hr => ?_, fun m hm => ?_,
      fun _ => ⟨n', hram⟩⟩
    · cases hram.symm.trans hm
      exact hl.listed k n p hn (hp.symm.trans hpar) (hknown p hk)
    · obtain ⟨m, hm, hpar⟩ := hl.child p k b hb
      cases (current_of_ram hn).symm.trans hm
      exact ⟨n', current_of_ram hram, hp.trans hpar⟩
    · cases hram.symm.trans hr
    · cases hram.symm.trans hm
      exact hpend
  · exact (lies_iff.1 hl k).frame (by rw [ram_setRam, if_neg hk]) rfl (hq k hk) (fun _ _ => id)
      fun p _ hp => ⟨hknown p hp, id, fun _ => id⟩

/-- A loaded node changes in place and is to be written. -/
theorem Coherent.notified (hs : s.Coherent) {n' : LoadedNode} (hn : s.ram h = some n)
    (hp : n'.image.parenthandle = n.image.parenthandle) :
    ((s.setRam h (some n')).notifyNode h).Coherent :=
  Lies.notified (s := s) (hs.lies.touch hn hp (fun k hk => by simp [hk]) (.inl mem_cons_self)) rfl
    hs.once

theorem Coherent.setattr (hs : s.Coherent) (attrstring : Bool) (n : Option String) :
    (s.setattr h attrstring n).Coherent := by
  unfold NodeStore.setattr
  cases hn : s.ram h with
  | none => exact hs
  | some m => exact hs.notified hn rfl

theorem Coherent.setRemoved (hs : s.Coherent) (removed : Bool) :
    (s.setRemoved h removed).Coherent := by
  unfold NodeStore.setRemoved
  cases hn : s.ram h with
  | none => exact hs
  | some m => exact hs.notified hn rfl

/-- What is decrypted is what its row reads, if it was what its row holds. -/
theorem Coherent.applykey (hs : s.Coherent) (n : Option String) : (s.applykey h n).Coherent := by
  unfold NodeStore.applykey
  cases hn : s.ram h with
  | none => exact hs
  | some m =>
    dsimp only
    split
    · rename_i hkey
      refine ⟨hs.lies.touch hn rfl (fun _ _ => .rfl) ?_, hs.once⟩
      refine (hs.lies.pending h m hn).imp_right (.imp_right fun ⟨d, hd, hr⟩ => ⟨d, hd, .inr ?_⟩)
      rcases hr with he | ⟨-, he⟩
      · rw [← he]
        exact ⟨hkey, rfl⟩
      · rw [he] at hkey
        cases hkey
    · exact hs

theorem Coherent.applykeys (hs : s.Coherent) (keys) : (s.applykeys keys).Coherent :=
  keys.foldlRecOn (motive := Coherent) _ hs fun _ h k _ => h.applykey k.2

theorem Lies.load (hl : s.Lies q) : (s.load h).Lies q := by
  unfold NodeStore.load
  cases hn : s.ram h with
  | some n => exact hl
  | none =>
    cases hd : s.rows.get? h with
    | none => exact hl
    | some d =>
      refine lies_iff.2 fun k => ?_
      by_cases hk : k = h
      · subst hk
        refine sits_attachTo (n := { image := d }) (fun p b hb => ?_) (.inr ⟨rfl, hd⟩)
        obtain ⟨m, hm, hpar⟩ := hl.child p k b hb
        cases (current_of_row hn hd).symm.trans hm
        exact hpar
      · exact (lies_iff.1 hl k).attachTo hk (known_of_row hn hd) .rfl _

theorem toWrite_load : (s.load h).toWrite = s.toWrite := by
  unfold NodeStore.load
  split
  · exact (sameNodes_attachTo _).toWrite
  · rfl

theorem Coherent.load (hs : s.Coherent) : (s.load h).Coherent :=
  ⟨by rw [toWrite_load]; exact hs.lies.load, by rw [toWrite_load]; exact hs.once⟩

theorem Coherent.unload (hs : s.Coherent) : (s.unload h).Coherent := by
  unfold NodeStore.unload
  split
  · exact hs
  rename_i hq
  have hl := hs.lies
  have hrow : ∀ n, s.ram h = some n → ∃ d, s.rows.get? h = some d ∧
      n.image.parenthandle = d.parenthandle := fun n hn => by
    obtain ⟨-, d, hd, hr⟩ := (hl.pending h n hn).resolve_left hq
    exact ⟨d, hd, hr.parenthandle⟩
  have hknown : ∀ p, (s.setRam h none).Known p → s.Known p := fun p hp => by
    cases hn : s.ram h with
    | none => rwa [setRam, ← hn, update_eq_self] at hp
    | some n => exact (known_of_ram hn).of_setRam hp
  refine ⟨lies_iff.2 fun k => ?_, hs.once⟩
  by_cases hk : k = h
  · subst hk
    have hram : (s.setRam k none).ram k = none := by rw [ram_setRam, if_pos rfl]
    refine ⟨fun n p hn => ?_, fun p b hb => ?_, fun p d ha _ hd hpar hk => ?_, fun n hn => ?_,
      fun hk => absurd hk hq⟩
    · cases hram.symm.trans hn
    · obtain ⟨n, hn, hpar⟩ := hl.child p k b hb
      cases hr : s.ram k with
      | none =>
        refine ⟨n, ?_, hpar⟩
        rwa [setRam, ← hr, update_eq_self]
      | some m =>
        cases (current_of_ram hr).symm.trans hn
        obtain ⟨d, hd, he⟩ := hrow n hr
        exact ⟨_, current_of_row hram hd, he.symm.trans hpar⟩
    · cases hn : s.ram k with
      | none => exact hl.complete p k d ha hn hd hpar (hknown p hk)
      | some n =>
        -- the node is listed from before
        obtain ⟨d', hd', he⟩ := hrow n hn
        cases hd'.symm.trans hd
        exact ⟨true, hl.listed k n p hn (he.trans hpar) (hknown p hk)⟩
    · cases hram.symm.trans hn
  · exact (lies_iff.1 hl k).frame (by rw [ram_setRam, if_neg hk]) rfl .rfl (fun _ _ => id)
      fun p _ hp => ⟨hknown p hp, id, fun _ => id⟩

/-- A node moves: it leaves the list of its old parent and comes into that of the new one. -/
theorem Coherent.setparent (hs : s.Coherent) : (s.setparent h p).Coherent := by
  unfold NodeStore.setparent
  cases hn : s.ram h with
  | none => exact hs
  | some n =>
    have hl := hs.lies
    have hdet := sameNodes_detachFrom (s := s) (k := h) n.image.parenthandle
    refine Lies.notified (lies_iff.2 fun k => ?_)
      ((sameNodes_attachTo _).toWrite.trans hdet.toWrite) hs.once
    by_cases hk : k = h
    · subst hk
      refine sits_attachTo
        (n := { n with image := { n.image with parenthandle := some p } }) (fun j b hb => ?_)
        (.inl mem_cons_self)
      -- it was listed at its old parent only
      obtain ⟨hb, hno⟩ := (lists_detachFrom _).1 hb
      obtain ⟨m, hm, hpar⟩ := hl.child j k b hb
      cases (current_of_ram hn).symm.trans hm
      exact absurd ⟨hpar, rfl⟩ hno
    have hsits : (s.detachFrom n.image.parenthandle h).Sits s.toWrite k := by
      refine (lies_iff.1 hl k).frame (congrFun hdet.ram k) (by rw [hdet.rows]) .rfl
        (fun j b hb => ((lists_detachFrom _).1 hb).1) fun j _ hj => ⟨hdet.known.1 hj, ?_, ?_⟩
      · rw [hdet.all]
        exact id
      · exact fun b hb => (lists_detachFrom _).2 ⟨hb, fun hc => hk hc.2⟩
    exact hsits.attachTo hk (hdet.known.2 (known_of_ram hn)) (by simp [hk]) _

/-! ## 5. Loading children, arrivals -/

theorem ram_load_of_some (hn : s.ram k = some n) : (s.load h).ram k = some n := by
  unfold NodeStore.load
  cases hr : s.ram h with
  | some m => exact hn
  | none =>
    cases s.rows.get? h with
    | none => exact hn
    | some d =>
      rw [(sameNodes_attachTo _).ram, ram_setRam, if_neg, hn]
      rintro rfl
      cases hr.symm.trans hn

theorem rows_load : (s.load h).rows = s.rows := by
  unfold NodeStore.load
  split
  · exact (sameNodes_attachTo _).rows
  · rfl

theorem ram_load_self (hd : s.rows.get? h = some d) : ∃ n, (s.load h).ram h = some n := by
  cases hr : s.ram h with
  | some n => exact ⟨n, ram_load_of_some hr⟩
  | none =>
    unfold NodeStore.load
    rw [hr, hd, (sameNodes_attachTo _).ram, ram_setRam, if_pos rfl]
    exact ⟨_, rfl⟩

theorem foldl_load (l : List Nat) (hs : s.Coherent) :
    (l.foldl load s).Coherent ∧ (l.foldl load s).rows = s.rows ∧
      (∀ k n, s.ram k = some n → (l.foldl load s).ram k = some n) ∧
        ∀ k ∈ l, ∀ d, s.rows.get? k = some d → ∃ n, (l.foldl load s).ram k = some n := by
  induction l generalizing s with
  | nil => exact ⟨hs, rfl, fun _ _ hn => hn, nofun⟩
  | cons j l ih =>
    obtain ⟨hco, hrows, hkeep, hall⟩ := ih (hs.load)
    rw [rows_load] at hrows
    refine ⟨hco, hrows, fun k n hn => hkeep k n (ram_load_of_some hn), fun k hk d hd => ?_⟩
    rcases mem_cons.1 hk with rfl | hk
    · obtain ⟨n, hn⟩ := ram_load_self hd
      exact ⟨n, hkeep k n hn⟩
    · exact hall k hk d (by rw [rows_load]; exact hd)

theorem Coherent.loadChildren (hs : s.Coherent) : (s.loadChildren p).Coherent := by
  unfold NodeStore.loadChildren
  dsimp only
  obtain ⟨hco, hrows, -, hall⟩ := foldl_load
    ((s.rows.entries.filter fun e => e.2.parenthandle == some p).map (·.1)) hs
  generalize (((s.rows.entries.filter fun e => e.2.parenthandle == some p).map (·.1)).foldl
    NodeStore.load s) = s₁ at hco hrows hall ⊢
  have hl := hco.lies
  refine ⟨⟨?_, ?_, ?_, hl.pending, hl.loaded⟩, hco.once⟩
  · exact fun k n j hn hpar hk => lists_setAll.2 (hl.listed k n j hn hpar hk)
  · exact fun j k b hb => hl.child j k b (lists_setAll.1 hb)
  intro j k d ha hr hd hpar hk
  by_cases hj : j = p
  · -- every child of `p` was loaded
    subst hj
    have hd' : s.rows.get? k = some d := hrows ▸ hd
    have hmem : k ∈ (s.rows.entries.filter fun e => e.2.parenthandle == some j).map (·.1) := by
      refine mem_map.2 ⟨(k, d), mem_filter.2 ⟨get?_eq_some.1 hd', ?_⟩, rfl⟩
      rw [hpar]
      exact beq_self_eq_true _
    obtain ⟨n, hn⟩ := hall k hmem d hd'
    cases hr.symm.trans hn
  · rw [entry_setEntry, if_neg hj] at ha
    obtain ⟨b, hb⟩ := hl.complete j k d ha hr hd hpar hk
    exact ⟨b, lists_setAll.2 hb⟩

theorem foldl_addChild (l : List Nat) :
    SameNodes s (l.foldl (fun s k => s.addChild h k) s) ∧
      ∀ j k b, (l.foldl (fun s k => s.addChild h k) s).Lists j k b ↔
        if j = h ∧ k ∈ l then b = true else s.Lists j k b := by
  induction l generalizing s with
  | nil => exact ⟨⟨rfl, rfl, rfl, fun _ => rfl⟩, fun j k b => by simp⟩
  | cons i l ih =>
    obtain ⟨hsame, hlist⟩ := ih
    have hadd := sameNodes_addChild (s := s) (p := h) (k := i)
    refine ⟨⟨hsame.ram.trans hadd.ram, hsame.rows.trans hadd.rows,
      hsame.toWrite.trans hadd.toWrite, fun j => (hsame.all j).trans (hadd.all j)⟩,
      fun j k b => ?_⟩
    rw [foldl_cons, hlist, lists_addChild]
    by_cases hj : j = h
    · by_cases hk : k ∈ l
      · simp [hj, hk]
      · by_cases hi : k = i
        · simp [hj, hi]
        · simp [hi]
    · simp [hj]

/-- A new node arrives: it is not known yet, and exactly the nodes that name it as their parent wait
    for it. -/
structure Arrives (s : NodeStore) (h : Nat) (d : NodeImage) (waiting : List Nat) : Prop where
  fresh : ¬ s.Known h
  waits : ∀ k, s.Below h k → k ∈ waiting
  below : ∀ k ∈ waiting, ∃ n, s.ram k = some n ∧ n.image.parenthandle = some h
  parent : d.parenthandle ≠ some h

theorem Coherent.addNode {waiting : List Nat} (hs : s.Coherent) (ha : s.Arrives h d waiting) :
    (s.addNode h d waiting).Coherent := by
  have hl := hs.lies
  have hnone : s.ram h = none := by
    cases hn : s.ram h with
    | none => rfl
    | some n => exact absurd (known_of_ram hn) ha.fresh
  unfold NodeStore.addNode
  dsimp only
  -- the entry is set before the node as well as after it
  generalize hs₀ : s.setEntry h { s.entry h with mAllChildrenHandleLoaded := true } = s₀
  have hs₁ : (s.setRam h (some { image := d })).setEntry h
      { (s.setRam h (some { image := d })).entry h with mAllChildrenHandleLoaded := true } =
        s₀.setRam h (some { image := d }) := hs₀ ▸ rfl
  rw [hs₁]
  have hlist₀ : ∀ j k b, s₀.Lists j k b ↔ s.Lists j k b := fun j k b => by
    rw [← hs₀]
    exact lists_setAll
  have hall : ∀ j, j ≠ h →
      (s₀.entry j).mAllChildrenHandleLoaded = (s.entry j).mAllChildrenHandleLoaded := fun j hj => by
    rw [← hs₀, entry_setEntry, if_neg hj]
  have hram₀ : s₀.ram = s.ram ∧ s₀.rows = s.rows ∧ s₀.toWrite = s.toWrite := hs₀ ▸ ⟨rfl, rfl, rfl⟩
  have hfresh : ∀ j b, ¬ s.Lists j h b := fun j b hb => by
    obtain ⟨n, hn, -⟩ := hl.child j h b hb
    exact ha.fresh (isSome_iff_exists.2 ⟨n, hn⟩)
  have hatt := sameNodes_attachTo (s := s₀.setRam h (some { image := d })) (k := h) d.parenthandle
  have hsits : ((s₀.setRam h (some { image := d })).attachTo d.parenthandle h).Sits
      (h :: s.toWrite) h :=
    sits_attachTo (n := { image := d })
      (fun j b hb => absurd ((hlist₀ j h b).1 hb) (hfresh j b)) (.inl mem_cons_self)
  generalize hs₂ : (s₀.setRam h (some { image := d })).attachTo d.parenthandle h = s₂ at hatt hsits
  obtain ⟨hfold, hlist⟩ := foldl_addChild (s := s₂) (h := h) waiting
  have hram : ∀ k, k ≠ h → (waiting.foldl (fun s k => s.addChild h k) s₂).ram k = s.ram k :=
    fun k hk => by rw [hfold.ram, hatt.ram, ram_setRam, if_neg hk, hram₀.1]
  have hrow : (waiting.foldl (fun s k => s.addChild h k) s₂).rows = s.rows := by
    rw [hfold.rows, hatt.rows]
    exact hram₀.2.1
  have hlist₂ : ∀ j k b, k ≠ h → (s₂.Lists j k b ↔ s.Lists j k b) := fun j k b hk => by
    rw [← hs₂, lists_attachTo_of_ne _ hk]
    exact hlist₀ j k b
  have hknown : ∀ j, j ≠ h → (waiting.foldl (fun s k => s.addChild h k) s₂).Known j → s.Known j := by
    intro j hj hk
    unfold Known current at hk ⊢
    rwa [hram j hj, hrow] at hk
  refine Lies.notified (lies_iff.2 fun k => ?_)
    (hfold.toWrite.trans (hatt.toWrite.trans hram₀.2.2)) hs.once
  by_cases hk : k = h
  · -- the new node is not among those that wait for it
    subst hk
    have hwait : k ∉ waiting := fun hk => by
      obtain ⟨n, hn, -⟩ := ha.below k hk
      cases hnone.symm.trans hn
    refine hsits.frame (congrFun hfold.ram k) (by rw [hfold.rows]) .rfl (fun p b hb => ?_)
      fun p _ hp => ⟨hfold.known.1 hp, ?_, fun b hb => ?_⟩
    · rwa [hlist, if_neg fun hc => hwait hc.2] at hb
    · rw [hfold.all]
      exact id
    · rwa [hlist, if_neg fun hc => hwait hc.2]
  by_cases hw : k ∈ waiting
  · obtain ⟨n, hn, hpar⟩ := ha.below k hw
    have hn' := (hram k hk).trans hn
    refine ⟨fun m p hm hp _ => ?_, fun p b hb => ?_, fun p d _ hr => ?_, fun m hm => ?_,
      fun _ => ⟨n, hn'⟩⟩
    · cases hn'.symm.trans hm
      cases hpar.symm.trans hp
      rw [hlist, if_pos ⟨rfl, hw⟩]
    · refine ⟨n, current_of_ram hn', ?_⟩
      rw [hlist] at hb
      split_ifs at hb with hc
      · rw [hc.1, hpar]
      · obtain ⟨m, hm, hp⟩ := hl.child p k b ((hlist₂ p k b hk).1 hb)
        cases (current_of_ram hn).symm.trans hm
        exact hp
    · cases hn'.symm.trans hr
    · cases hn'.symm.trans hm
      rw [hrow]
      exact (hl.pending k n hn).imp_left (mem_cons_of_mem _)
  refine (lies_iff.1 hl k).frame (hram k hk) (by rw [hrow]) (by simp [hk]) (fun p b hb => ?_)
    fun p hp hkp => ?_
  · rw [hlist, if_neg fun hc => hw hc.2] at hb
    exact (hlist₂ p k b hk).1 hb
  have hph : p ≠ h := fun he => hw (ha.waits k (he ▸ hp))
  refine ⟨hknown p hph hkp, ?_, fun b hb => ?_⟩
  · rw [hfold.all, hatt.all]
    exact fun hal => (hall p hph).symm.trans hal
  · rw [hlist, if_neg fun hc => hw hc.2]
    exact (hlist₂ p k b hk).2 hb

/-! ## 6. A purge -/

theorem Coherent.purgeStart (hs : s.Coherent) (keys) : (s.purgeStart keys).Coherent := by
  unfold NodeStore.purgeStart
  replace hs := hs.applykeys keys
  generalize s.applykeys keys = s at hs
  dsimp only
  split
  · rename_i hempty
    have hqueue : ({ s with nodesToReport := s.mNodeNotify, mNodeNotify := [] } : NodeStore).toWrite =
        s.toWrite := by
      unfold toWrite
      rw [hempty, append_nil]
      rfl
    have hl := hs.lies
    refine ⟨?_, hqueue ▸ hs.once⟩
    rw [hqueue]
    exact { hl with }
  · exact hs

theorem Lies.write (hl : s.Lies q) (hn : s.ram k = some n) (hr : n.removed = false)
    (hq : ∀ j, j ∈ q' → j ∈ q) (hq' : ∀ j ∈ q, j ≠ k → j ∈ q') :
    ({ s with rows := s.rows.insert k n.image } : NodeStore).Lies q' := by
  have hrow : ∀ j, j ≠ k → (s.rows.insert k n.image).get? j = s.rows.get? j := fun j hj => by
    rw [get?_insert, if_neg fun he => hj he.symm]
  have hcur : ∀ j, ({ s with rows := s.rows.insert k n.image } : NodeStore).current j =
      s.current j := fun j => by
    unfold current
    by_cases hj : j = k
    · rw [hj, hn]
    · rw [hrow j hj]
  have hknown : ∀ j, ({ s with rows := s.rows.insert k n.image } : NodeStore).Known j → s.Known j :=
    fun j hj => by
      unfold Known at hj ⊢
      rwa [hcur] at hj
  refine lies_iff.2 fun j => ?_
  by_cases hj : j = k
  · subst hj
    refine ⟨fun m p hm hp hk => hl.listed j m p hm hp (hknown p hk), fun p b hb => ?_,
      fun p d _ hm => ?_, fun m hm => ?_, fun _ => ⟨n, hn⟩⟩
    · obtain ⟨m, hm, hp⟩ := hl.child p j b hb
      exact ⟨m, (hcur j).trans hm, hp⟩
    · cases hn.symm.trans hm
    · cases hn.symm.trans hm
      exact .inr ⟨hr, _, get?_insert_self .., .inl rfl⟩
  · exact (lies_iff.1 hl j).frame rfl (hrow j hj) ⟨hq j, fun hm => hq' j hm hj⟩ (fun _ _ => id)
      fun p _ hp => ⟨hknown p hp, id, fun _ => id⟩

def dropped (s : NodeStore) (k : Nat) (n : LoadedNode) : NodeStore :=
  { ((s.detachFrom n.image.parenthandle k).setEntry k {}).setRam k none with
    rows := s.rows.erase k }

theorem Lies.drop (hl : s.Lies q) (hn : s.ram k = some n)
    (hq : ∀ j ∈ q', j ∈ q ∧ j ≠ k) (hq' : ∀ j ∈ q, j ≠ k → j ∈ q') : (s.dropped k n).Lies q' := by
  have hdet := sameNodes_detachFrom (s := s) (k := k) n.image.parenthandle
  have hram : ∀ j, (s.dropped k n).ram j = if j = k then none else s.ram j := fun j => by
    unfold dropped
    rw [ram_setRam]
    split
    · rfl
    · exact congrFun hdet.ram j
  have hrow : ∀ j, (s.dropped k n).rows.get? j = if k = j then none else s.rows.get? j := fun j =>
    get?_erase ..
  have hlist : ∀ p j b, (s.dropped k n).Lists p j b ↔
      p ≠ k ∧ s.Lists p j b ∧ ¬ (n.image.parenthandle = some p ∧ j = k) := fun p j b => by
    rw [← lists_detachFrom]
    unfold dropped Lists setRam
    rw [entry_setEntry]
    by_cases hp : p = k <;> simp [hp]
  have hall : ∀ p, ((s.dropped k n).entry p).mAllChildrenHandleLoaded = true →
      p ≠ k ∧ (s.entry p).mAllChildrenHandleLoaded = true := fun p hp => by
    unfold dropped setRam at hp
    rw [entry_setEntry] at hp
    split at hp
    · cases hp
    · rename_i hpk
      exact ⟨hpk, hdet.all p ▸ hp⟩
  have hcur : ∀ j, (s.dropped k n).current j = if j = k then none else s.current j := fun j => by
    unfold current
    rw [hram, hrow]
    by_cases hj : j = k
    · simp [hj]
    · simp [hj, Ne.symm hj]
  have hknown : ∀ p, (s.dropped k n).Known p → p ≠ k ∧ s.Known p := fun p hp => by
    unfold Known at hp
    rw [hcur] at hp
    split_ifs at hp with hpk
    · cases hp
    · exact ⟨hpk, hp⟩
  refine lies_iff.2 fun j => ?_
  by_cases hj : j = k
  · subst hj
    have hgone : (s.dropped j n).ram j = none := by rw [hram, if_pos rfl]
    refine ⟨fun m p hm => ?_, fun p b hb => ?_, fun p d _ _ hd => ?_, fun m hm => ?_,
      fun hm => absurd rfl (hq j hm).2⟩
    · cases hgone.symm.trans hm
    · obtain ⟨-, hb, hno⟩ := (hlist p j b).1 hb
      obtain ⟨m, hm, hpar⟩ := hl.child p j b hb
      cases (current_of_ram hn).symm.trans hm
      exact absurd ⟨hpar, rfl⟩ hno
    · rw [hrow, if_pos rfl] at hd
      cases hd
    · cases hgone.symm.trans hm
  refine (lies_iff.1 hl j).frame (by rw [hram, if_neg hj])
    (by rw [hrow, if_neg fun he => hj he.symm]) ⟨fun hm => (hq j hm).1, fun hm => hq' j hm hj⟩
    (fun p b hb => ((hlist p j b).1 hb).2.1) fun p _ hp => ?_
  obtain ⟨hpk, hp⟩ := hknown p hp
  exact ⟨hp, fun ha => (hall p ha).2, fun b hb => (hlist p j b).2 ⟨hpk, hb, fun hc => hj hc.2⟩⟩

theorem Coherent.purgeRound (hs : s.Coherent) : s.purgeRound.Coherent := by
  unfold NodeStore.purgeRound
  cases hlist : s.nodesToReport with
  | nil => exact hs
  | cons k rest =>
    dsimp only
    have hl := hs.lies
    have hqueue : s.toWrite = s.mNodeNotify ++ k :: rest := by
      unfold toWrite
      rw [hlist]
    have hperm : s.toWrite.Perm (k :: (s.mNodeNotify ++ rest)) := hqueue ▸ perm_middle
    obtain ⟨hk, honce⟩ := nodup_cons.1 (hperm.nodup_iff.1 hs.once)
    have hmem : ∀ j, j ∈ s.toWrite ↔ j = k ∨ j ∈ s.mNodeNotify ++ rest := fun j => by
      rw [hperm.mem_iff, mem_cons]
    obtain ⟨n, hn⟩ := hl.loaded k ((hmem k).2 (.inl rfl))
    have hdown : ∀ j ∈ s.mNodeNotify ++ rest, j ∈ s.toWrite := fun j hj => (hmem j).2 (.inr hj)
    have hup : ∀ j ∈ s.toWrite, j ≠ k → j ∈ s.mNodeNotify ++ rest := fun j hj hjk =>
      ((hmem j).1 hj).resolve_left hjk
    rw [hn]
    dsimp only
    split_ifs with hr
    · have hdrop : (s.dropped k n).Lies (s.mNodeNotify ++ rest) := hl.drop hn
        (fun j hj => ⟨hdown j hj, fun he => hk (he ▸ hj)⟩) hup
      unfold dropped at hdrop
      cases hp : n.image.parenthandle <;> rw [hp] at hdrop <;> exact ⟨{ hdrop with }, honce⟩
    · have hwrite := hl.write hn (Bool.not_eq_true _ ▸ hr) hdown hup
      exact ⟨{ hwrite with }, honce⟩

end Steps

/-! ## 7. Runs -/

/-- The condition on the steps: a new node is new. -/
def Regular : Op → NodeStore → Prop
  | .addNode h d waiting, s => s.Arrives h d waiting
  | _, _ => True

theorem Coherent.exec {s} (hs : s.Coherent) {op : Op} (hop : Regular op s) :
    (s.exec op).Coherent := by
  cases op with
  | load h => exact hs.load
  | unload h => exact hs.unload
  | loadChildren p => exact hs.loadChildren
  | addNode h d waiting => exact hs.addNode hop
  | setattr h attrstring n => exact hs.setattr attrstring n
  | setparent h p => exact hs.setparent
  | setRemoved h removed => exact hs.setRemoved removed
  | applykeys keys => exact hs.applykeys keys
  | purgeStart keys => exact hs.purgeStart keys
  | purgeRound => exact hs.purgeRound

theorem coherent_of_rows (rows : OrdMap Nat NodeImage) : ({ rows } : NodeStore).Coherent where
  lies :=
    { listed := nofun
      child := by
        rintro p k b ⟨m, hm, -⟩
        cases hm
      complete := nofun
      pending := nofun
      loaded := nofun }
  once := nodup_nil

/-- **The nodes in memory lie over the rows in every run.** -/
theorem coherent_of_run {rows : OrdMap Nat NodeImage} {s}
    (hr : Relation.ReflTransGen (StepBy exec Regular) { rows } s) : s.Coherent :=
  run_inv Coherent (fun _ _ hs ⟨_, hop, he⟩ => he ▸ hs.exec hop) (coherent_of_rows rows) hr

/-- **No change is lost**: in every run a node that is to be written is in memory, and when none is,
    the loaded nodes are what their rows read. -/
theorem written_of_run {rows : OrdMap Nat NodeImage} {s}
    (hr : Relation.ReflTransGen (StepBy exec Regular) { rows } s) :
    (∀ k ∈ s.toWrite, ∃ n, s.ram k = some n) ∧ (s.toWrite = [] → ∀ k n, s.ram k = some n →
      n.removed = false ∧ ∃ d, s.rows.get? k = some d ∧ d.Reads n.image) := by
  have hl := (coherent_of_run hr).lies
  refine ⟨hl.loaded, fun hq k n hn => (hl.pending k n hn).resolve_left ?_⟩
  rw [hq]
  exact not_mem_nil

/-- Two nodes are loaded; one is renamed and written, the other decrypted, which its row is not. -/
theorem written_of_run_renamed : ∃ s : NodeStore, s.toWrite = [] ∧
    (∃ n d, s.ram 1 = some n ∧ n.image.n = some "b" ∧ s.rows.get? 1 = some d ∧ d.Reads n.image) ∧
    ∃ n d, s.ram 2 = some n ∧ n.image.n = some "c" ∧ s.rows.get? 2 = some d ∧ d.Reads n.image ∧
      d.attrstring = true := by
  have h := written_of_run (run_of_allBy (show AllBy exec Regular
    [.load 1, .load 2, .setattr 1 false (some "b"), .purgeStart [(2, some "c")], .purgeRound]
    { rows := (OrdMap.empty.insert 1 { parenthandle := none, type := .rootnode, n := some "a" }).insert
        2 { parenthandle := some 1, type := .filenode, attrstring := true, n := none } } from
      ⟨trivial, trivial, trivial, trivial, trivial, trivial⟩))
  obtain ⟨-, d, hd, hr⟩ := h.2 rfl 1 _ rfl
  obtain ⟨-, d', hd', hr'⟩ := h.2 rfl 2 _ rfl
  refine ⟨_, rfl, ⟨_, d, rfl, rfl, hd, hr⟩, _, d', rfl, rfl, hd', hr', ?_⟩
  cases hd'
  rfl

end NodeStore

end MegaSdk.Nodes
