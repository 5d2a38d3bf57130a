/-
  File:      MegaSdk/Nodes/Manager.lean
  Subject:   THE NODE TREE AND ITS COUNTERS (nodemanager.cpp, node.cpp, the node part of
             `MegaClient::readnode`).

  Every node carries a `NodeCounter`: how many files, folders and versions its subtree holds and how
  many bytes. The counters are not computed from the tree but kept along: an arriving, moved or
  removed node adds its counter to, or subtracts it from, all its ancestors.

  * `NodeCounter` -- a commutative group, with the wraparound of `size_t`;
  * `calculateNodeCounter` -- the counter of a node computed from its subtree.

  All nodes are in memory. The order of a purge is that of the notification queue and is an argument
  here. Loops along parents and children have the number of nodes as fuel.
-/
import MegaSdk.Base.OrdMap
import MegaSdk.Base.Loop

namespace MegaSdk.Nodes

open Base

/-! ## 1. Counters -/

inductive NodeType
  | typeUnknown
  | filenode
  | foldernode
  | rootnode
  | vaultnode
  | rubbishnode
deriving DecidableEq, Repr

@[ext] structure NodeCounter where
  storage : Int := 0
  versionStorage : Int := 0
  files : BitVec 64 := 0
  folders : BitVec 64 := 0
  versions : BitVec 64 := 0
deriving DecidableEq, Repr

namespace NodeCounter

instance : Zero NodeCounter := ⟨{}⟩

instance : Add NodeCounter := ⟨fun a b =>
  { storage := a.storage + b.storage
    versionStorage := a.versionStorage + b.versionStorage
    files := a.files + b.files
    folders := a.folders + b.folders
    versions := a.versions + b.versions }⟩

instance : Sub NodeCounter := ⟨fun a b =>
  { storage := a.storage - b.storage
    versionStorage := a.versionStorage - b.versionStorage
    files := a.files - b.files
    folders := a.folders - b.folders
    versions := a.versions - b.versions }⟩

instance : Neg NodeCounter := ⟨fun a => 0 - a⟩

theorem zero_eq : (0 : NodeCounter) = {} := rfl

theorem add_eq (a b : NodeCounter) : a + b = ⟨a.storage + b.storage,
    a.versionStorage + b.versionStorage, a.files + b.files, a.folders + b.folders,
    a.versions + b.versions⟩ := rfl

theorem sub_eq (a b : NodeCounter) : a - b = ⟨a.storage - b.storage,
    a.versionStorage - b.versionStorage, a.files - b.files, a.folders - b.folders,
    a.versions - b.versions⟩ := rfl

instance : AddCommGroup NodeCounter where
  add_assoc a b c := by ext1 <;> exact add_assoc ..
  zero_add a := by ext1 <;> exact zero_add _
  add_zero a := by ext1 <;> exact add_zero _
  add_comm a b := by ext1 <;> exact add_comm ..
  neg_add_cancel a := by ext1 <;> exact sub_add_cancel ..
  sub_eq_add_neg a b := by
    ext1 <;> exact (sub_eq_add_neg ..).trans (congrArg _ (zero_sub _).symm)
  nsmul := nsmulRec
  zsmul := zsmulRec

/-- A node itself, as `calculateNodeCounter` counts it. -/
def addOwn (nc : NodeCounter) (type : NodeType) (isVersion : Bool) (size : Int) : NodeCounter :=
  match type with
  | .filenode =>
    if isVersion then
      { nc with versions := nc.versions + 1, versionStorage := nc.versionStorage + size }
    else { nc with files := nc.files + 1, storage := nc.storage + size }
  | .foldernode => { nc with folders := nc.folders + 1 }
  | _ => nc

end NodeCounter

/-! ## 2. Nodes -/

/-- `Node` with its entry `NodeManagerNode` of the map. Handles are numbers, `UNDEF` and null are
    `none`; `removed` is `changed.removed`. -/
structure Node where
  type : NodeType
  size : Int
  parenthandle : Option Nat
  parent : Option Nat := none
  mCounter : NodeCounter
  removed : Bool := false
  mChildren : OrdMap Nat Unit := OrdMap.empty

/-- A node as the server sends it. -/
structure NodeRecord where
  h : Nat
  ph : Option Nat
  t : NodeType
  s : Int := 0

/-- The constructor `Node::Node`: it counts a file as a file. -/
def Node.new (r : NodeRecord) : Node where
  type := r.t
  size := r.s
  parenthandle := r.ph
  mCounter := NodeCounter.addOwn 0 r.t false r.s

/-- `NodeManager`, with the map of the nodes that wait for their parents, which `readnodes` keeps
    while it reads. -/
structure NodeManager where
  mNodes : OrdMap Nat Node := OrdMap.empty
  rootnodesFiles : Option Nat := none
  missingParentNodes : List (Option Nat × Nat) := []

namespace NodeManager

variable (s : NodeManager)

variable (h : Nat)

def node : Option Node := s.mNodes.get? h

def modify (f : Node → Node) : NodeManager :=
  match s.node h with
  | some n => { s with mNodes := s.mNodes.insert h (f n) }
  | none => s

def typeOf (o : Option Nat) : NodeType :=
  match o.bind s.node with
  | some n => n.type
  | none => .typeUnknown

/-! ## 3. Counting -/

/-- `calculateNodeCounter` with the depth as fuel. -/
def calculateFuel : Nat → Nat → NodeType → NodeCounter
  | 0, _, _ => 0
  | fuel + 1, h, parentType =>
    match s.node h with
    | none => 0
    | some n =>
      let nc := (n.mChildren.keys.map fun k => calculateFuel fuel k n.type).sum
      nc.addOwn n.type (parentType == .filenode) n.size

/-- `calculateNodeCounter`: what it returns (and writes to the node). -/
def calculateNodeCounter (parentType : NodeType) : NodeCounter :=
  s.calculateFuel s.mNodes.size h parentType

def setNodeCounter (counter : NodeCounter) : NodeManager :=
  s.modify h fun n => { n with mCounter := counter }

inductive OperationType
  | increase
  | decrease
deriving DecidableEq, Repr

def OperationType.apply : OperationType → NodeCounter → NodeCounter → NodeCounter
  | .increase, a, nc => a + nc
  | .decrease, a, nc => a - nc

def updateTreeFuel (nc : NodeCounter) (operation : OperationType) :
    Nat → NodeManager → Option Nat → NodeManager
  | 0, s, _ => s
  | _ + 1, s, none => s
  | fuel + 1, s, some origin =>
    match s.node origin with
    | none => s
    | some n =>
      updateTreeFuel nc operation fuel
        (s.setNodeCounter origin (operation.apply n.mCounter nc)) n.parent

/-- `updateTreeCounter`: from a node up to its root. -/
def updateTreeCounter (origin : Option Nat) (nc : NodeCounter) (operation : OperationType) :
    NodeManager :=
  updateTreeFuel nc operation s.mNodes.size s origin

/-- `updateCounter_internal`: `n` came from `oldParent` to its parent. -/
def updateCounter (oldParent : Option Nat) : NodeManager :=
  match s.node h with
  | none => s
  | some n =>
    let nc := n.mCounter
    let s := s.updateTreeCounter oldParent nc .decrease
    if s.typeOf n.parent = .filenode then
      if 0 < nc.files then
        -- a new version, counted as a file before
        let nc := { nc with
          files := nc.files - 1
          storage := nc.storage - n.size
          versions := nc.versions + 1
          versionStorage := nc.versionStorage + n.size }
        (s.setNodeCounter h nc).updateTreeCounter n.parent nc .increase
      else s.updateTreeCounter n.parent nc .increase
    else if s.typeOf oldParent = .filenode ∧ n.parent ≠ none then
      -- the newest of a chain of versions is gone, and this one is the newest now
      let nc := { nc with
        files := nc.files + 1
        storage := nc.storage + n.size
        versions := nc.versions - 1
        versionStorage := nc.versionStorage - n.size }
      (s.setNodeCounter h nc).updateTreeCounter n.parent nc .increase
    else s.updateTreeCounter n.parent nc .increase

/-! ## 4. Moves -/

def addChild (parent child : Nat) : NodeManager :=
  s.modify parent fun n => { n with mChildren := n.mChildren.insert child () }

def removeChild (parent child : Nat) : NodeManager :=
  s.modify parent fun n => { n with mChildren := n.mChildren.erase child }

/-- The part of `setparent` that changes the tree. -/
def relink (old p : Option Nat) : NodeManager :=
  let s := match old with
    | some o => s.removeChild o h
    | none => s
  let s := s.modify h fun n => { n with parenthandle := p, parent := p }
  match p with
  | some q => s.addChild q h
  | none => s

def setparent (p : Option Nat) : NodeManager :=
  match s.node h with
  | none => s
  | some n => if p = n.parent then s else (s.relink h n.parent p).updateCounter h n.parent

/-! ## 5. Arrivals -/

def addMissing (ph : Option Nat) (h : Nat) : NodeManager :=
  { s with missingParentNodes := (ph, h) :: s.missingParentNodes.filter (· ≠ (ph, h)) }

def waitingFor : List Nat :=
  (s.missingParentNodes.filter (·.1 = some h)).map (·.2)

/-- The parent `h` has arrived: the nodes that wait for it move below it. -/
def attach (h : Nat) : List Nat → NodeManager → NodeManager
  | [], s => s
  | n :: l, s => attach h l (s.setparent n (some h))

/-- `isFromRootNodeType`, or the root of a folder link. -/
def isRootnode (r : NodeRecord) : Bool :=
  r.t == .rootnode || r.t == .rubbishnode || r.t == .vaultnode ||
    s.rootnodesFiles == some r.h

/-- The new node is in the map, and below its parent or waiting for it. -/
def place (r : NodeRecord) : NodeManager :=
  let inMap := { s with mNodes := s.mNodes.insert r.h (Node.new r) }
  if s.isRootnode r then
    if r.t = .rootnode then { inMap with rootnodesFiles := some r.h } else inMap
  else if (r.ph.bind inMap.node).isSome then inMap.setparent r.h r.ph
  else inMap.addMissing r.ph r.h

def saveNodeInRAM (r : NodeRecord) : NodeManager :=
  let s := s.place r
  let s := attach r.h (s.waitingFor r.h) s
  { s with missingParentNodes := s.missingParentNodes.filter (·.1 ≠ some r.h) }

/-- The tree part of `readnode` for a known node: it has a new parent, maybe one that is not known
    yet. -/
def moveNode (ph : Option Nat) : NodeManager :=
  let s := s.modify h fun n => { n with removed := false }
  match ph with
  | none => s
  | some q =>
    if (s.node q).isSome then s.setparent h (some q)
    else
      let s := s.setparent h none
      (s.modify h fun n => { n with parenthandle := some q }).addMissing (some q) h

def readnode (r : NodeRecord) : NodeManager :=
  if (s.node r.h).isSome then s.moveNode r.h r.ph else s.saveNodeInRAM r

/-! ## 6. Removal -/

/-- `proctree` with `TreeProcDel`: the subtree is marked, children first. -/
def proctreeFuel : Nat → NodeManager → Nat → NodeManager
  | 0, s, _ => s
  | fuel + 1, s, h =>
    match s.node h with
    | none => s
    | some n =>
      (n.mChildren.keys.foldl (proctreeFuel fuel) s).modify h fun n => { n with removed := true }

def proctreeDel : NodeManager := proctreeFuel s.mNodes.size s h

/-- `postReadNodes`: the nodes that still wait are orphans. They are marked, incoming shares apart,
    and the map goes out of scope. -/
def checkOrphanNodes (inshares : List Nat) : NodeManager :=
  let s' := (s.missingParentNodes.map (·.2)).foldl
    (fun s orphan => if orphan ∈ inshares then s else s.proctreeDel orphan) s
  { s' with missingParentNodes := [] }

def orphanAll (children : List Nat) : NodeManager :=
  children.foldl (fun s k => s.modify k fun n => { n with parent := none }) s

/-- One round of the loop of `notifyPurge`. -/
def purgeNode : NodeManager :=
  match s.node h with
  | none => s
  | some n =>
    if n.removed then
      let s := s.updateTreeCounter n.parent n.mCounter .decrease
      let s := match n.parent with
        | some p => s.removeChild p h
        | none => s
      let s := s.orphanAll n.mChildren.keys
      { s with mNodes := s.mNodes.erase h }
    else s

/-- `notifyPurge`, for the nodes of the notification queue in their order. Nothing is being read
    then, so no node waits for its parent. -/
def notifyPurge (order : List Nat) : NodeManager :=
  { order.foldl purgeNode s with missingParentNodes := [] }

/-! ## 7. Runs -/

inductive Op
  | readnode (r : NodeRecord)
  | postReadNodes (inshares : List Nat)
  | deltree (h : Nat)
  | notifyPurge (order : List Nat)

def exec : NodeManager → Op → NodeManager
  | s, .readnode r => s.readnode r
  | s, .postReadNodes inshares => s.checkOrphanNodes inshares
  | s, .deltree h => s.proctreeDel h
  | s, .notifyPurge order => s.notifyPurge order

end NodeManager

end MegaSdk.Nodes
