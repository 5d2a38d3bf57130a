/-
  File:      MegaSdk/FileService/AvlTree.lean
  Subject:   THE INTRUSIVE AVL TREE behind the range trees (`avl_tree.h`, `avl_tree_traits.h`).

  * `Memory` -- one map per member of a node, indexed by the node's address; a null pointer is
    `none`;
  * `Link` -- a `NodeType**`: the tree's `mRoot` or one of a node's two child pointers.

  A function answers `none` where the code would stop at an assertion or follow a null pointer,
  and where a loop has not ended within the number of nodes; that no operation does so is proved
  in AvlRuns.lean.
-/
import MegaSdk.Base.Tree

namespace MegaSdk

namespace FileService

namespace AVLTree

/-! ## 1. Memory -/

abbrev Addr := UInt64

/-- The members of the nodes, by address: `mChildren`, `mParent` and `mHeight` of the node's
`AVLTreeNode`, and what `mValuePointer` and `mMetadataPointer` designate. -/
structure Memory (V M : Type) where
  child : Addr → Bool → Option Addr
  parent : Addr → Option Addr
  height : Addr → UInt8
  value : Addr → V
  metadata : Addr → M

/-- What the traits of a tree supply: the key of a value, and the metadata of a node from its
value and what its children, if any, carry. -/
structure Traits (K V M : Type) where
  key : V → K
  update : V → Option (V × M) → Option (V × M) → M

def compare {K : Type} [LinearOrder K] (lhs rhs : K) : Int :=
  if lhs < rhs then -1 else if rhs < lhs then 1 else 0

namespace Memory

variable {V M : Type} (h : Memory V M)

def setChild (a : Addr) (direction : Bool) (p : Option Addr) : Memory V M :=
  { h with child := fun b e => if b = a ∧ e = direction then p else h.child b e }

def setParent (a : Addr) (p : Option Addr) : Memory V M :=
  { h with parent := fun b => if b = a then p else h.parent b }

def adopt (p q : Option Addr) : Memory V M :=
  match p with
  | some a => h.setParent a q
  | none => h

def copyLink (target source : Addr) : Memory V M :=
  { h with
    child := fun b => if b = target then h.child source else h.child b
    parent := fun b => if b = target then h.parent source else h.parent b
    height := fun b => if b = target then h.height source else h.height b }

def carried (p : Option Addr) : Option (V × M) := p.map fun a => (h.value a, h.metadata a)

/-- A node fresh from its constructor at the address `a`. -/
def construct (a : Addr) (v : V) (m : M) : Memory V M :=
  { child := fun b => if b = a then fun _ => none else h.child b
    parent := fun b => if b = a then none else h.parent b
    height := fun b => if b = a then 0 else h.height b
    value := fun b => if b = a then v else h.value b
    metadata := fun b => if b = a then m else h.metadata b }

end Memory

/-! ## 2. Restoring the balance -/

section Balance

variable {K V M : Type} (tr : Traits K V M)

/-- `LinkTraits::balance`, with its assertion. -/
def balance (h : Memory V M) (node : Addr) : Option Int :=
  let right : Int := match h.child node true with
    | some right => (h.height right).toNat
    | none => 0
  let balance : Int := match h.child node false with
    | some left => right - (h.height left).toNat
    | none => right
  if balance.natAbs < 3 then some balance else none

/-- Update a node's height and metadata. -/
def update (h : Memory V M) (node : Addr) : Memory V M :=
  let height : UInt8 := match h.child node false with
    | some left => h.height left
    | none => 0
  let height : UInt8 := match h.child node true with
    | some right => if height < h.height right then h.height right else height
    | none => height
  { h with
    height := fun b => if b = node then height + 1 else h.height b
    metadata := fun b => if b = node then
        tr.update (h.value node) (h.carried (h.child node false)) (h.carried (h.child node true))
      else h.metadata b }

/-- Rotate a node left or right, right when `direction` is true. -/
def rotate (h : Memory V M) (node : Addr) (direction : Bool) : Option (Memory V M × Addr) := do
  let child ← h.child node (!direction)
  let h := h.setParent child (h.parent node)
  let h := h.setParent node (some child)
  let grandchild := h.child child direction
  let h := h.adopt grandchild (some node)
  let h := h.setChild child direction (some node)
  let h := h.setChild node (!direction) grandchild
  let h := update tr h node
  let h := update tr h child
  return (h, child)

/-- The double rotation's first half: `child = rotate(*child, direction)`. -/
def rotateChild (h : Memory V M) (node child : Addr) (direction : Bool) : Option (Memory V M) := do
  let (h, top) ← rotate tr h child direction
  return h.setChild node direction (some top)

/-- `rebalance(NodeType& node, bool direction)`: the node's side `direction` is too tall. -/
def rebalanceNode (h : Memory V M) (node : Addr) (direction : Bool) :
    Option (Memory V M × Addr) := do
  let child ← h.child node direction
  let b ← balance h child
  if b = (bif direction then -1 else 1) then
    let h ← rotateChild tr h node child direction
    rotate tr h node (!direction)
  else
    rotate tr h node (!direction)

/-- Rebalance a node (subtree) if necessary. -/
def maybeRebalance (h : Memory V M) (node : Addr) : Option (Memory V M × Addr) := do
  let b ← balance h node
  if b.natAbs > 1 then
    rebalanceNode tr h node (decide (b > 0))
  else
    return (update tr h node, node)

/-- `rebalance(NodeType* node)`: traverse upwards from `node`. Answers the new `mRoot`. -/
def rebalance : Nat → Memory V M → Addr → Option (Memory V M × Option Addr)
  | 0, _, _ => none
  | n + 1, h, node =>
    match h.parent node with
    | none => do
      let (h, top) ← maybeRebalance tr h node
      return (h, some top)
    | some parent => do
      -- the link is chosen before the subtree changes
      let direction := decide (h.child parent false ≠ some node)
      let (h, top) ← maybeRebalance tr h node
      rebalance n (h.setChild parent direction (some top)) parent

end Balance

end AVLTree

/-! ## 3. The tree -/

open AVLTree (Addr Memory Traits)

/-- The tree, together with the memory its nodes are in. -/
structure AVLTree (V M : Type) where
  mem : Memory V M
  mRoot : Option Addr
  mSize : Nat

namespace AVLTree

inductive Link where
  | root
  | child (node : Addr) (direction : Bool)

section Operations

variable {K V M : Type} (tr : Traits K V M) (T : AVLTree V M)

def read : Link → Option Addr
  | .root => T.mRoot
  | .child node direction => T.mem.child node direction

def write (p : Option Addr) : Link → AVLTree V M
  | .root => { T with mRoot := p }
  | .child node direction => { T with mem := T.mem.setChild node direction p }

def rebalanceFrom (node : Addr) : Option (AVLTree V M) := do
  let (h, root) ← rebalance tr (T.mSize + 1) T.mem node
  return { T with mem := h, mRoot := root }

variable [LinearOrder K]

def findLinkLoop (key : K) : Nat → Option Addr → Link → Option (Option Addr × Link)
  | 0, _, _ => none
  | n + 1, parent, link =>
    match T.read link with
    | none => some (parent, link)
    | some child =>
      let relationship := compare key (tr.key (T.mem.value child))
      if relationship = 0 then some (parent, link)
      else findLinkLoop key n (some child) (.child child (decide (relationship > 0)))

def findLink (key : K) : Option (Option Addr × Link) :=
  findLinkLoop tr T key (T.mSize + 1) none .root

/-- `add(NodeType** link, NodeType& node, NodeType* parent)`. -/
def addLink (link : Link) (node : Addr) (parent : Option Addr) :
    Option (AVLTree V M × Addr × Bool) :=
  match T.read link with
  | some child => some (T, child, false)
  | none => do
    let T := T.write (some node) link
    let T := { T with mem := T.mem.setParent node parent, mSize := T.mSize + 1 }
    let T ← T.rebalanceFrom tr node
    return (T, node, true)

/-- `add(NodeType& node)`. -/
def add (node : Addr) : Option (AVLTree V M × Addr × Bool) := do
  let (parent, link) ← T.findLink tr (tr.key (T.mem.value node))
  T.addLink tr link node parent

/-- `while (LT::right(*replacement)) ...`: the last node along the right children. -/
def lastRight (h : Memory V M) : Nat → Link → Addr → Option (Link × Addr)
  | 0, _, _ => none
  | n + 1, replacementLink, replacement =>
    match h.child replacement true with
    | none => some (replacementLink, replacement)
    | some next => lastRight h n (.child replacement true) next

/-- The pointers once the node's inorder predecessor `replacement`, found at `replacementLink`,
has taken the node's place; and the node from which to rebalance. -/
def splice (link : Link) (node : Addr) (replacementLink : Link) (replacement : Addr) :
    AVLTree V M × Option Addr :=
  let parent := T.mem.parent replacement
  let parent := if parent = some node then some replacement else parent
  let T := T.write (T.mem.child replacement false) replacementLink
  let T := T.write (some replacement) link
  let T := { T with mem := T.mem.copyLink replacement node }
  let T := { T with mem := T.mem.adopt (T.read replacementLink) parent }
  let T := { T with mem := T.mem.adopt (T.mem.child replacement false) (some replacement) }
  let T := { T with mem := T.mem.adopt (T.mem.child replacement true) (some replacement) }
  (T, parent)

/-- The node's only child, if any, takes the node's place. -/
def lift (link : Link) (replacement parent : Option Addr) : Option (AVLTree V M) :=
  let T := T.write replacement link
  let T := { T with mem := T.mem.adopt replacement parent }
  match parent with
  | some parent => T.rebalanceFrom tr parent
  | none => some T

/-- `remove(NodeType** link, NodeType* parent)`. -/
def removeLink (link : Link) (parent : Option Addr) : Option (AVLTree V M × Addr) := do
  let node ← T.read link
  let T := { T with mSize := T.mSize - 1 }
  match T.mem.child node false, T.mem.child node true with
  | some left, some _ =>
    let (replacementLink, replacement) ← lastRight T.mem (T.mSize + 1) (.child node false) left
    let (T, parent) := T.splice link node replacementLink replacement
    let T ← T.rebalanceFrom tr (← parent)
    return (T, node)
  | some left, none =>
    let T ← T.lift tr link (some left) parent
    return (T, node)
  | none, replacement =>
    let T ← T.lift tr link replacement parent
    return (T, node)

/-- `remove(const KeyType& key)`. -/
def removeKey (key : K) : Option (AVLTree V M × Option Addr) := do
  let (parent, link) ← T.findLink tr key
  match T.read link with
  | some _ => do
    let (T, node) ← T.removeLink tr link parent
    return (T, some node)
  | none => return (T, none)

/-- `remove(Iterator iterator)`. -/
def removeIterator (node : Addr) : Option (AVLTree V M × Addr) :=
  match T.mem.parent node with
  | none => T.removeLink tr .root none
  | some parent =>
    let link := Link.child parent (decide (T.mem.child parent false ≠ some node))
    T.removeLink tr link (some parent)

end Operations

end AVLTree

end FileService

end MegaSdk
