/-
  File:      MegaSdk/Sync/LocalPath.lean
  Subject:   LOCAL PATHS (`Path`, localpath.cpp) on a POSIX system: the leaf and the parent.

  `leafName` looks for the last separator with `find_last_of`; `getLeafnameByteIndex` walks back from
  the end and never looks at the first byte. So the two agree on a path with a separator behind its
  first byte, and not on a path directly under the root.

  * `Split` -- a path cut at its last separator; `leafName_of_split`, `leafIndex_of_split` read both
    functions off it;
  * `Path.leafLaws_iff` -- they do exactly when the path is not directly under the root.
-/
import Mathlib

namespace MegaSdk.Sync

open List

/-! ## 1. The class -/

/-- `PathType`; a URI is another class. -/
inductive PathType
  | ABSOLUTE_PATH
  | RELATIVE_PATH
  deriving DecidableEq

def localPathSeparator : UInt8 := 47

/-- `Path`. A new one is relative. -/
structure Path where
  mLocalpath : List UInt8
  mPathType : PathType := .RELATIVE_PATH
  deriving DecidableEq

namespace Path

variable (p : Path)

/-- `invariant()`: an absolute path starts with a separator. -/
def invariant : Bool :=
  if p.mPathType = .ABSOLUTE_PATH then p.mLocalpath.head? == some localPathSeparator else true

def isAbsolute : Bool := p.mPathType == .ABSOLUTE_PATH

def isRootPath : Bool :=
  if p.mPathType = .ABSOLUTE_PATH then
    p.mLocalpath.length == 1 && p.mLocalpath.getLast? == some localPathSeparator
  else false

def endsInSeparator : Bool := p.mLocalpath.getLast? == some localPathSeparator

def beginsWithSeparator : Bool := p.mLocalpath.head? == some localPathSeparator

/-- `find_last_of`: the last index of a character; `none` for `npos`. -/
def findLastOf (c : UInt8) : List UInt8 → Option Nat
  | [] => none
  | b :: s =>
    match findLastOf c s with
    | some i => some (i + 1)
    | none => if b = c then some 0 else none

def leafName : Path :=
  match findLastOf localPathSeparator p.mLocalpath with
  | none => { mLocalpath := p.mLocalpath }
  | some i => { mLocalpath := p.mLocalpath.drop (i + 1) }

/-- The loop `while (p && (p -= 1))`: it ends before it looks at index zero. -/
def leafIndexLoop (s : List UInt8) : Nat → Nat
  | 0 => 0
  | p + 1 =>
    if p = 0 then 0
    else if s[p]? = some localPathSeparator then p + 1
    else leafIndexLoop s p

def getLeafnameByteIndex : Nat := leafIndexLoop p.mLocalpath p.mLocalpath.length

/-- `subpathFrom(bytePos)`: a relative path. -/
def subpathFrom (bytePos : Nat) : Path := { mLocalpath := p.mLocalpath.drop bytePos }

/-- `subpathTo(bytePos)`: of the same type. -/
def subpathTo (bytePos : Nat) : Path := { p with mLocalpath := p.mLocalpath.take bytePos }

def parentPath : Path := p.subpathTo p.getLeafnameByteIndex

def truncate (bytePos : Nat) : Path := { p with mLocalpath := p.mLocalpath.take bytePos }

def append (p additionalPath : Path) : Path :=
  { p with mLocalpath := p.mLocalpath ++ additionalPath.mLocalpath }

/-- `appendWithSeparator`: an absolute path is not appended. -/
def appendWithSeparator (p additionalPath : Path) (separatorAlways : Bool) : Path :=
  if additionalPath.isAbsolute then p
  else
    let sep := (separatorAlways || !p.mLocalpath.isEmpty) &&
      !(p.endsInSeparator || additionalPath.beginsWithSeparator)
    { p with mLocalpath :=
        p.mLocalpath ++ (if sep then [localPathSeparator] else []) ++ additionalPath.mLocalpath }

def changeLeaf (p newLeaf : Path) : Path :=
  (p.truncate p.getLeafnameByteIndex).appendWithSeparator newLeaf false

end Path

/-! ## 2. The last separator -/

/-- `s` is cut at its last separator. -/
structure Split (s pre leaf : List UInt8) : Prop where
  eq : s = pre ++ localPathSeparator :: leaf
  last : localPathSeparator ∉ leaf

variable {s pre leaf : List UInt8}

theorem exists_split (h : localPathSeparator ∈ s) : ∃ pre leaf, Split s pre leaf := by
  induction s with
  | nil => cases h
  | cons b s ih =>
    by_cases hs : localPathSeparator ∈ s
    · obtain ⟨pre, leaf, hsplit⟩ := ih hs
      exact ⟨b :: pre, leaf, by rw [hsplit.eq]; rfl, hsplit.last⟩
    obtain hb | hb := mem_cons.1 h
    · exact ⟨[], s, by rw [hb]; rfl, hs⟩
    · exact absurd hb hs

theorem findLastOf_of_not_mem {c : UInt8} (h : c ∉ s) : Path.findLastOf c s = none := by
  induction s with
  | nil => rfl
  | cons b s ih =>
    obtain ⟨hb, hs⟩ := not_or.1 (mt mem_cons.2 h)
    rw [Path.findLastOf, ih hs]
    exact if_neg (Ne.symm hb)

theorem findLastOf_append {c : UInt8} (h : c ∉ leaf) :
    Path.findLastOf c (pre ++ c :: leaf) = some pre.length := by
  induction pre with
  | nil =>
    rw [nil_append, Path.findLastOf, findLastOf_of_not_mem h]
    exact if_pos rfl
  | cons b pre ih =>
    rw [cons_append, Path.findLastOf, ih]
    rfl

theorem leafIndexLoop_passes (hs : Split s pre leaf) (n : Nat) (hn : n ≤ leaf.length) :
    Path.leafIndexLoop s (pre.length + 1 + n) = Path.leafIndexLoop s (pre.length + 1) := by
  induction n with
  | zero => rfl
  | succ n ih =>
    have hget : s[pre.length + 1 + n]? ≠ some localPathSeparator := by
      rw [hs.eq, getElem?_append_right (by omega),
        show pre.length + 1 + n - pre.length = n + 1 by omega]
      exact fun h => hs.last (mem_of_getElem? h)
    rw [show pre.length + 1 + (n + 1) = (pre.length + 1 + n) + 1 by omega, Path.leafIndexLoop,
      if_neg (by omega), if_neg hget]
    exact ih (by omega)

variable {p : Path}

theorem leafName_of_split (hs : Split p.mLocalpath pre leaf) : p.leafName = { mLocalpath := leaf } := by
  rw [Path.leafName, hs.eq, findLastOf_append hs.last]
  simp

theorem leafIndex_of_split (hs : Split p.mLocalpath pre leaf) :
    p.getLeafnameByteIndex = if pre = [] then 0 else pre.length + 1 := by
  have hlen : p.mLocalpath.length = pre.length + 1 + leaf.length := by
    rw [hs.eq, length_append, length_cons]
    omega
  rw [Path.getLeafnameByteIndex, hlen, leafIndexLoop_passes hs _ (Nat.le_refl _), Path.leafIndexLoop]
  have hget : p.mLocalpath[pre.length]? = some localPathSeparator := by
    rw [hs.eq, getElem?_append_right (Nat.le_refl _), Nat.sub_self]
    rfl
  simp [hget]

/-! ## 3. Leaf and parent -/

/-- An absolute path other than the root, without a separator at its end. -/
structure Path.Ordinary (p : Path) : Prop where
  absolute : p.isAbsolute = true
  valid : p.invariant = true
  notRoot : p.isRootPath = false
  noTrailing : p.endsInSeparator = false

/-- **Leaf and parent fit together**: both ways to the leaf agree, the leaf appended to the parent is
    the path, and the parent and the path with another leaf are valid. -/
structure LeafLaws (p : Path) : Prop where
  leaf : p.leafName = p.subpathFrom p.getLeafnameByteIndex
  whole : p.parentPath.append p.leafName = p
  wholeSep : ∀ separatorAlways, p.parentPath.appendWithSeparator p.leafName separatorAlways = p
  parent : p.parentPath.invariant = true
  change : ∀ newLeaf, (p.changeLeaf newLeaf).invariant = true

theorem Path.Ordinary.head (h : p.Ordinary) : p.mLocalpath.head? = some localPathSeparator := by
  have habs : p.mPathType = .ABSOLUTE_PATH := by simpa [Path.isAbsolute] using h.absolute
  simpa [Path.invariant, habs] using h.valid

theorem Path.Ordinary.exists_split (h : p.Ordinary) : ∃ pre leaf, Split p.mLocalpath pre leaf :=
  MegaSdk.Sync.exists_split (mem_of_head? h.head)

theorem Path.appendWithSeparator_of_ends {q : Path} (hp : p.endsInSeparator = true)
    (hq : q.isAbsolute = false) (separatorAlways : Bool) :
    p.appendWithSeparator q separatorAlways = p.append q := by
  simp [Path.appendWithSeparator, Path.append, hp, hq]

theorem tail_iff_split (hs : Split s pre leaf) : localPathSeparator ∈ s.tail ↔ pre ≠ [] := by
  rw [hs.eq]
  cases pre with
  | nil =>
    exact ⟨fun h => absurd h hs.last, absurd rfl⟩
  | cons b pre =>
    exact ⟨fun _ => cons_ne_nil _ _, fun _ => by simp⟩

variable (hs : Split p.mLocalpath pre leaf)
include hs

theorem parentPath_of_split (hpre : pre ≠ []) :
    p.parentPath = { p with mLocalpath := pre ++ [localPathSeparator] } := by
  rw [Path.parentPath, leafIndex_of_split hs, if_neg hpre, Path.subpathTo, hs.eq,
    take_length_add_append]
  rfl

/-- `changeLeaf` puts the new leaf behind the last separator; an absolute path leaves nothing. -/
theorem Path.changeLeaf_split (hpre : pre ≠ []) (newLeaf : Path) :
    p.changeLeaf newLeaf = { p with mLocalpath := pre ++ [localPathSeparator] ++
      if newLeaf.isAbsolute then [] else newLeaf.mLocalpath } := by
  have hcut : p.truncate p.getLeafnameByteIndex = p.parentPath := rfl
  rw [Path.changeLeaf, hcut, parentPath_of_split hs hpre]
  cases habs : newLeaf.isAbsolute with
  | true => rw [Path.appendWithSeparator, if_pos habs, if_pos rfl, append_nil]
  | false =>
    rw [Path.appendWithSeparator_of_ends (by simp [Path.endsInSeparator]) habs]
    rfl

theorem head_append_of_split (hpre : pre ≠ []) (t : List UInt8) :
    (pre ++ [localPathSeparator] ++ t).head? = p.mLocalpath.head? := by
  rw [hs.eq]
  cases pre with
  | nil => exact absurd rfl hpre
  | cons b pre => rfl

theorem leafLaws_of_split (h : p.invariant = true) (hpre : pre ≠ []) : LeafLaws p := by
  have hvalid : ∀ t, ({ p with mLocalpath := pre ++ [localPathSeparator] ++ t } : Path).invariant
      = true := by
    intro t
    rw [← h]
    simp only [Path.invariant, head_append_of_split hs hpre]
  have hpath : p = { p with mLocalpath := pre ++ [localPathSeparator] ++ leaf } := by
    rw [append_assoc, singleton_append, ← hs.eq]
  refine ⟨?_, ?_, fun separatorAlways => ?_, ?_, fun newLeaf => ?_⟩
  · rw [leafName_of_split hs, Path.subpathFrom, leafIndex_of_split hs, if_neg hpre, hs.eq]
    simp
  · rw [parentPath_of_split hs hpre, leafName_of_split hs]
    exact hpath.symm
  · rw [parentPath_of_split hs hpre, leafName_of_split hs,
      Path.appendWithSeparator_of_ends (by simp [Path.endsInSeparator]) rfl]
    exact hpath.symm
  · rw [parentPath_of_split hs hpre]
    simpa using hvalid []
  · rw [Path.changeLeaf_split hs hpre]
    exact hvalid _

/-- Directly under the root the index is that of the root's separator, and the parent is empty. -/
theorem not_leafLaws_of_split (h : p.isAbsolute = true) (hpre : pre = []) : ¬ LeafLaws p := by
  intro hlaws
  have hparent : p.parentPath = { p with mLocalpath := [] } := by
    rw [Path.parentPath, leafIndex_of_split hs, if_pos hpre, Path.subpathTo, take_zero]
  have hvalid := hlaws.parent
  have habs : p.mPathType = .ABSOLUTE_PATH := by simpa [Path.isAbsolute] using h
  rw [hparent] at hvalid
  simp [Path.invariant, habs] at hvalid

omit hs

/-- **Leaf and parent fit together exactly for the paths that are not directly under the root.** -/
theorem Path.leafLaws_iff (h : p.Ordinary) :
    LeafLaws p ↔ localPathSeparator ∈ p.mLocalpath.tail := by
  obtain ⟨pre, leaf, hs⟩ := h.exists_split
  rw [tail_iff_split hs]
  constructor
  · exact fun hlaws hpre => not_leafLaws_of_split hs h.absolute hpre hlaws
  · exact leafLaws_of_split hs h.valid

/-- `/h/a` is such a path. -/
theorem leafLaws_home : LeafLaws ⟨[47, 104, 47, 97], .ABSOLUTE_PATH⟩ :=
  (Path.leafLaws_iff ⟨rfl, by decide, by decide, by decide⟩).2 (by decide)

/-- `/a` is not: the two leaves are `a` and `/a`, the parent is an absolute path without a byte, and
    with the leaf `b` the path is `b`. -/
theorem leaf_under_root : let p : Path := ⟨[47, 97], .ABSOLUTE_PATH⟩
    p.Ordinary ∧ p.leafName.mLocalpath = [97] ∧
      (p.subpathFrom p.getLeafnameByteIndex).mLocalpath = [47, 97] ∧
      p.parentPath.append p.leafName ≠ p ∧ p.parentPath.invariant = false ∧
      p.changeLeaf ⟨[98], .RELATIVE_PATH⟩ = ⟨[98], .ABSOLUTE_PATH⟩ ∧
      (p.changeLeaf ⟨[98], .RELATIVE_PATH⟩).invariant = false :=
  ⟨⟨rfl, by decide, by decide, by decide⟩, by decide, by decide, by decide, by decide, by decide,
    by decide⟩

end MegaSdk.Sync
