/-
  File:      MegaSdk/Sync/CloneCandidate.lean
  Subject:   THE NODE AN UPLOAD IS CLONED FROM (syncinternals.cpp, utils.cpp).

  `findCloneNodeCandidate` filters the nodes with the upload's fingerprint by a predicate that
  keeps a flag: a match with a zero key sets it, and then no later node is taken.

  * `Right` -- what the search should answer, in terms of clonable nodes;
  * **`findCloneNodeCandidate_iff`** -- every order of the list is answered right unless the
    list has both a clonable node and a match with a zero key.
-/
import MegaSdk.Base.Bytes
import MegaSdk.Sync.FileFingerprint

namespace MegaSdk.Fingerprint

open List

/-! ## 1. The code -/

/-- What the search reads of a `Node`. -/
structure CloneNode extends FileFingerprint where
  isFile : Bool := true
  nodekeydata : List UInt8
  displayname : List UInt8 := []
  parentHandle : Nat := 0

/-- `SyncUpload_inClient`; a meta-MAC is the `int64_t` as its bits. -/
structure SyncUpload extends FileFingerprint where
  mMetaMac : Option UInt64
  name : List UInt8 := []
  h : Nat := 0

inductive NodeComparison
  | eargs
  | differsFp
  | differsMac
  | differsMtime
  | equal
deriving DecidableEq

def invalidMetaMac : UInt64 := 0xFFFFFFFF

def FileFingerprint.equalExceptMtime (fp rhs : FileFingerprint) : Bool :=
  fp.size == rhs.size && (fp.isvalid && rhs.isvalid) && fp.crc == rhs.crc

def isZeroKey (key : List UInt8) : Bool :=
  if key.length = 32 then key.take 16 == key.drop 16
  else key.length = 16 && key == replicate 16 0

namespace CloneNode

variable (n : CloneNode)

def keyApplied : Bool := n.nodekeydata.length == if n.isFile then 32 else 16

def hasZeroKey : Bool := n.keyApplied && isZeroKey n.nodekeydata

/-- The second half of the IV, behind the key. -/
def remoteMac : UInt64 := .ofNat (Base.leNat (n.nodekeydata.drop 24))

/-- `CompareNodeWithProvidedMacAndFpExcludingMtime`. -/
def compareWith (fp : FileFingerprint) (precalcMetamac : UInt64) : NodeComparison :=
  if !n.isFile || !n.keyApplied then .eargs
  else if !fp.equalExceptMtime n.toFileFingerprint then .differsFp
  else if precalcMetamac ≠ n.remoteMac then .differsMac
  else if fp.mtime = n.mtime then .equal else .differsMtime

end CloneNode

namespace SyncUpload

variable (u : SyncUpload)

/-- `FindCloneNodeCandidatePredicate`: the answer and `mFoundCandidateHasZeroKey`. -/
def predicate (found : Bool) (n : CloneNode) : Bool × Bool :=
  match u.mMetaMac with
  | none => (false, found)
  | some mac =>
    if mac = invalidMetaMac then (false, found)
    else
      let compRes := n.compareWith u.toFileFingerprint mac
      if compRes ≠ .equal ∧ compRes ≠ .differsMtime then (false, found)
      else (true, found || n.hasZeroKey)

/-- The `copy_if` into `matches`. -/
def copyIf : Bool → List CloneNode → List CloneNode
  | _, [] => []
  | found, n :: l =>
    let p := u.predicate found n
    if p.1 && !p.2 then n :: copyIf p.2 l else copyIf p.2 l

def inPlace (n : CloneNode) : Bool := n.displayname == u.name && n.parentHandle == u.h

def findCloneNodeCandidate (candidates : List CloneNode) : Option CloneNode :=
  if u.mMetaMac = none ∨ u.mMetaMac = some invalidMetaMac then none
  else
    match u.copyIf false candidates with
    | [] => none
    | n :: l => some (((n :: l).find? u.inPlace).getD n)

/-! ## 2. What the search should answer -/

def isMatch (n : CloneNode) : Bool :=
  n.isFile && n.keyApplied && u.equalExceptMtime n.toFileFingerprint &&
    u.mMetaMac == some n.remoteMac

def clonable (n : CloneNode) : Bool := u.isMatch n && !n.hasZeroKey

structure Right (l : List CloneNode) (r : Option CloneNode) : Prop where
  found : r.isSome = l.any u.clonable
  clonable : ∀ n, r = some n → n ∈ l ∧ u.clonable n = true
  preferred : ∀ m n, m ∈ l → u.clonable m = true → u.inPlace m = true → r = some n →
    u.inPlace n = true

/-! ## 3. The nodes that are taken -/

variable {u} {mac : UInt64} (hmac : u.mMetaMac = some mac) (hv : mac ≠ invalidMetaMac)
  (found : Bool) (l : List CloneNode)

include hmac hv

theorem predicate_eq (n : CloneNode) :
    u.predicate found n = (u.isMatch n, found || u.isMatch n && n.hasZeroKey) := by
  simp only [predicate, isMatch, hmac, hv, CloneNode.compareWith, if_false]
  split_ifs <;> simp_all
  grind

/-- The clonable nodes in front of the first match with a zero key are taken. -/
theorem copyIf_eq : u.copyIf found l =
    if found then [] else (l.takeWhile fun n => !(u.isMatch n && n.hasZeroKey)).filter u.clonable := by
  induction l generalizing found with
  | nil => cases found <;> rfl
  | cons n l ih =>
    rw [copyIf, predicate_eq hmac hv, ih]
    cases found <;> cases hm : u.isMatch n <;> cases hz : n.hasZeroKey <;>
      simp [hm, hz, clonable]

theorem right_of_copyIf (h : u.copyIf false l = l.filter u.clonable) :
    u.Right l (u.findCloneNodeCandidate l) := by
  rw [findCloneNodeCandidate, if_neg (by simp [hmac, hv]), h]
  split
  · rename_i hnil
    have hno := filter_eq_nil_iff.1 hnil
    exact ⟨by simpa using hno, nofun, nofun⟩
  · rename_i n t hcons
    have hmem : ∀ m, m ∈ n :: t ↔ m ∈ l ∧ u.clonable m = true := by
      rw [← hcons]
      exact fun m => mem_filter
    have hany : l.any u.clonable = true := any_eq_true.2 ⟨n, (hmem n).1 mem_cons_self⟩
    cases hf : (n :: t).find? u.inPlace with
    | none =>
      refine ⟨hany.symm, ?_, fun m _ hm hc hp _ => ?_⟩
      · rintro m ⟨⟩
        exact (hmem n).1 mem_cons_self
      · exact absurd hp (find?_eq_none.1 hf m ((hmem m).2 ⟨hm, hc⟩))
    | some x =>
      refine ⟨hany.symm, ?_, ?_⟩
      · rintro m ⟨⟩
        exact (hmem x).1 (mem_of_find?_eq_some hf)
      · rintro _ m - - - ⟨⟩
        exact find?_some hf

/-- **Every order of the list is answered right**, unless the list has both a clonable node and a
match with a zero key. -/
theorem findCloneNodeCandidate_iff (candidates : List CloneNode) :
    (∀ l, l ~ candidates → u.Right l (u.findCloneNodeCandidate l)) ↔
      ¬((∃ n ∈ candidates, u.clonable n = true) ∧
        ∃ n ∈ candidates, u.isMatch n = true ∧ n.hasZeroKey = true) := by
  constructor
  · rintro hall ⟨⟨n, hn, hc⟩, z, hz, hm, hk⟩
    obtain ⟨s, t, rfl⟩ := append_of_mem hz
    have hfirst : u.copyIf false (z :: (s ++ t)) = [] := by
      simp [copyIf_eq hmac hv, hm, hk]
    have hfound := (hall _ perm_middle.symm).found
    rw [any_eq_true.2 ⟨n, perm_middle.mem_iff.1 hn, hc⟩] at hfound
    simp [findCloneNodeCandidate, hfirst] at hfound
  · refine fun hno l hl => right_of_copyIf hmac hv l ?_
    rw [copyIf_eq hmac hv, if_neg (by decide)]
    by_cases hc : ∃ n ∈ l, u.clonable n = true
    · rw [takeWhile_eq_self_iff.2 fun z hz => ?_]
      by_contra hk
      refine hno ⟨hc.imp fun n => .imp_left hl.mem_iff.1, z, hl.mem_iff.1 hz, by simpa using hk⟩
    · have hnone : ∀ n ∈ l, ¬u.clonable n = true := fun n hn h => hc ⟨n, hn, h⟩
      rw [filter_eq_nil_iff.2 hnone]
      exact filter_eq_nil_iff.2 fun n hn => hnone n ((takeWhile_sublist _).subset hn)

omit hmac hv

/-- Of two clonable nodes and one with another MAC, in any order, the one in place is chosen. -/
theorem findCloneNodeCandidate_inPlace :
    let u : SyncUpload := { isvalid := true, mMetaMac := some 0, name := [97], h := 5 }
    let other : CloneNode := { isvalid := true, nodekeydata := replicate 32 1 }
    let elsewhere : CloneNode := { isvalid := true, nodekeydata := 1 :: replicate 31 0 }
    let there : CloneNode := { elsewhere with displayname := [97], parentHandle := 5 }
    u.Right [elsewhere, other, there] (u.findCloneNodeCandidate [elsewhere, other, there]) ∧
      u.findCloneNodeCandidate [elsewhere, other, there] = some there :=
  ⟨(findCloneNodeCandidate_iff rfl (by decide) _).2 (by decide) _ (.refl _), rfl⟩

/-- A clonable node behind a match with a zero key is not found, in front of it it is. -/
theorem findCloneNodeCandidate_hidden :
    let u : SyncUpload := { isvalid := true, mMetaMac := some 0 }
    let zero : CloneNode := { isvalid := true, nodekeydata := replicate 32 0 }
    let good : CloneNode := { isvalid := true, nodekeydata := 1 :: replicate 31 0 }
    u.clonable good = true ∧ u.findCloneNodeCandidate [zero, good] = none ∧
      (u.findCloneNodeCandidate [good, zero]).isSome = true :=
  ⟨rfl, rfl, rfl⟩

end SyncUpload

end MegaSdk.Fingerprint
