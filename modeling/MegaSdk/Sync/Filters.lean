/-
  File:      MegaSdk/Sync/Filters.lean
  Subject:   LOADING A .megaignore (`FilterChain::load` and the two `add`, syncfilter.cpp; `readLines`,
             utils.cpp).

  The lines are parsed one after the other. String filters and the size filter are collected beside
  the chain and moved into it at the end, but a line `+sync:.megaignore` or `-sync:.megaignore` writes
  the flag of the chain at once.

  * `readLines`, `addSize`, `addString`, `load` -- the code, for any normalization and any check of
    regular expressions; `loadFile` -- the overload that opens the file;
  * `directive` -- the flag a line sets; `addLine_flag` -- **a line depends on the flag in no other
    way**, and `loadLoop_flag` says so of a whole file;
  * `filters_of_run`, `flag_of_run` -- over any number of loads, the filters are those of the last one
    that succeeded, and the flag is that of the last directive read in any of them;
  * `load_atomic_iff` -- so a load is all or nothing exactly when a file that fails has no directive
    before the failing line, and one that succeeds has a directive.
-/
import MegaSdk.Json.Splitter
import MegaSdk.Text.Wildcard

namespace MegaSdk.Sync

open List

open Json (ch)
open Wildcard (deref cstr GlobMatcher)

/-! ## 1. Lines -/

def is_space (c : UInt8) : Bool := c == 32 || (9 ≤ c && c ≤ 13)

def is_digit (c : UInt8) : Bool := 48 ≤ c && c ≤ 57

def isEol (c : UInt8) : Bool := c == 13 || c == 10

/-- The byte order mark is skipped. -/
def skipBom (input : List UInt8) : List UInt8 :=
  if input.take 3 = [0xEF, 0xBB, 0xBF] then input.drop 3 else input

/-- The loop of `readLines`; `n` bounds the number of lines. A line of white space is left out. -/
def readLoop : Nat → List UInt8 → List (List UInt8)
  | 0, _ => []
  | n + 1, current =>
    if current.isEmpty then []
    else
      let line := current.takeWhile fun c => !isEol c
      let rest := readLoop n ((current.dropWhile fun c => !isEol c).dropWhile isEol)
      if line.all is_space then rest else line :: rest

def readLines (input : List UInt8) : List (List UInt8) :=
  readLoop input.length ((skipBom input).dropWhile isEol)

/-- More rounds than bytes change nothing. -/
theorem readLoop_enough {n : Nat} {current : List UInt8} (h : current.length ≤ n) :
    readLoop (n + 1) current = readLoop n current := by
  induction n generalizing current with
  | zero =>
    rw [length_eq_zero_iff.1 (Nat.le_zero.1 h)]
    rfl
  | succ n ih =>
    cases current with
    | nil => rfl
    | cons c current =>
      have hshort : (((c :: current).dropWhile fun c => !isEol c).dropWhile isEol).length ≤ n := by
        by_cases hc : isEol c = true
        · rw [dropWhile_cons_of_neg (by simp [hc]), dropWhile_cons_of_pos hc]
          exact (dropWhile_sublist _).length_le.trans (Nat.le_of_succ_le_succ h)
        rw [dropWhile_cons_of_pos (by simp [hc])]
        exact ((dropWhile_sublist _).trans (dropWhile_sublist _)).length_le.trans
          (Nat.le_of_succ_le_succ h)
      have hround : ∀ k, readLoop (k + 1) (c :: current) =
          if ((c :: current).takeWhile fun c => !isEol c).all is_space then
            readLoop k (((c :: current).dropWhile fun c => !isEol c).dropWhile isEol)
          else ((c :: current).takeWhile fun c => !isEol c) ::
            readLoop k (((c :: current).dropWhile fun c => !isEol c).dropWhile isEol) :=
        fun _ => rfl
      rw [hround, hround, ih hshort]

/-! ## 2. Size filters -/

structure SizeFilter where
  lower : Nat := 0
  upper : Nat := 2 ^ 64 - 1
  deriving DecidableEq

def excludeLarger : List UInt8 :=
  ['e', 'x', 'c', 'l', 'u', 'd', 'e', '-', 'l', 'a', 'r', 'g', 'e', 'r'].map ch

def excludeSmaller : List UInt8 :=
  ['e', 'x', 'c', 'l', 'u', 'd', 'e', '-', 's', 'm', 'a', 'l', 'l', 'e', 'r'].map ch

def decimal (digits : List UInt8) : Nat := digits.foldl (fun n c => 10 * n + (c.toNat - 48)) 0

/-- The `switch` over the unit; zero for no unit. -/
def unitShift (c : UInt8) : Nat :=
  if c = ch 'k' ∨ c = ch 'K' then 10
  else if c = ch 'm' ∨ c = ch 'M' then 20
  else if c = ch 'g' ∨ c = ch 'G' then 30
  else if c = ch 't' ∨ c = ch 'T' then 40
  else 0

/-- The limit behind the colon: digits to the end of the text, or digits, a unit and white space. -/
def parseLimit (text : List UInt8) : Option Nat :=
  let s := text.dropWhile is_space
  let limit := decimal (s.takeWhile is_digit)
  if !is_digit (deref s) then none
  else if limit ≥ 2 ^ 64 then none
  else
    match s.dropWhile is_digit with
    | [] => some limit
    | c :: rest =>
      let shift := unitShift c
      if shift = 0 ∨ !rest.all is_space then none
      else if limit ≠ limit * 2 ^ shift % 2 ^ 64 / 2 ^ shift then none
      else some (limit * 2 ^ shift)

/-- `add(text, filter)`: the new filter, or an error. -/
def addSize (text : List UInt8) (filter : Option SizeFilter) : Option SizeFilter :=
  let name := text.takeWhile fun c => c != ch ':'
  match text.dropWhile fun c => c != ch ':' with
  | [] => none
  | _ :: s =>
    if name ≠ excludeLarger ∧ name ≠ excludeSmaller then none
    else
      match parseLimit s with
      | none => none
      | some limit =>
        let f := filter.getD {}
        let f := if name = excludeLarger then { f with upper := limit }
          else { f with lower := limit }
        if f.lower = f.upper then none else some f

/-! ## 3. String filters -/

inductive Target
  | all
  | directory
  | file
  | symlink
  deriving DecidableEq

inductive FilterType
  | name
  | path
  deriving DecidableEq

inductive Matcher
  | glob (g : GlobMatcher)
  | regex (pattern : List UInt8) (caseSensitive : Bool)

structure StringFilter where
  type : FilterType
  mMatcher : Matcher
  mTarget : Target
  mInclusion : Bool
  mInheritable : Bool

def filterClass (c : UInt8) : Option Bool :=
  if c = ch '+' then some true else if c = ch '-' then some false else none

def syncMegaignore : List UInt8 :=
  ['s', 'y', 'n', 'c', ':', '.', 'm', 'e', 'g', 'a', 'i', 'g', 'n', 'o', 'r', 'e'].map ch

/-- The target, and the text behind it. -/
def readTarget (m : List UInt8) : Target × List UInt8 :=
  if deref m = ch 'a' then (.all, m.tail)
  else if deref m = ch 'd' then (.directory, m.tail)
  else if deref m = ch 'f' then (.file, m.tail)
  else if deref m = ch 's' then (.symlink, m.tail)
  else (.all, m)

/-- The type (`none` if it is left to the pattern), whether the filter is inheritable, and the text
    behind it. -/
def readType (m : List UInt8) : Option FilterType × Bool × List UInt8 :=
  if deref m = ch 'N' then (some .name, false, m.tail)
  else if deref m = ch 'n' then (some .name, true, m.tail)
  else if deref m = ch 'p' then (some .path, true, m.tail)
  else (none, true, m)

/-- Whether the pattern is a regular expression, whether it is case sensitive, and the text behind. -/
def readStrategy (m : List UInt8) : Bool × Bool × List UInt8 :=
  if deref m = ch 'G' then (false, true, m.tail)
  else if deref m = ch 'g' then (false, false, m.tail)
  else if deref m = ch 'R' then (true, true, m.tail)
  else if deref m = ch 'r' then (true, false, m.tail)
  else (false, false, m)

section Load

variable (normalize : List UInt8 → List UInt8) (validRegex : List UInt8 → Bool → Bool)

/-- The rest of a filter, behind its class. -/
def parseFilter (inclusion : Bool) (m : List UInt8) : Option StringFilter :=
  let (target, m) := readTarget m
  let (type, inheritable, m) := readType m
  let (isRegex, caseSensitive, m) := readStrategy m
  if deref m ≠ ch ':' then none
  else
    let m := m.tail
    let type := type.getD (if (cstr m).contains (ch '/') then .path else .name)
    let pattern := (m.reverse.dropWhile is_space).reverse
    if isRegex then
      -- a malformed expression throws
      if validRegex pattern caseSensitive then
        some ⟨type, .regex pattern caseSensitive, target, inclusion, inheritable⟩
      else none
    else some ⟨type, .glob (GlobMatcher.create pattern caseSensitive), target, inclusion, inheritable⟩

/-- `add(text, filters, syncThisMegaignore)`: both references as they are behind it, or an error, which
    leaves both alone. -/
def addString (text : List UInt8) (filters : List StringFilter) (syncThisMegaignore : Bool) :
    Option (List StringFilter × Bool) :=
  match filterClass (deref text) with
  | none => none
  | some inclusion =>
    if cstr text.tail = syncMegaignore then some (filters, inclusion)
    else (parseFilter validRegex inclusion text.tail).map fun f =>
      (filters ++ [f], syncThisMegaignore)

/-! ## 4. The chain -/

inductive FilterLoadResult
  | FLR_DELETED
  | FLR_FAILED
  | FLR_SUCCESS
  deriving DecidableEq

structure FilterChain where
  mStringFilters : List StringFilter := []
  mSizeFilter : Option SizeFilter := none
  mSyncThisMegaignore : Bool := false

def FilterChain.withFlag (chain : FilterChain) (b : Bool) : FilterChain :=
  { chain with mSyncThisMegaignore := b }

/-- What the loop of `load` works on: its own filters, and the flag of the chain. -/
structure Loading where
  stringFilters : List StringFilter := []
  sizeFilter : Option SizeFilter := none
  mSyncThisMegaignore : Bool

def addLine (line : List UInt8) (t : Loading) : Option Loading :=
  let l := normalize line
  if l.isEmpty then none
  else if deref l = ch '#' then some t
  else if deref l = ch 'e' then
    (addSize l t.sizeFilter).map fun s => { t with sizeFilter := some s }
  else
    (addString validRegex l t.stringFilters t.mSyncThisMegaignore).map fun r =>
      { t with stringFilters := r.1, mSyncThisMegaignore := r.2 }

/-- The loop of `load`: whether it got to the end, and what it left. -/
def loadLoop : List (List UInt8) → Loading → Bool × Loading
  | [], t => (true, t)
  | line :: lines, t =>
    match addLine normalize validRegex line t with
    | none => (false, t)
    | some t' => loadLoop lines t'

/-- `load(fileAccess)`, on what was read from the file; `none` if reading failed. -/
def load (chain : FilterChain) (content : Option (List UInt8)) : FilterLoadResult × FilterChain :=
  match content with
  | none => (.FLR_FAILED, chain)
  | some input =>
    let r := loadLoop normalize validRegex (readLines input)
      { mSyncThisMegaignore := chain.mSyncThisMegaignore }
    -- the flag is the chain's own all along
    let chain := { chain with mSyncThisMegaignore := r.2.mSyncThisMegaignore }
    if r.1 then
      (.FLR_SUCCESS,
        { chain with mStringFilters := r.2.stringFilters, mSizeFilter := r.2.sizeFilter })
    else (.FLR_FAILED, chain)

/-- `load(fsAccess, path)`: the file is opened, loaded and fingerprinted. -/
def loadFile (opened fingerprinted : Bool) (content : Option (List UInt8)) (chain : FilterChain) :
    FilterLoadResult × FilterChain :=
  if !opened then (.FLR_DELETED, chain)
  else
    let r := load normalize validRegex chain content
    if r.1 = .FLR_SUCCESS ∧ fingerprinted = false then (.FLR_FAILED, r.2) else r

/-! ## 5. The flag -/

/-- The flag that a line sets. -/
def directive (line : List UInt8) : Option Bool :=
  if cstr (normalize line).tail = syncMegaignore then filterClass (deref (normalize line)) else none

/-- The lines up to the one that fails. -/
def passed : List (List UInt8) → Loading → List (List UInt8)
  | [], _ => []
  | line :: lines, t =>
    match addLine normalize validRegex line t with
    | none => []
    | some t' => line :: passed lines t'

variable {normalize validRegex} {line : List UInt8} {lines : List (List UInt8)} {t : Loading}

def Loading.withFlag (t : Loading) (b : Bool) : Loading := { t with mSyncThisMegaignore := b }

theorem filterClass_other {c : UInt8} (h : c = ch '#' ∨ c = ch 'e') : filterClass c = none := by
  rcases h with rfl | rfl <;> decide

/-- **One line**: with another flag it does the same, and the flag behind it is the one it sets or the
    other one. -/
theorem addLine_flag (b : Bool) : addLine normalize validRegex line (t.withFlag b) =
    (addLine normalize validRegex line t).map
      fun t' => t'.withFlag ((directive normalize line).getD b) := by
  have hother : deref (normalize line) = ch '#' ∨ deref (normalize line) = ch 'e' →
      directive normalize line = none := by
    intro h
    rw [directive, filterClass_other h, ite_self]
  rw [addLine, addLine]
  split
  · rfl
  split
  · rename_i hcomment
    rw [hother (.inl hcomment)]
    rfl
  split
  · rename_i hsize
    rw [hother (.inr hsize), Option.map_map]
    rfl
  rw [addString, addString, directive]
  cases filterClass (deref (normalize line)) with
  | none => rfl
  | some inclusion =>
    dsimp only
    split
    · rfl
    · simp only [Option.map_map]
      rfl

/-- **A whole file**: with another flag the loop gets as far and collects the same filters, and the
    flag behind it is that of the last directive or the other one. -/
theorem loadLoop_flag (b : Bool) :
    loadLoop normalize validRegex lines (t.withFlag b) =
        ((loadLoop normalize validRegex lines t).1, (loadLoop normalize validRegex lines t).2.withFlag
          ((((passed normalize validRegex lines t).filterMap (directive normalize)).getLast?).getD b)) ∧
      passed normalize validRegex lines (t.withFlag b) = passed normalize validRegex lines t := by
  induction lines generalizing t b with
  | nil => exact ⟨rfl, rfl⟩
  | cons line lines ih =>
    simp only [loadLoop, passed, addLine_flag b]
    cases addLine normalize validRegex line t with
    | none => exact ⟨rfl, rfl⟩
    | some t' =>
      obtain ⟨hloop, hpassed⟩ := @ih t' ((directive normalize line).getD b)
      refine ⟨?_, by simpa using hpassed⟩
      simp only [Option.map_some]
      rw [hloop, filterMap_cons]
      cases directive normalize line with
      | none => rfl
      | some b' =>
        rw [getLast?_cons]
        simp

/-! ## 6. What a load does -/

variable (normalize validRegex)

/-- The loop on a content, from the flag `false`. -/
def parsed (input : List UInt8) : Bool × Loading :=
  loadLoop normalize validRegex (readLines input) { mSyncThisMegaignore := false }

/-- The content loads. -/
def Succeeds : Option (List UInt8) → Bool
  | none => false
  | some input => (parsed normalize validRegex input).1

/-- The directives of a content, up to the line that fails. -/
def directives : Option (List UInt8) → List Bool
  | none => []
  | some input => (passed normalize validRegex (readLines input)
      { mSyncThisMegaignore := false }).filterMap (directive normalize)

/-- The flag behind a content. -/
def flagAfter (content : Option (List UInt8)) (b : Bool) : Bool :=
  (directives normalize validRegex content).getLast?.getD b

def filtersOf : Option (List UInt8) → List StringFilter × Option SizeFilter
  | none => ([], none)
  | some input => ((parsed normalize validRegex input).2.stringFilters,
      (parsed normalize validRegex input).2.sizeFilter)

variable {normalize validRegex} {content : Option (List UInt8)} {chain chain' : FilterChain}

/-- **What a load does**: the filters are replaced if it succeeds; the flag is changed in any case. -/
theorem load_eq (chain content) :
    load normalize validRegex chain content =
      if Succeeds normalize validRegex content then
        (.FLR_SUCCESS, ⟨(filtersOf normalize validRegex content).1,
          (filtersOf normalize validRegex content).2,
          flagAfter normalize validRegex content chain.mSyncThisMegaignore⟩)
      else (.FLR_FAILED,
        chain.withFlag (flagAfter normalize validRegex content chain.mSyncThisMegaignore)) := by
  cases content with
  | none => rfl
  | some input =>
    obtain ⟨hloop, -⟩ := @loadLoop_flag normalize validRegex (readLines input)
      { mSyncThisMegaignore := false } chain.mSyncThisMegaignore
    have hstart : ({ mSyncThisMegaignore := false } : Loading).withFlag chain.mSyncThisMegaignore =
      { mSyncThisMegaignore := chain.mSyncThisMegaignore } := rfl
    rw [hstart] at hloop
    simp only [load, hloop]
    rfl

theorem load_succeeds_iff : (load normalize validRegex chain content).1 = .FLR_SUCCESS ↔
    Succeeds normalize validRegex content = true := by
  rw [load_eq]
  split_ifs with h
  · exact ⟨fun _ => h, fun _ => rfl⟩
  · exact ⟨fun hc => (nomatch hc), fun hc => absurd hc h⟩

/-! ## 7. Many loads -/

variable (normalize validRegex)

variable (contents : List (Option (List UInt8)))

/-- The chain behind some loads, one after the other. -/
def loads (chain : FilterChain) : FilterChain :=
  contents.foldl (fun chain content => (load normalize validRegex chain content).2) chain

variable {normalize validRegex}

/-- The flag of a run: the last directive that was read in any load, also in one that failed. -/
theorem flag_of_run (chain) :
    (loads normalize validRegex contents chain).mSyncThisMegaignore =
      ((contents.flatMap (directives normalize validRegex)).getLast?).getD
        chain.mSyncThisMegaignore := by
  induction contents generalizing chain with
  | nil => rfl
  | cons content contents ih =>
    have hflag : (load normalize validRegex chain content).2.mSyncThisMegaignore =
        flagAfter normalize validRegex content chain.mSyncThisMegaignore := by
      rw [load_eq]
      split <;> rfl
    rw [loads, foldl_cons, ← loads, ih, hflag, flagAfter, flatMap_cons,
      getLast?_append]
    cases (contents.flatMap (directives normalize validRegex)).getLast? with
    | _ => simp

/-- The filters of a run: those of the last load that succeeded. -/
theorem filters_of_run (chain) :
    ((loads normalize validRegex contents chain).mStringFilters,
        (loads normalize validRegex contents chain).mSizeFilter) =
      (((contents.filter (Succeeds normalize validRegex)).getLast?).map
        (filtersOf normalize validRegex)).getD (chain.mStringFilters, chain.mSizeFilter) := by
  induction contents generalizing chain with
  | nil => rfl
  | cons content contents ih =>
    rw [loads, foldl_cons, ← loads, ih, load_eq]
    split_ifs with h
    · rw [filter_cons_of_pos h, getLast?_cons]
      cases (contents.filter (Succeeds normalize validRegex)).getLast? with
      | _ => rfl
    · rw [filter_cons_of_neg h]
      rfl

/-! ## 8. All or nothing -/

/-- **All or nothing**: a load that does not succeed leaves the chain as it was, and behind one that
    succeeds the chain does not depend on what it was. -/
def Atomic (f : FilterChain → FilterLoadResult × FilterChain) : Prop :=
  (∀ chain, (f chain).1 ≠ .FLR_SUCCESS → (f chain).2 = chain) ∧
    ∀ chain chain', (f chain).1 = .FLR_SUCCESS → (f chain').1 = .FLR_SUCCESS →
      (f chain).2 = (f chain').2

/-- The flag behind a content is its own exactly if it has a directive. -/
theorem flagAfter_const_iff : (∀ b b', flagAfter normalize validRegex content b =
    flagAfter normalize validRegex content b') ↔ directives normalize validRegex content ≠ [] := by
  constructor
  · intro h hnil
    have hflag := h true false
    rw [flagAfter, flagAfter, hnil] at hflag
    exact nomatch hflag
  intro h b b'
  obtain ⟨l, x, hl⟩ := (eq_nil_or_concat _).resolve_left h
  rw [flagAfter, flagAfter, hl]
  simp

/-- And it is the one before exactly if it has none. -/
theorem flagAfter_id_iff : (∀ b, flagAfter normalize validRegex content b = b) ↔
    directives normalize validRegex content = [] := by
  constructor
  · intro h
    by_contra hne
    have hsame := flagAfter_const_iff.2 hne true false
    rw [h, h] at hsame
    exact nomatch hsame
  intro hnil b
  rw [flagAfter, hnil]
  rfl

theorem load_of_succeeds (h : Succeeds normalize validRegex content = true) (chain) :
    load normalize validRegex chain content = (.FLR_SUCCESS,
      ⟨(filtersOf normalize validRegex content).1, (filtersOf normalize validRegex content).2,
        flagAfter normalize validRegex content chain.mSyncThisMegaignore⟩) := by
  rw [load_eq, if_pos h]

theorem load_of_fails (h : Succeeds normalize validRegex content = false) (chain) :
    load normalize validRegex chain content = (.FLR_FAILED,
      chain.withFlag (flagAfter normalize validRegex content chain.mSyncThisMegaignore)) := by
  rw [load_eq, h]
  rfl

theorem withFlag_eq_self (chain : FilterChain) (b : Bool) :
    chain.withFlag b = chain ↔ b = chain.mSyncThisMegaignore := by
  constructor
  · intro h
    exact congrArg FilterChain.mSyncThisMegaignore h
  intro h
  rw [h]
  rfl

theorem atomic_load_iff : Atomic (load normalize validRegex · content) ↔
    (Succeeds normalize validRegex content = true ↔ directives normalize validRegex content ≠ []) := by
  cases h : Succeeds normalize validRegex content with
  | true =>
    rw [iff_true_left rfl, ← flagAfter_const_iff]
    simp only [Atomic, load_of_succeeds h]
    constructor
    · intro hatomic b b'
      have hsame := hatomic.2 { mSyncThisMegaignore := b } { mSyncThisMegaignore := b' } trivial
        trivial
      exact congrArg FilterChain.mSyncThisMegaignore hsame
    intro hconst
    refine ⟨fun _ => absurd rfl, fun chain chain' _ _ => ?_⟩
    rw [hconst chain.mSyncThisMegaignore chain'.mSyncThisMegaignore]
  | false =>
    rw [iff_false_left Bool.false_ne_true, not_not, ← flagAfter_id_iff]
    simp only [load_of_fails h]
    constructor
    · intro hatomic b
      exact (withFlag_eq_self _ _).1 (hatomic.1 { mSyncThisMegaignore := b } nofun)
    · intro hid
      exact ⟨fun chain _ => (withFlag_eq_self _ _).2 (hid _), nofun⟩

theorem loadFile_eq_load {fingerprinted : Bool}
    (h : Succeeds normalize validRegex content = true → fingerprinted = true) :
    loadFile normalize validRegex true fingerprinted content =
      (load normalize validRegex · content) := by
  funext chain
  simp only [loadFile, load_succeeds_iff, Bool.not_true, Bool.false_eq_true, if_false]
  refine if_neg fun hc => ?_
  rw [h hc.1] at hc
  exact nomatch hc.2

/-- A file that loads and cannot be fingerprinted: the load fails with its filters in place. -/
theorem not_atomic_unfingerprinted (h : Succeeds normalize validRegex content = true) :
    ¬ Atomic (loadFile normalize validRegex true false content) := by
  have hload : ∀ chain, loadFile normalize validRegex true false content chain = (.FLR_FAILED,
      ⟨(filtersOf normalize validRegex content).1, (filtersOf normalize validRegex content).2,
        flagAfter normalize validRegex content chain.mSyncThisMegaignore⟩) := by
    intro chain
    simp [loadFile, load_of_succeeds h]
  intro hatomic
  have hnone := hatomic.1 {} (by rw [hload]; exact nofun)
  have hsome := hatomic.1 { mSizeFilter := some {} } (by rw [hload]; exact nofun)
  rw [hload] at hnone hsome
  exact nomatch (congrArg FilterChain.mSizeFilter hnone).symm.trans
    (congrArg FilterChain.mSizeFilter hsome)

theorem atomic_loadFile_iff (opened fingerprinted : Bool) :
    Atomic (loadFile normalize validRegex opened fingerprinted content) ↔
      (opened = true → (Succeeds normalize validRegex content = true → fingerprinted = true) ∧
        (Succeeds normalize validRegex content = true ↔
          directives normalize validRegex content ≠ [])) := by
  cases opened with
  | false => exact ⟨fun _ h => (nomatch h), fun _ => ⟨fun _ _ => rfl, fun _ _ h => (nomatch h)⟩⟩
  | true =>
    by_cases hprint : Succeeds normalize validRegex content = true → fingerprinted = true
    · rw [loadFile_eq_load hprint, atomic_load_iff]
      exact ⟨fun h _ => ⟨hprint, h⟩, fun h => (h rfl).2⟩
    obtain ⟨hsucc, hno⟩ := Classical.not_imp.1 hprint
    rw [Bool.not_eq_true] at hno
    subst hno
    exact ⟨fun h => absurd h (not_atomic_unfingerprinted hsucc), fun h => absurd (h rfl).1 hprint⟩

/-- **A load is all or nothing** exactly when a content that loads has a directive and one that does
    not has none before the line that fails; a load from a path also has to get its fingerprint. -/
theorem load_atomic_iff (normalize : List UInt8 → List UInt8) (validRegex : List UInt8 → Bool → Bool)
    (content : Option (List UInt8)) :
    (Atomic (load normalize validRegex · content) ↔
      (Succeeds normalize validRegex content = true ↔
        directives normalize validRegex content ≠ [])) ∧
    ∀ opened fingerprinted, Atomic (loadFile normalize validRegex opened fingerprinted content) ↔
      (opened = true → (Succeeds normalize validRegex content = true → fingerprinted = true) ∧
        (Succeeds normalize validRegex content = true ↔
          directives normalize validRegex content ≠ [])) :=
  ⟨atomic_load_iff, atomic_loadFile_iff⟩

end Load

/-- `+sync:.megaignore`, and a line that is no filter: the load fails, and the flag is set. An empty
    file loads, and the flag is what it was. -/
theorem load_writes_through :
    let bad : List UInt8 := ch '+' :: syncMegaignore ++ [10, ch '?']
    load id (fun _ _ => true) {} (some bad) = (.FLR_FAILED, { mSyncThisMegaignore := true }) ∧
      ∀ b, load id (fun _ _ => true) { mSyncThisMegaignore := b } (some []) =
        (.FLR_SUCCESS, { mSyncThisMegaignore := b }) := by
  intro bad
  constructor
  · have hlines : readLines bad = [ch '+' :: syncMegaignore, [ch '?']] := by decide +kernel
    rfl
  · intro b
    rfl

end MegaSdk.Sync
