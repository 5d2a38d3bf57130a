/-
  File:      MegaSdk/Sync/Escapes.lean
  Subject:   NAMES A FILESYSTEM CANNOT HOLD (FileSystemAccess::escapefsincompatible and back).

  A name is its bytes.  The scan looks at the first byte of every UTF-8 sequence and steps over as
  many bytes as that byte announces, whatever they are.

  * `escapefsincompatible`, `unescapefsincompatible` -- the loops of the source over a string that
    they rewrite, with `islocalfscompatible` and `utf8SequenceSize`;
  * **`escapefsincompatible_compatible_iff`** -- nothing the filesystem cannot hold is left exactly
    when there is nothing of the kind among the skipped bytes; so for every name in UTF-8;
  * `Coded`, `unescapeLoop_coded` -- any way to write some bytes of a name as escapes is undone;
  * **`unescapefsincompatible_escapefsincompatible`** -- a name without escapes comes back.
-/
import MegaSdk.Base.Loop
import MegaSdk.Json.Escape
import MegaSdk.Sync.Names

namespace MegaSdk.Sync

open Base List UInt8
open Json (ch hexDigit)

/-! ## 1. The code -/

inductive FileSystemType where
  | unknown | apfs | hfs | ext | fat32 | exfat | ntfs | fuse | sdcardfs | f2fs | xfs | cifs | nfs
  | smb | smb2 | lifs
deriving DecidableEq, Repr

variable {c : UInt8} {type : FileSystemType} {n : Nat} {e s : List UInt8}

def iscntrl (c : UInt8) : Bool := c < 0x20 || c == 0x7F

def islocalfscompatible (c : UInt8) (type : FileSystemType) : Bool :=
  if c = 0 then false
  else
    match type with
    | .hfs => c != ch ':' && c != ch '/'
    | .apfs | .ext | .f2fs | .xfs => c != ch '/'
    | _ => !(iscntrl c || (Json.bytes "\\/:?\"<>|*").contains c)

def utf8SequenceSize (c : UInt8) : Nat :=
  if c ≤ 127 then 1
  else if c &&& 0xE0 = 0xC0 then 2
  else if c &&& 0xF0 = 0xE0 then 3
  else if c &&& 0xF8 = 0xF0 then 4
  else 1

def percent (c : UInt8) : List UInt8 :=
  [ch '%', hexDigit (c.toNat / 16), hexDigit (c.toNat % 16)]

/-- One round of `escapefsincompatible`: the name, rewritten in place, and the index. -/
def escapeRound (type : FileSystemType) (s : List UInt8 × Nat) : List UInt8 × Nat :=
  let c := s.1.getD s.2 0
  let utf8seqsize := utf8SequenceSize c
  (if utf8seqsize = 1 ∧ islocalfscompatible c type = false then
      s.1.take s.2 ++ percent c ++ s.1.drop (s.2 + 1)
    else s.1, s.2 + utf8seqsize)

/-- `while (i < name->size())`, with `n` evaluations of the condition at most. -/
def escapeLoop (type : FileSystemType) (n : Nat) (s : List UInt8 × Nat) :
    Option (List UInt8 × Nat) :=
  whileFuel (fun s => s.2 < s.1.length) (escapeRound type) n s

variable (name : List UInt8) (d : List UInt8)

def escapeTrailingDots : List UInt8 :=
  let trailingDots := (name.reverse.takeWhile (· == ch '.')).length
  name.take (name.length - trailingDots) ++
    (List.replicate trailingDots (Json.bytes "%2e")).flatten

def needsTrailingDotEscape (type : FileSystemType) : Bool := type = .fat32 || type = .exfat

def escapefsincompatible (type : FileSystemType) : Option (List UInt8) :=
  if name = Json.bytes ".." then some (Json.bytes "%2e%2e")
  else if name = Json.bytes "." then some (Json.bytes "%2e")
  else do
    -- a byte takes three rounds when it is replaced
    let s ← escapeLoop type (3 * name.length + 1) (name, 0)
    some (if needsTrailingDotEscape type then escapeTrailingDots s.1 else s.1)

def charInt (c : UInt8) : Int := c.toInt8.toInt

/-- `FileSystemAccess::decodeEscape`, from a pointer into the name on. -/
def decodeEscapeAt : List UInt8 → Option UInt8
  | c :: h :: l :: _ =>
    if c = ch '%' ∧ islchex_high (charInt h) = true ∧ islchex_low (charInt l) = true then
      some (UInt8.ofNat (hexval (charInt h) <<< 4 ||| hexval (charInt l)))
    else none
  | _ => none

/-- One round of `unescapefsincompatible`. -/
def unescapeRound (s : List UInt8 × Nat) : List UInt8 × Nat :=
  match decodeEscapeAt (s.1.drop s.2) with
  | some c => (s.1.take s.2 ++ [c] ++ s.1.drop (s.2 + 3), s.2 + 1)
  | none => (s.1, s.2 + 1)

def unescapeLoop (n : Nat) (s : List UInt8 × Nat) : Option (List UInt8 × Nat) :=
  whileFuel (fun s => s.2 < s.1.length) unescapeRound n s

def unescapefsincompatible : Option (List UInt8) :=
  if name = Json.bytes "%2e%2e" then some (Json.bytes "..")
  else if name = Json.bytes "%2e" then some (Json.bytes ".")
  else (unescapeLoop (name.length + 1) (name, 0)).map (·.1)

/-! ## 2. The scan -/

/-- What the scan writes, when the next `k` bytes are announced. -/
def coded (type : FileSystemType) : Nat → List UInt8 → List UInt8
  | _, [] => []
  | k + 1, c :: s => c :: coded type k s
  | 0, c :: s =>
    (if utf8SequenceSize c = 1 ∧ islocalfscompatible c type = false then percent c else [c]) ++
      coded type (utf8SequenceSize c - 1) s

def skipped : Nat → List UInt8 → List UInt8
  | _, [] => []
  | k + 1, c :: s => c :: skipped k s
  | 0, c :: s => skipped (utf8SequenceSize c - 1) s

theorem utf8SequenceSize_pos (c) : 0 < utf8SequenceSize c := by
  unfold utf8SequenceSize
  split
  · decide
  split
  · decide
  split
  · decide
  split <;> decide

/-- What filesystems cannot hold: control characters and some punctuation. -/
theorem incompatible_cases (h : islocalfscompatible c type = false) :
    iscntrl c = true ∨ c ∈ Json.bytes "\\/:?\"<>|*" := by
  have hslash : ch '/' ∈ Json.bytes "\\/:?\"<>|*" := by decide
  have hcolon : ch ':' ∈ Json.bytes "\\/:?\"<>|*" := by decide
  unfold islocalfscompatible at h
  split at h
  · rename_i h0
    exact .inl (h0 ▸ by decide)
  split at h
  · by_cases hc : c = ch ':'
    · exact .inr (hc ▸ hcolon)
    · have hs : c = ch '/' := by simpa [hc] using h
      exact .inr (hs ▸ hslash)
  all_goals first
    | exact .inr ((show c = ch '/' by simpa using h) ▸ hslash)
    | simpa only [Bool.not_eq_false', Bool.or_eq_true, contains_iff_mem] using h

theorem lt_of_incompatible (h : islocalfscompatible c type = false) : c < 0x80 := by
  rcases incompatible_cases h with h | h
  · simp only [iscntrl, Bool.or_eq_true, decide_eq_true_eq, beq_iff_eq] at h
    rcases h with h | rfl
    · exact UInt8.lt_trans h (by decide)
    · decide
  · have hall : (Json.bytes "\\/:?\"<>|*").all (· < 0x80) = true := by decide
    simpa using all_eq_true.1 hall c h

theorem compatible_hexDigit (h : n < 16) (type) :
    islocalfscompatible (hexDigit n) type = true ∧ utf8SequenceSize (hexDigit n) = 1 := by
  revert n
  cases type <;> decide

theorem compatible_percent (type) : islocalfscompatible (ch '%') type = true := by
  cases type <;> decide

theorem compatible_dot (type) : islocalfscompatible (ch '.') type = true := by
  cases type <;> decide

theorem escapeLoop_round (type c s) :
    escapeLoop type (n + 1) (d ++ c :: s, d.length) =
      escapeLoop type n
        (if utf8SequenceSize c = 1 ∧ islocalfscompatible c type = false then
            d ++ (percent c ++ s)
          else d ++ c :: s, d.length + utf8SequenceSize c) := by
  have hc : (d ++ c :: s).getD d.length 0 = c := by simp
  have htake : (d ++ c :: s).take d.length = d := take_left' rfl
  have hdrop : (d ++ c :: s).drop (d.length + 1) = s := by
    rw [← drop_drop, drop_left' rfl]
    rfl
  unfold escapeLoop
  rw [whileFuel, if_pos (by simp)]
  unfold escapeRound
  simp

theorem escapeLoop_keep (s) (hc : ¬(utf8SequenceSize c = 1 ∧ islocalfscompatible c type = false)) :
    escapeLoop type (n + 1) (d ++ c :: s, d.length) =
      escapeLoop type n ((d ++ [c]) ++ s, (d ++ [c]).length + (utf8SequenceSize c - 1)) := by
  have hpos := utf8SequenceSize_pos c
  rw [escapeLoop_round, if_neg hc, append_assoc, length_append, length_singleton,
    show d.length + 1 + (utf8SequenceSize c - 1) = d.length + utf8SequenceSize c by omega]
  rfl

/-- A byte that is replaced: the loop looks at the two digits before it goes on. -/
theorem escapeLoop_replace (s) (hc : utf8SequenceSize c = 1 ∧ islocalfscompatible c type = false) :
    escapeLoop type (n + 3) (d ++ c :: s, d.length) =
      escapeLoop type n ((d ++ percent c) ++ s, (d ++ percent c).length) := by
  have hlt := c.toNat_lt
  obtain ⟨hhi, hhi1⟩ := compatible_hexDigit (show c.toNat / 16 < 16 by omega) type
  obtain ⟨hlo, hlo1⟩ := compatible_hexDigit (show c.toNat % 16 < 16 by omega) type
  have h1 : d ++ (percent c ++ s) = (d ++ [ch '%']) ++ hexDigit (c.toNat / 16) ::
      hexDigit (c.toNat % 16) :: s := by simp [percent]
  rw [escapeLoop_round, if_pos hc, hc.1, h1,
    show d.length + 1 = (d ++ [ch '%']).length by simp,
    escapeLoop_keep _ _ (by simp [hhi]), hhi1, Nat.add_zero (List.length _),
    escapeLoop_keep _ _ (by simp [hlo]), hlo1]
  simp [percent]

/-- **The loop ends**, with what the scan writes. -/
theorem escapeLoop_eq (type : FileSystemType) (s d : List UInt8) {k : Nat} (hn : 3 * s.length < n) :
    ∃ i, escapeLoop type n (d ++ s, d.length + k) = some (d ++ coded type k s, i) := by
  induction s generalizing d k n with
  | nil =>
    obtain _ | n := n
    · omega
    refine ⟨d.length + k, ?_⟩
    unfold escapeLoop
    rw [whileFuel, if_neg (by simp), coded]
  | cons c s ih =>
    rw [length_cons] at hn
    cases k with
    | succ k =>
      obtain ⟨i, hi⟩ := ih (d ++ [c]) (k := k) (n := n) (by omega)
      refine ⟨i, ?_⟩
      rw [coded]
      simpa [Nat.add_assoc, Nat.add_comm 1 k] using hi
    | zero =>
      by_cases hc : utf8SequenceSize c = 1 ∧ islocalfscompatible c type = false
      · obtain ⟨n, rfl⟩ : ∃ n', n = n' + 3 := ⟨n - 3, by omega⟩
        obtain ⟨i, hi⟩ := ih (d ++ percent c) (k := 0) (n := n) (by omega)
        refine ⟨i, ?_⟩
        rwa [Nat.add_zero d.length, escapeLoop_replace d s hc, coded, if_pos hc, hc.1, ← append_assoc]
      obtain ⟨n, rfl⟩ : ∃ n', n = n' + 1 := ⟨n - 1, by omega⟩
      obtain ⟨i, hi⟩ := ih (d ++ [c]) (n := n) (by omega)
      refine ⟨i, ?_⟩
      rwa [Nat.add_zero d.length, escapeLoop_keep d s hc, coded, if_neg hc, ← append_assoc]

theorem escapeTrailingDots_spec :
    ∃ (t : List UInt8) (k : Nat), name = t ++ List.replicate k (ch '.') ∧
      escapeTrailingDots name = t ++ (List.replicate k (Json.bytes "%2e")).flatten := by
  have hsplit := takeWhile_append_dropWhile (p := (· == ch '.')) (l := name.reverse)
  have hdots : name.reverse.takeWhile (· == ch '.') =
      List.replicate (name.reverse.takeWhile (· == ch '.')).length (ch '.') :=
    eq_replicate_iff.2 ⟨rfl, fun c hc => by simpa using mem_takeWhile_imp hc⟩
  have hname : name = (name.reverse.dropWhile (· == ch '.')).reverse ++
      List.replicate (name.reverse.takeWhile (· == ch '.')).length (ch '.') := by
    have := congrArg List.reverse hsplit
    rw [hdots] at this
    simpa using this.symm
  refine ⟨_, _, hname, ?_⟩
  have htake : name.take (name.length - (name.reverse.takeWhile (· == ch '.')).length) =
      (name.reverse.dropWhile (· == ch '.')).reverse := by
    generalize (name.reverse.takeWhile (· == ch '.')).length = k at hname ⊢
    generalize (name.reverse.dropWhile (· == ch '.')).reverse = t at hname ⊢
    rw [hname]
    exact take_left' (by simp)
  unfold escapeTrailingDots
  simp only [htake]

/-! ## 3. What is left in a name -/

section

variable (hc : islocalfscompatible c type = false)
include hc

theorem not_mem_percent (a : UInt8) : c ∉ percent a := by
  have hlt := a.toNat_lt
  intro h
  have hok : islocalfscompatible c type = true := by
    simp only [percent, mem_cons, not_mem_nil, or_false] at h
    rcases h with rfl | rfl | rfl
    · exact compatible_percent type
    · exact (compatible_hexDigit (by omega) type).1
    · exact (compatible_hexDigit (by omega) type).1
  rw [hc] at hok
  exact Bool.false_ne_true hok

/-- A byte the filesystem cannot hold is left by the scan where it steps over it. -/
theorem mem_coded_iff (k : Nat) (s) : c ∈ coded type k s ↔ c ∈ skipped k s := by
  induction s generalizing k with
  | nil => cases k <;> exact .rfl
  | cons a s ih =>
    cases k with
    | succ k => rw [coded, skipped, mem_cons, mem_cons, ih]
    | zero =>
      rw [coded, mem_append, ih]
      refine or_iff_right ?_
      split_ifs with ha
      · exact not_mem_percent hc a
      rintro h
      rw [mem_singleton.1 h] at hc
      have hlt := lt_iff_toNat_lt.1 (lt_of_incompatible hc)
      have hle : a ≤ 127 := le_iff_toNat_le.2 (Nat.le_of_lt_succ hlt)
      exact ha ⟨by rw [utf8SequenceSize, if_pos hle], hc⟩

theorem mem_escapeTrailingDots_iff (name) : c ∈ escapeTrailingDots name ↔ c ∈ name := by
  obtain ⟨t, k, hname, hesc⟩ := escapeTrailingDots_spec name
  have hdot : c ∉ List.replicate k (ch '.') := fun h => by
    rw [(mem_replicate.1 h).2, compatible_dot] at hc
    exact Bool.false_ne_true hc.symm
  have hcode : c ∉ (List.replicate k (Json.bytes "%2e")).flatten := fun h => by
    obtain ⟨l, hl, hcl⟩ := mem_flatten.1 h
    rw [(mem_replicate.1 hl).2] at hcl
    exact not_mem_percent hc (ch '.') hcl
  rw [hesc, mem_append, or_iff_left hcode]
  conv_rhs => rw [hname, mem_append, or_iff_left hdot]

end

/-- `escapefsincompatible` ends, and leaves of what the filesystem cannot hold what the scan steps
over. -/
theorem escapefsincompatible_left (type) :
    ∃ out, escapefsincompatible name type = some out ∧
      ∀ c, islocalfscompatible c type = false → (c ∈ out ↔ c ∈ skipped 0 name) := by
  unfold escapefsincompatible
  split
  · subst_vars
    refine ⟨_, rfl, fun c hc => iff_of_false (fun h => ?_) not_mem_nil⟩
    rcases mem_append.1 (show c ∈ percent (ch '.') ++ percent (ch '.') from h) with h | h
    · exact not_mem_percent hc _ h
    · exact not_mem_percent hc _ h
  split
  · subst_vars
    exact ⟨_, rfl, fun c hc => iff_of_false (not_mem_percent hc (ch '.')) not_mem_nil⟩
  obtain ⟨i, hi⟩ := escapeLoop_eq type name [] (k := 0) (n := 3 * name.length + 1) (by omega)
  rw [length_nil, nil_append] at hi
  rw [hi]
  refine ⟨_, rfl, fun c hc => ?_⟩
  rw [← mem_coded_iff hc 0 name]
  split
  · exact mem_escapeTrailingDots_iff hc _
  · exact .rfl

/-- **What `escapefsincompatible` leaves**: it ends, and its result holds nothing that the
filesystem cannot hold exactly when none of the bytes that the scan steps over is of the kind. -/
theorem escapefsincompatible_compatible_iff (type : FileSystemType) :
    ∃ out, escapefsincompatible name type = some out ∧
      ((∀ c ∈ out, islocalfscompatible c type = true) ↔
        ∀ c ∈ skipped 0 name, islocalfscompatible c type = true) := by
  obtain ⟨out, hout, hleft⟩ := escapefsincompatible_left ..
  refine ⟨out, hout, fun h c hc => ?_, fun h c hc => ?_⟩
  · by_contra hbad
    exact hbad (h c ((hleft c (Bool.eq_false_iff.2 hbad)).2 hc))
  · by_contra hbad
    exact hbad (h c ((hleft c (Bool.eq_false_iff.2 hbad)).1 hc))

/-- A byte that announces another one, and a slash: the slash stays. -/
theorem escapefsincompatible_slash :
    escapefsincompatible [0xC3, ch '/'] .ext = some [0xC3, ch '/'] ∧
      islocalfscompatible (ch '/') .ext = false := by
  decide

/-- **In UTF-8 nothing of the kind is left**: there every byte that is announced is a continuation
byte. -/
theorem escapefsincompatible_utf8 {name} (h : ∀ c ∈ skipped 0 name, c &&& 0xC0 = 0x80) (type) :
    ∃ out, escapefsincompatible name type = some out ∧
      ∀ c ∈ out, islocalfscompatible c type = true := by
  obtain ⟨out, hout, hleft⟩ := escapefsincompatible_left ..
  refine ⟨out, hout, fun c hc => ?_⟩
  by_contra hbad
  have hinc := Bool.eq_false_iff.2 hbad
  have hlt := UInt8.lt_iff_toNat_lt.1 (lt_of_incompatible hinc)
  have hcont := congrArg UInt8.toNat (h c ((hleft c hinc).1 hc))
  rw [UInt8.toNat_and] at hcont
  have hle : c.toNat &&& (0xC0 : UInt8).toNat ≤ c.toNat := Nat.and_le_left
  rw [hcont] at hle
  exact absurd hlt hle.not_gt

theorem escapefsincompatible_utf8_umlaut : ∃ out,
    escapefsincompatible [0xC3, 0xBC, 0x3A] .ntfs = some out ∧
      ∀ c ∈ out, islocalfscompatible c .ntfs = true :=
  escapefsincompatible_utf8 (by decide +kernel) .ntfs

/-! ## 4. Escapes and back -/

/-- `e` is `s` with some of its bytes below 128 written as escapes. -/
inductive Coded : List UInt8 → List UInt8 → Prop where
  | nil : Coded [] []
  | keep {c : UInt8} {s e : List UInt8} : Coded s e → Coded (c :: s) (c :: e)
  | code {c : UInt8} {s e : List UInt8} : c < 0x80 → Coded s e → Coded (c :: s) (percent c ++ e)

theorem coded_coded (type) (k : Nat) (s) : Coded s (coded type k s) := by
  induction s generalizing k with
  | nil => cases k <;> exact .nil
  | cons c s ih =>
    cases k with
    | succ k => exact .keep (ih k)
    | zero =>
      rw [coded]
      split_ifs with hc
      · exact .code (lt_of_incompatible hc.2) (ih _)
      · exact .keep (ih _)

theorem hexDigit_spec (h : n < 16) :
    hexDigit n ≠ ch '.' ∧ hexDigit n ≠ ch '%' ∧ islchex_low (charInt (hexDigit n)) = true ∧
      hexval (charInt (hexDigit n)) = n ∧
      (n < 8 → islchex_high (charInt (hexDigit n)) = true) := by
  revert n
  decide

theorem decodeEscapeAt_percent (hc : c < 0x80) (e) : decodeEscapeAt (percent c ++ e) = some c := by
  have hlt : c.toNat < 128 := UInt8.lt_iff_toNat_lt.1 hc
  obtain ⟨-, -, -, hhi, hhigh⟩ := hexDigit_spec (show c.toNat / 16 < 16 by omega)
  obtain ⟨-, -, hlow, hlo, -⟩ := hexDigit_spec (show c.toNat % 16 < 16 by omega)
  show (if ch '%' = ch '%' ∧ _ then _ else _) = _
  rw [if_pos ⟨rfl, hhigh (by omega), hlow⟩, hhi, hlo,
    ← Nat.shiftLeft_add_eq_or_of_lt (by omega), Nat.shiftLeft_eq,
    show c.toNat / 16 * 2 ^ 4 + c.toNat % 16 = c.toNat by omega, UInt8.ofNat_toNat]

/-- No escape begins where none did: the text of an escape begins with a percent sign, which is no
digit. -/
theorem decodeEscapeAt_keep (h : Coded s e) (hs : decodeEscapeAt (c :: s) = none) :
    decodeEscapeAt (c :: e) = none := by
  have hhigh : islchex_high (charInt (ch '%')) = false := by decide
  have hlow : islchex_low (charInt (ch '%')) = false := by decide
  cases h with
  | nil => rfl
  | keep h =>
    cases h with
    | nil => rfl
    | keep h => exact hs
    | code => simp [percent, decodeEscapeAt, hlow]
  | code => simp [percent, decodeEscapeAt, hhigh]

theorem Coded.trailingDots (h : Coded s e) :
    ∀ {t : List UInt8} {k : Nat}, e = t ++ List.replicate k (ch '.') →
      Coded s (t ++ (List.replicate k (percent (ch '.'))).flatten) := by
  induction h with
  | nil =>
    intro t k he
    obtain ⟨rfl, hk⟩ := append_eq_nil_iff.1 he.symm
    rw [replicate_eq_nil_iff] at hk
    subst hk
    exact .nil
  | @keep c s e _ ih =>
    intro t k he
    cases t with
    | nil =>
      cases k with
      | zero => exact nomatch he
      | succ k =>
        rw [nil_append, replicate_succ, List.cons.injEq] at he
        obtain ⟨rfl, he⟩ := he
        exact .code (by decide) (ih (t := []) he)
    | cons a t =>
      rw [cons_append, List.cons.injEq] at he
      obtain ⟨rfl, he⟩ := he
      exact .keep (ih he)
  | @code c s e hc _ ih =>
    intro t k he
    have hlt := c.toNat_lt
    obtain ⟨hhi, -⟩ := hexDigit_spec (show c.toNat / 16 < 16 by omega)
    obtain ⟨hlo, -⟩ := hexDigit_spec (show c.toNat % 16 < 16 by omega)
    -- the dots cannot reach into the escape
    have hdot : ∀ {a : UInt8} {l : List UInt8}, a ≠ ch '.' →
        a :: l ≠ List.replicate k (ch '.') := fun ha h =>
      ha (eq_of_mem_replicate (h ▸ mem_cons_self))
    match t, he with
    | [], he => exact absurd he (hdot (by decide))
    | [a], he =>
      simp only [percent, cons_append, List.cons.injEq] at he
      exact absurd he.2 (hdot hhi)
    | [a, b], he =>
      simp only [percent, cons_append, List.cons.injEq] at he
      exact absurd he.2.2 (hdot hlo)
    | a :: b :: d :: t, he =>
      simp only [percent, cons_append, List.cons.injEq] at he
      obtain ⟨rfl, rfl, rfl, he⟩ := he
      exact .code hc (ih he)

/-- **Every such text is undone** by the loop of `unescapefsincompatible`. -/
theorem unescapeLoop_coded (h : Coded s e) (hs : ∀ i, decodeEscapeAt (s.drop i) = none)
    (d : List UInt8) (hn : s.length < n) :
    unescapeLoop n (d ++ e, d.length) = some (d ++ s, d.length + s.length) := by
  induction h generalizing d n with
  | nil =>
    obtain _ | n := n
    · omega
    unfold unescapeLoop
    rw [whileFuel, if_neg (by simp)]
    rfl
  | @keep c s e h ih =>
    obtain _ | n := n
    · omega
    have hdrop : (d ++ c :: e).drop d.length = c :: e := drop_left' rfl
    have hround : unescapeRound (d ++ c :: e, d.length) = ((d ++ [c]) ++ e, (d ++ [c]).length) := by
      unfold unescapeRound
      simp only [hdrop, decodeEscapeAt_keep h (hs 0)]
      simp
    have hrest := ih (fun i => hs (i + 1)) (d ++ [c]) (by simpa using hn)
    unfold unescapeLoop at hrest ⊢
    rw [whileFuel, hround, hrest]
    simp [Nat.add_assoc, Nat.add_comm 1]
  | @code c s e hc h ih =>
    obtain _ | n := n
    · omega
    have hdrop : (d ++ (percent c ++ e)).drop d.length = percent c ++ e := drop_left' rfl
    have hround : unescapeRound (d ++ (percent c ++ e), d.length) =
        ((d ++ [c]) ++ e, (d ++ [c]).length) := by
      unfold unescapeRound
      simp only [hdrop, decodeEscapeAt_percent hc]
      rw [← drop_drop, hdrop, take_left' rfl, length_append]
      rfl
    have hrest := ih (fun i => hs (i + 1)) (d ++ [c]) (by simpa using hn)
    unfold unescapeLoop at hrest ⊢
    rw [whileFuel, if_pos (by simp [percent]), hround, hrest]
    simp [Nat.add_assoc, Nat.add_comm 1]

/-- The two names that `unescapefsincompatible` treats by themselves are undone by its loop, too. -/
theorem unescapefsincompatible_of_loop {i : Nat}
    (h : unescapeLoop (e.length + 1) (e, 0) = some (s, i)) : unescapefsincompatible e = some s := by
  unfold unescapefsincompatible
  split
  · subst_vars
    cases h
    rfl
  split
  · subst_vars
    cases h
    rfl
  · rw [h]
    rfl

theorem Coded.length_le (h : Coded s e) : s.length ≤ e.length := by
  induction h with
  | nil => exact le_rfl
  | keep _ ih => exact Nat.succ_le_succ ih
  | code _ _ ih =>
    rw [length_append]
    simp only [percent, length_cons]
    omega

/-- What `escapefsincompatible` makes of a name is the name with some of its bytes as escapes. -/
theorem escapefsincompatible_coded (type) :
    ∃ e, escapefsincompatible name type = some e ∧ Coded name e := by
  have hdot : ch '.' < 0x80 := by decide
  unfold escapefsincompatible
  split
  · subst_vars
    exact ⟨_, rfl, .code hdot (.code hdot .nil)⟩
  split
  · subst_vars
    exact ⟨_, rfl, .code hdot .nil⟩
  obtain ⟨i, hi⟩ := escapeLoop_eq type name [] (k := 0) (n := 3 * name.length + 1) (by omega)
  rw [nil_append, length_nil, nil_append] at hi
  rw [hi]
  refine ⟨_, rfl, ?_⟩
  have hcoded := coded_coded type 0 name
  split
  · obtain ⟨t, k, hname, hesc⟩ := escapeTrailingDots_spec (coded type 0 name)
    simp only [hesc]
    exact hcoded.trailingDots hname
  · exact hcoded

/-- **A name without escapes comes back**, from every filesystem's spelling of it. -/
theorem unescapefsincompatible_escapefsincompatible
    (h : ∀ i, decodeEscapeAt (name.drop i) = none) (type : FileSystemType) :
    (escapefsincompatible name type).bind unescapefsincompatible = some name := by
  obtain ⟨e, he, hcoded⟩ := escapefsincompatible_coded name type
  have hlen := hcoded.length_le
  have hloop := unescapeLoop_coded hcoded h [] (n := e.length + 1) (by omega)
  rw [he]
  exact unescapefsincompatible_of_loop hloop

/-- A NUL, a percent sign in front of a colon, and trailing dots. -/
theorem unescapefsincompatible_escapefsincompatible_mixed :
    (escapefsincompatible (0 :: Json.bytes "%:2f..") .fat32).bind unescapefsincompatible =
      some (0 :: Json.bytes "%:2f..") := by
  refine unescapefsincompatible_escapefsincompatible _ (fun i => ?_) _
  by_cases hi : i < 8
  · revert i
    decide
  · rw [drop_eq_nil_of_le (le_trans (by decide) (not_lt.1 hi))]
    rfl

end MegaSdk.Sync
