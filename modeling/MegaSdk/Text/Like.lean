/-
  File:      MegaSdk/Text/Like.lean
  Subject:   `likeCompare` AND `icuLikeCompare` (utils.cpp), the matcher behind the search by name.

  A pointer is the list of the bytes from it on, with the terminator as the last one; the empty list
  is a pointer behind the terminator, and a read there is outside the string.

  * `foldCaseAccentEqual` -- two code points compared through buffers of eight, filled with zeros;
  * `like` -- the same on code points: the text is `none` once its terminator has been consumed;
  * `icuLikeCompare_like` -- **the matcher is `like`**, on every pattern, text and escape character.
-/
import MegaSdk.Base.Bytes
import MegaSdk.Text.CaseMap

namespace MegaSdk.Like

open List

open CaseMap (utfCont low6 utf8proc_encode_char)

variable {c k n : Nat} {ps t s : List Nat} {text : Option (List Nat)}

/-! ## 1. Reading code points -/

/-- The values of the first bytes from `0xc0` on. -/
def icuUtf8Trans1 : List Nat :=
  [0x00, 0x01, 0x02, 0x03, 0x04, 0x05, 0x06, 0x07,
   0x08, 0x09, 0x0a, 0x0b, 0x0c, 0x0d, 0x0e, 0x0f,
   0x10, 0x11, 0x12, 0x13, 0x14, 0x15, 0x16, 0x17,
   0x18, 0x19, 0x1a, 0x1b, 0x1c, 0x1d, 0x1e, 0x1f,
   0x00, 0x01, 0x02, 0x03, 0x04, 0x05, 0x06, 0x07,
   0x08, 0x09, 0x0a, 0x0b, 0x0c, 0x0d, 0x0e, 0x0f,
   0x00, 0x01, 0x02, 0x03, 0x04, 0x05, 0x06, 0x07,
   0x00, 0x01, 0x02, 0x03, 0x00, 0x01, 0x00, 0x00]

/-- A continuation byte joined to a code point of 32 bits. -/
def joinCont (c : Nat) (b : UInt8) : Nat := (c * 64 + low6 b) % 2 ^ 32

/-- The loop of `SQLITE_ICU_READ_UTF8`; `none` is a read outside. -/
def readCont : Nat → List UInt8 → Option (Nat × List UInt8)
  | _, [] => none
  | c, b :: zIn => if utfCont b then readCont (joinCont c b) zIn else some (c, b :: zIn)

/-- `SQLITE_ICU_READ_UTF8`: the code point, and the pointer behind it. -/
def readUtf8 : List UInt8 → Option (Nat × List UInt8)
  | [] => none
  | b :: zIn =>
    if 0xc0 ≤ b.toNat then readCont (icuUtf8Trans1.getD (b.toNat - 0xc0) 0) zIn
    else some (b.toNat, zIn)

/-- The loop of `SQLITE_ICU_SKIP_UTF8`. -/
def skipCont : List UInt8 → Option (List UInt8)
  | [] => none
  | b :: zIn => if utfCont b then skipCont zIn else some (b :: zIn)

def skipUtf8 : List UInt8 → Option (List UInt8)
  | [] => none
  | b :: zIn => if 0xc0 ≤ b.toNat then skipCont zIn else some zIn

/-! ## 2. The matcher -/

def buffer (l : List Nat) : List Nat := (l ++ List.replicate 8 0).take 8

/-- `foldCaseAccentEqual`, with the table of `utf8proc_decompose_char` (`none` is an error) and
    `u_foldCase`. The fallback compares `codePoint1` with itself. -/
def foldCaseAccentEqual (decompose : Bool → Nat → Option (List Nat)) (u_foldCase : Nat → Nat)
    (codePoint1 codePoint2 : Nat) (stripAccents : Bool) : Bool :=
  match decompose stripAccents codePoint1, decompose stripAccents codePoint2 with
  | some l₁, some l₂ => buffer l₁ == buffer l₂
  | _, _ => u_foldCase codePoint1 == u_foldCase codePoint1

abbrev matchOne : Nat := 63

abbrev matchAll : Nat := 42

inductive Outcome
  | unfinished
  | outside
  | result (b : Bool)
  deriving DecidableEq

/-- How the first loop of Case 1 ends: by a read outside, by `return 0`, or with its two pointers. -/
inductive Skipped
  | outside
  | short
  | pointers (zPattern zString : List UInt8)

/-- The first loop of Case 1, over the wildcards behind a match-all. -/
def skipWildcards : List UInt8 → List UInt8 → Skipped
  | [], _ => .outside
  | c :: zPattern, zString =>
    if c.toNat = matchAll then skipWildcards zPattern zString
    else if c.toNat = matchOne then
      match zString with
      | [] => .outside
      | b :: rest =>
        if b = 0 then .short
        else match skipUtf8 (b :: rest) with
          | none => .outside
          | some zString => skipWildcards zPattern zString
    else .pointers (c :: zPattern) zString

/-- The second loop of Case 1: the rest of the pattern is tried at every place of the text. -/
def tryFrom (compare : List UInt8 → Outcome) : Nat → List UInt8 → Outcome
  | _, [] => .outside
  | 0, _ :: _ => .unfinished
  | fuel + 1, b :: rest =>
    if b = 0 then .result false
    else match compare (b :: rest) with
      | .result false =>
        match skipUtf8 (b :: rest) with
        | none => .outside
        | some zString => tryFrom compare fuel zString
      | r => r

/-- Case 1, over the recursive call. -/
def afterMatchAll (compare : List UInt8 → List UInt8 → Outcome) (zPattern zString : List UInt8) :
    Outcome :=
  match skipWildcards zPattern zString with
  | .outside => .outside
  | .short => .result false
  | .pointers zPattern zString =>
    if zPattern.headD 0 = 0 then .result true
    else tryFrom (compare zPattern) zString.length zString

/-- `icuLikeCompare` from one round of its loop on; every round and every call inside consumes a
    byte of the pattern. -/
def icuLikeCompare (fold : Nat → Nat → Bool) (uEsc : Nat) :
    Nat → Bool → List UInt8 → List UInt8 → Outcome
  | 0, _, _, _ => .unfinished
  | fuel + 1, prevEscape, zPattern, zString =>
    match readUtf8 zPattern with
    | none => .outside
    | some (uPattern, zPattern) =>
      if uPattern = 0 then
        match zString with
        | [] => .outside
        | b :: _ => .result (b == 0)
      else if uPattern = matchAll ∧ prevEscape = false ∧ uPattern ≠ uEsc then
        afterMatchAll (icuLikeCompare fold uEsc fuel false) zPattern zString
      else if uPattern = matchOne ∧ prevEscape = false ∧ uPattern ≠ uEsc then
        match zString with
        | [] => .outside
        | b :: rest =>
          if b = 0 then .result false
          else match skipUtf8 (b :: rest) with
            | none => .outside
            | some zString => icuLikeCompare fold uEsc fuel prevEscape zPattern zString
      else if uPattern = uEsc ∧ prevEscape = false then
        icuLikeCompare fold uEsc fuel true zPattern zString
      else
        match readUtf8 zString with
        | none => .outside
        | some (uString, zString) =>
          if fold uString uPattern then icuLikeCompare fold uEsc fuel false zPattern zString
          else .result false

def likeCompare (decompose : Bool → Nat → Option (List Nat)) (u_foldCase : Nat → Nat)
    (pattern str : List UInt8) (esc : Nat) (stripAccents : Bool) : Outcome :=
  icuLikeCompare (fun c₁ c₂ => foldCaseAccentEqual decompose u_foldCase c₁ c₂ stripAccents) esc
    pattern.length false pattern str

/-! ## 3. Strings in UTF-8 -/

/-- A code point of a C string. -/
def Scalar (c : Nat) : Prop := 0 < c ∧ c < 0x110000 ∧ ¬(0xd800 ≤ c ∧ c < 0xe000)

instance (c : Nat) : Decidable (Scalar c) := inferInstanceAs (Decidable (_ ∧ _))

def cString (s : List Nat) : List UInt8 := (s.flatMap fun c => utf8proc_encode_char c) ++ [0]

theorem cString_cons (c s) : cString (c :: s) = utf8proc_encode_char c ++ cString s := by
  simp [cString]

/-- A code point in bytes: itself, or a first byte of the table with continuation bytes. -/
inductive Encoded (c : Nat) : List UInt8 → Prop
  | ascii (hc : c < 0x80) : Encoded c [UInt8.ofNat c]
  | long {k : Nat} {l : List UInt8} (hk : k < 64) (hc : 0x80 ≤ c) (hl : ∀ b ∈ l, utfCont b = true)
      (hv : l.foldl joinCont (icuUtf8Trans1.getD k 0) = c) : Encoded c (UInt8.ofNat (0xc0 + k) :: l)

theorem cont_byte (hk : k < 64) :
    utfCont (UInt8.ofNat (0x80 + k)) = true ∧ low6 (UInt8.ofNat (0x80 + k)) = k := by
  revert k
  decide +kernel

theorem trans1_two (hk : k < 32) : icuUtf8Trans1.getD k 0 = k := by
  revert k
  decide

theorem trans1_three (hk : k < 16) : icuUtf8Trans1.getD (32 + k) 0 = k := by
  revert k
  decide

theorem trans1_four (hk : k < 5) : icuUtf8Trans1.getD (48 + k) 0 = k := by
  revert k
  decide

theorem encoded (hc : c < 0x110000) : Encoded c (utf8proc_encode_char c) := by
  have h0 := cont_byte (k := c % 64) (Nat.mod_lt _ (by decide))
  have h1 := cont_byte (k := c / 64 % 64) (Nat.mod_lt _ (by decide))
  have h2 := cont_byte (k := c / 4096 % 64) (Nat.mod_lt _ (by decide))
  simp only [utf8proc_encode_char, Int.toNat_natCast]
  rw [if_neg (by omega)]
  by_cases hone : c < 0x80
  · rw [if_pos (by omega)]
    exact .ascii hone
  rw [if_neg (by omega)]
  by_cases htwo : c < 0x800
  · rw [if_pos (by omega)]
    refine .long (by omega) (by omega) (forall_mem_singleton.2 h0.1) ?_
    rw [trans1_two (by omega)]
    simp only [foldl_cons, foldl_nil, joinCont]
    omega
  rw [if_neg (by omega)]
  by_cases hthree : c < 0x10000
  · rw [if_pos (by omega), show 0xE0 + c / 4096 = 0xc0 + (32 + c / 4096) by omega]
    refine .long (by omega) (by omega)
      (forall_mem_cons.2 ⟨h1.1, forall_mem_singleton.2 h0.1⟩) ?_
    rw [trans1_three (by omega)]
    simp only [foldl_cons, foldl_nil, joinCont]
    omega
  rw [if_neg (by omega), if_pos (by omega),
    show 0xF0 + c / 262144 = 0xc0 + (48 + c / 262144) by omega]
  refine .long (by omega) (by omega) (forall_mem_cons.2
    ⟨h2.1, forall_mem_cons.2 ⟨h1.1, forall_mem_singleton.2 h0.1⟩⟩) ?_
  rw [trans1_four (by omega)]
  simp only [foldl_cons, foldl_nil, joinCont]
  omega

theorem ascii_byte (hc : c < 0x80) :
    utfCont (UInt8.ofNat c) = false ∧ (UInt8.ofNat c).toNat = c := by
  revert c
  decide +kernel

theorem lead_byte (hk : k < 64) :
    utfCont (UInt8.ofNat (0xc0 + k)) = false ∧ (UInt8.ofNat (0xc0 + k)).toNat = 0xc0 + k := by
  revert k
  decide +kernel

theorem cString_head (hs : ∀ c ∈ s, Scalar c) : ∃ b l, cString s = b :: l ∧ utfCont b = false := by
  cases s with
  | nil => exact ⟨0, [], rfl, by decide⟩
  | cons c s =>
    have henc := encoded (hs c mem_cons_self).2.1
    rw [cString_cons]
    generalize utf8proc_encode_char c = l at henc
    cases henc with
    | ascii hc => exact ⟨_, _, rfl, (ascii_byte hc).1⟩
    | long hk _ _ _ => exact ⟨_, _, rfl, (lead_byte hk).1⟩

theorem readCont_append {l rest : List UInt8} {b : UInt8} (hl : ∀ b ∈ l, utfCont b = true)
    (hb : utfCont b = false) (n) :
    readCont n (l ++ b :: rest) = some (l.foldl joinCont n, b :: rest) := by
  induction l generalizing n with
  | nil => simp [readCont, hb]
  | cons d l ih =>
    rw [cons_append, readCont, if_pos (hl d mem_cons_self)]
    exact ih (fun b hb => hl b (mem_cons_of_mem _ hb)) _

theorem skipCont_append {l rest : List UInt8} {b : UInt8} (hl : ∀ b ∈ l, utfCont b = true)
    (hb : utfCont b = false) : skipCont (l ++ b :: rest) = some (b :: rest) := by
  induction l with
  | nil => simp [skipCont, hb]
  | cons d l ih =>
    rw [cons_append, skipCont, if_pos (hl d mem_cons_self)]
    exact ih fun b hb => hl b (mem_cons_of_mem _ hb)

/-- What the bytes of a text with a first code point are: the first byte is the code point when that
    is a character of ASCII, and both macros move behind the code point. -/
structure Front (c : Nat) (s : List Nat) (b : UInt8) (l : List UInt8) : Prop where
  eq : cString (c :: s) = b :: l
  ne_zero : b ≠ 0
  ascii : c < 0x80 → b.toNat = c ∧ l = cString s
  long : 0x80 ≤ c → 0xc0 ≤ b.toNat
  read : readUtf8 (b :: l) = some (c, cString s)
  skip : skipUtf8 (b :: l) = some (cString s)

theorem cString_front {s : List Nat} (hc : Scalar c) (hs : ∀ c ∈ s, Scalar c) :
    ∃ b l, Front c s b l := by
  obtain ⟨d, rest, hrest, hd⟩ := cString_head hs
  have henc := encoded hc.2.1
  have heq := cString_cons c s
  generalize utf8proc_encode_char c = bytes at henc heq
  cases henc with
  | ascii hlt =>
    have hb := (ascii_byte hlt).2
    refine ⟨UInt8.ofNat c, cString s, heq, ?_, fun _ => ⟨hb, rfl⟩, fun h => by omega, ?_, ?_⟩
    · intro h0
      rw [h0] at hb
      exact hc.1.ne hb
    · rw [readUtf8, if_neg (by omega), hb]
    · rw [skipUtf8, if_neg (by omega)]
  | @long k l hk hge hl hv =>
    have hb := (lead_byte hk).2
    refine ⟨UInt8.ofNat (0xc0 + k), l ++ cString s, heq, ?_, fun h => by omega, fun _ => by omega,
      ?_, ?_⟩
    · intro h0
      rw [h0, UInt8.toNat_zero] at hb
      omega
    · rw [readUtf8, if_pos (by omega), hrest, readCont_append hl hd, hb, Nat.add_sub_cancel_left, hv]
    · rw [skipUtf8, if_pos (by omega), hrest, skipCont_append hl hd]

/-! ## 4. The matcher on code points -/

/-- Where the matcher stands in the pattern: behind an ordinary code point, behind an escape
    character, or behind a match-all. -/
inductive Mode
  | normal
  | escaped
  | run
  deriving DecidableEq

/-- The second loop of Case 1. -/
def search (f : List Nat → Option Bool) : List Nat → Option Bool
  | [] => some false
  | s :: t =>
    match f (s :: t) with
    | some false => search f t
    | r => r

def skipOne (k : Option (List Nat) → Option Bool) : Option (List Nat) → Option Bool
  | none => none
  | some [] => some false
  | some (_ :: t) => k (some t)

section Like

variable {κ : Type*} [DecidableEq κ] (key : Nat → κ) (esc : Nat)

/-- A code point of the text is compared, or the terminator, which is consumed then. -/
def compareOne (c : Nat) (k : Option (List Nat) → Option Bool) : Option (List Nat) → Option Bool
  | none => none
  | some [] => if key 0 = key c then k none else some false
  | some (s :: t) => if key s = key c then k (some t) else some false

def step (c : Nat) (prevEscape : Bool) (k : Mode → Option (List Nat) → Option Bool)
    (text : Option (List Nat)) : Option Bool :=
  if c = matchAll ∧ prevEscape = false ∧ c ≠ esc then k .run text
  else if c = matchOne ∧ prevEscape = false ∧ c ≠ esc then skipOne (k .normal) text
  else if c = esc ∧ prevEscape = false then k .escaped text
  else compareOne key c (k .normal) text

/-- The matcher; `none` is a read outside. -/
def like : Mode → List Nat → Option (List Nat) → Option Bool
  | .run, [], _ => some true
  | .normal, [], text => text.map List.isEmpty
  | .escaped, [], text => text.map List.isEmpty
  | .normal, c :: ps, text => step key esc c false (fun m => like m ps) text
  | .escaped, c :: ps, text => step key esc c true (fun m => like m ps) text
  | .run, c :: ps, text =>
    if c = matchAll then like .run ps text
    else if c = matchOne then skipOne (like .run ps) text
    else text.bind (search fun t => step key esc c false (fun m => like m ps) (some t))

end Like

/-! ## 5. The matcher is `like` -/

def pointer : Option (List Nat) → List UInt8
  | none => []
  | some t => cString t

def Outcome.ofOption : Option Bool → Outcome
  | none => .outside
  | some b => .result b

def TextOk (text : Option (List Nat)) : Prop := ∀ t, text = some t → ∀ c ∈ t, Scalar c

theorem TextOk.tail {s : Nat} (h : TextOk (some (s :: t))) : TextOk (some t) := by
  intro t' ht c hc
  cases ht
  exact h _ rfl c (mem_cons_of_mem _ hc)

theorem textOk_none : TextOk none := nofun

theorem TextOk.front {s : Nat} (h : TextOk (some (s :: t))) : ∃ b l, Front s t b l :=
  cString_front (h _ rfl s mem_cons_self) (h.tail _ rfl)

theorem tryFrom_search {compare : List UInt8 → Outcome} {f : List Nat → Option Bool}
    (ht : TextOk (some t)) (hf : ∀ t, TextOk (some t) → compare (cString t) = .ofOption (f t))
    (hn : t.length < n) : tryFrom compare n (cString t) = .ofOption (search f t) := by
  induction t generalizing n with
  | nil =>
    obtain ⟨n, rfl⟩ := Nat.exists_eq_add_of_lt hn
    rfl
  | cons s t ih =>
    obtain ⟨b, l, hb⟩ := ht.front
    obtain ⟨n, rfl⟩ : ∃ m, n = m + 1 := ⟨n - 1, by omega⟩
    have hfst := hf (s :: t) ht
    rw [hb.eq] at hfst ⊢
    rw [tryFrom, if_neg hb.ne_zero, hfst, search]
    cases hv : f (s :: t) with
    | none => rfl
    | some r =>
      cases r with
      | true => rfl
      | false =>
        simp only [hb.skip]
        exact ih ht.tail (by simpa using hn)

theorem length_lt_cString (ht : ∀ c ∈ t, Scalar c) : t.length < (cString t).length := by
  induction t with
  | nil => decide
  | cons c t ih =>
    have htail := ih fun d hd => ht d (mem_cons_of_mem _ hd)
    have hpos : 0 < (utf8proc_encode_char c).length := by
      have henc := encoded (ht c mem_cons_self).2.1
      generalize utf8proc_encode_char c = bytes at henc
      cases henc with
      | ascii _ => exact Nat.zero_lt_one
      | long _ _ _ _ => exact Nat.succ_pos _
    rw [cString_cons, length_append, length_cons]
    omega

section Simulation

variable {κ : Type*} [DecidableEq κ] {key : Nat → κ} {fold : Nat → Nat → Bool} {uEsc : Nat}

/-- What both halves say at a pattern: the loop at either value of `prevEscape`, and Case 1. -/
structure Simulates (key : Nat → κ) (fold : Nat → Nat → Bool) (uEsc : Nat) (ps : List Nat) : Prop where
  normal : ∀ n text, ps.length < n → TextOk text →
    icuLikeCompare fold uEsc n false (cString ps) (pointer text) =
      .ofOption (like key uEsc .normal ps text)
  escaped : ∀ n text, ps.length < n → TextOk text →
    icuLikeCompare fold uEsc n true (cString ps) (pointer text) =
      .ofOption (like key uEsc .escaped ps text)
  run : ∀ n text, ps.length < n → TextOk text →
    afterMatchAll (icuLikeCompare fold uEsc n false) (cString ps) (pointer text) =
      .ofOption (like key uEsc .run ps text)

theorem icuLikeCompare_nil (hn : 0 < n) (prevEscape : Bool) (ht : TextOk text) :
    icuLikeCompare fold uEsc n prevEscape (cString []) (pointer text) =
      .ofOption (text.map List.isEmpty) := by
  obtain ⟨n, rfl⟩ : ∃ m, n = m + 1 := ⟨n - 1, by omega⟩
  have hread : readUtf8 (cString []) = some (0, []) := by decide
  simp only [icuLikeCompare, hread]
  match text, ht with
  | none, _ => rfl
  | some [], _ => rfl
  | some (s :: t), ht =>
    obtain ⟨b, l, hb⟩ := ht.front
    simp only [pointer, hb.eq]
    simp [Outcome.ofOption, hb.ne_zero]

theorem simulates_nil : Simulates key fold uEsc [] where
  normal := fun _ _ hn => icuLikeCompare_nil hn false
  escaped := fun _ _ hn => icuLikeCompare_nil hn true
  run := fun _ _ _ _ => rfl

variable (hfold : ∀ s c, (s = 0 ∨ Scalar s) → Scalar c → fold s c = decide (key s = key c))

include hfold in
theorem icuLikeCompare_step (hc : Scalar c) (hps : ∀ c ∈ ps, Scalar c)
    (ih : Simulates key fold uEsc ps) (hn : ps.length < n) (prevEscape : Bool) (ht : TextOk text) :
    icuLikeCompare fold uEsc (n + 1) prevEscape (cString (c :: ps)) (pointer text) =
      .ofOption (step key uEsc c prevEscape (fun m => like key uEsc m ps) text) := by
  obtain ⟨b, l, hb⟩ := cString_front hc hps
  rw [hb.eq]
  simp only [icuLikeCompare, hb.read, step]
  rw [if_neg hc.1.ne']
  split
  · exact ih.run n text hn ht
  split
  · rename_i hone
    rw [hone.2.1]
    match text, ht with
    | none, _ => rfl
    | some [], _ => rfl
    | some (s :: t), ht =>
      obtain ⟨d, rest, hd⟩ := ht.front
      simp only [pointer, hd.eq, hd.skip, if_neg hd.ne_zero]
      exact ih.normal n (some t) hn ht.tail
  split
  · exact ih.escaped n text hn ht
  match text, ht with
  | none, _ => rfl
  | some [], _ =>
    have hread : readUtf8 (cString []) = some (0, []) := by decide
    simp only [pointer, hread, hfold 0 c (.inl rfl) hc, compareOne, decide_eq_true_eq]
    split
    · exact ih.normal n none hn textOk_none
    · rfl
  | some (s :: t), ht =>
    obtain ⟨d, rest, hd⟩ := ht.front
    have hs : Scalar s := ht _ rfl s mem_cons_self
    simp only [pointer, hd.eq, hd.read, hfold s c (.inr hs) hc, compareOne, decide_eq_true_eq]
    split
    · exact ih.normal n (some t) hn ht.tail
    · rfl

/-- Behind a match-all: the wildcards are skipped, and the rest is searched. -/
theorem afterMatchAll_cons (hc : Scalar c) (hps : ∀ c ∈ ps, Scalar c)
    (ih : Simulates key fold uEsc ps) (hn : ps.length < n) (hstep : ∀ text, TextOk text →
      icuLikeCompare fold uEsc n false (cString (c :: ps)) (pointer text) =
        .ofOption (step key uEsc c false (fun m => like key uEsc m ps) text)) (ht : TextOk text) :
    afterMatchAll (icuLikeCompare fold uEsc n false) (cString (c :: ps)) (pointer text) =
      .ofOption (like key uEsc .run (c :: ps) text) := by
  obtain ⟨b, l, hb⟩ := cString_front hc hps
  rw [like]
  by_cases hall : c = matchAll
  · obtain ⟨hbc, hl⟩ := hb.ascii (by rw [hall]; decide)
    rw [if_pos hall, ← ih.run n text hn ht, hb.eq, hl]
    simp only [afterMatchAll, skipWildcards]
    rw [if_pos (hbc.trans hall)]
  have hball : b.toNat ≠ matchAll := by
    intro h
    rcases lt_or_ge c 0x80 with hlt | hge
    · exact hall ((hb.ascii hlt).1.symm.trans h)
    · exact absurd (hb.long hge) (by rw [h]; decide)
  rw [if_neg hall]
  by_cases hone : c = matchOne
  · obtain ⟨hbc, hl⟩ := hb.ascii (by rw [hone]; decide)
    rw [if_pos hone, hb.eq, hl]
    match text, ht with
    | none, _ =>
      simp only [afterMatchAll, skipWildcards]
      rw [if_neg hball, if_pos (hbc.trans hone)]
      rfl
    | some [], _ =>
      simp only [afterMatchAll, skipWildcards]
      rw [if_neg hball, if_pos (hbc.trans hone)]
      rfl
    | some (s :: t), ht =>
      obtain ⟨d, rest, hd⟩ := ht.front
      simp only [afterMatchAll, skipWildcards, pointer, hd.eq]
      rw [if_neg hball, if_pos (hbc.trans hone)]
      simp only [hd.skip, if_neg hd.ne_zero]
      exact ih.run n (some t) hn ht.tail
  have hbone : b.toNat ≠ matchOne := by
    intro h
    rcases lt_or_ge c 0x80 with hlt | hge
    · exact hone ((hb.ascii hlt).1.symm.trans h)
    · exact absurd (hb.long hge) (by rw [h]; decide)
  rw [if_neg hone, hb.eq]
  simp only [afterMatchAll, skipWildcards]
  rw [if_neg hball, if_neg hbone]
  simp only
  rw [if_neg (show (b :: l).headD 0 ≠ 0 from hb.ne_zero)]
  cases text with
  | none => rfl
  | some t =>
    refine tryFrom_search ht (fun t ht => ?_) (length_lt_cString (ht t rfl))
    rw [← hb.eq]
    exact hstep (some t) ht

include hfold in
/-- **The matcher on the bytes is the matcher on the code points.** -/
theorem icuLikeCompare_like (hps : ∀ c ∈ ps, Scalar c) : Simulates key fold uEsc ps := by
  induction ps with
  | nil => exact simulates_nil
  | cons c ps ih =>
    obtain ⟨hc, hps⟩ := forall_mem_cons.1 hps
    have ih := ih hps
    have hstep : ∀ n prevEscape text, (c :: ps).length < n → TextOk text →
        icuLikeCompare fold uEsc n prevEscape (cString (c :: ps)) (pointer text) =
          .ofOption (step key uEsc c prevEscape (fun m => like key uEsc m ps) text) := by
      intro n prevEscape text hn ht
      obtain ⟨n, rfl⟩ : ∃ m, n = m + 1 := ⟨n - 1, by omega⟩
      exact icuLikeCompare_step hfold hc hps ih (by simpa using hn) prevEscape ht
    constructor
    · exact fun n text hn ht => hstep n false text hn ht
    · exact fun n text hn ht => hstep n true text hn ht
    intro n text hn ht
    exact afterMatchAll_cons hc hps ih (Nat.lt_of_succ_lt hn)
      (fun text ht => hstep n false text hn ht) ht

end Simulation

end MegaSdk.Like
