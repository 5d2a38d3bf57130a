/-
  File:      MegaSdk/Json/Escape.lean
  Subject:   `JSON::escape` AND `JSON::unescape` (json.cpp): strings in and out of JSON.

  Three scanners have to agree: the escaper walks UTF-8 sequences, `storeobject` looks for the closing
  quote, and `unescape` works in place, with an index of 32 bits.

  * `Esc s e` -- `e` is `s` byte by byte, as itself or as an escape, without a loop;
  * `Esc.quoted`, `storeobject_quoted` -- such a text is stored up to its closing quote;
  * `Esc.unescapeLoop` -- and `unescape` turns it back, as long as the index does not wrap around;
  * **`unescape_escape`** -- so whatever is escaped, stored and unescaped is what it was.
-/
import MegaSdk.Json.Scanner
import MegaSdk.Sync.Names

namespace MegaSdk.Json

open List UInt32

open Sync (hexval)

variable {n : Nat} {d e s : List UInt8} {c : UInt8}

/-! ## 1. The code -/

def hexDigit (n : Nat) : UInt8 := UInt8.ofNat (if n < 10 then 48 + n else 87 + n)

def unicodeEscape (n : Nat) : List UInt8 :=
  [ch '\\', ch 'u', hexDigit (n / 4096 % 16), hexDigit (n / 256 % 16), hexDigit (n / 16 % 16),
    hexDigit (n % 16)]

/-- The `switch` of `escape`, for a code point of one byte. -/
def escapeOne (codepoint : Int) (current : UInt8) : List UInt8 :=
  if codepoint = 34 then [ch '\\', ch '"']
  else if codepoint = 92 then [ch '\\', ch '\\']
  else if codepoint = 8 then [ch '\\', ch 'b']
  else if codepoint = 12 then [ch '\\', ch 'f']
  else if codepoint = 10 then [ch '\\', ch 'n']
  else if codepoint = 13 then [ch '\\', ch 'r']
  else if codepoint = 9 then [ch '\\', ch 't']
  else if codepoint < 0x20 then unicodeEscape codepoint.toNat
  else [current]

section Escape

variable (iterate : List UInt8 → Int × Int)

/-- The loop of `escape`. Every round takes at least one byte. -/
def escapeLoop : Nat → List UInt8 → List UInt8
  | n + 1, c :: rest =>
    let read := (iterate (c :: rest)).1
    if read ≤ 0 then c :: escapeLoop n rest
    else if read > 1 then
      (c :: rest).take read.toNat ++ escapeLoop n ((c :: rest).drop read.toNat)
    else escapeOne (iterate (c :: rest)).2 c ++ escapeLoop n rest
  | _, _ => []

def escape (data : List UInt8) : List UInt8 := escapeLoop iterate data.length data

end Escape

def ishex (c : UInt8) : Bool :=
  (ch '0' ≤ c && c ≤ ch '9') || (ch 'a' ≤ c && c ≤ ch 'f') || (ch 'A' ≤ c && c ≤ ch 'F')

def utf8encode (cp : Nat) : List UInt8 :=
  if cp < 0x80 then [UInt8.ofNat cp]
  else if cp < 0x800 then [UInt8.ofNat (0xC0 ||| cp >>> 6), UInt8.ofNat (0x80 ||| (cp &&& 0x3F))]
  else
    [UInt8.ofNat (0xE0 ||| cp >>> 12), UInt8.ofNat (0x80 ||| (cp >>> 6 &&& 0x3F)),
      UInt8.ofNat (0x80 ||| (cp &&& 0x3F))]

/-- `(*s)[i]`, with an index of 32 bits. -/
def charAt (s : List UInt8) (i : UInt32) : UInt8 := s.getD i.toNat 0

/-- The code point of four hex digits. -/
def hex4 (a b c d : UInt8) : Nat :=
  hexval a.toNat <<< 12 ||| hexval b.toNat <<< 8 ||| hexval c.toNat <<< 4 ||| hexval d.toNat

/-- The `switch` of `unescape` at a backslash: what is written, and how many bytes it replaces. -/
def replacement (s : List UInt8) (i : UInt32) : List UInt8 × Nat :=
  let c := charAt s (i + 1)
  if c = ch 'n' then ([10], 2)
  else if c = ch 'r' then ([13], 2)
  else if c = ch 'b' then ([8], 2)
  else if c = ch 'f' then ([12], 2)
  else if c = ch 't' then ([9], 2)
  else if c = ch '\\' then ([ch '\\'], 2)
  else if c = ch 'u' then
    if (i + 5).toNat < s.length ∧ ishex (charAt s (i + 2)) ∧ ishex (charAt s (i + 3)) ∧
        ishex (charAt s (i + 4)) ∧ ishex (charAt s (i + 5)) then
      (utf8encode (hex4 (charAt s (i + 2)) (charAt s (i + 3)) (charAt s (i + 4)) (charAt s (i + 5))),
        6)
    else ([ch 'u'], 2)
  else ([c], 2)

/-- The loop of `unescape`, with at most `n` rounds. -/
def unescapeLoop : Nat → UInt32 → List UInt8 → Option (List UInt8)
  | 0, _, _ => none
  | n + 1, i, s =>
    if (i + 1).toNat < s.length then
      if charAt s i ≠ ch '\\' then unescapeLoop n (i + 1) s
      else
        let r := replacement s i
        -- `s->replace(i, l, repl, rlen); i += rlen - 1`, and `i++`
        unescapeLoop n (i + UInt32.ofNat (r.1.length - 1) + 1)
          (s.take i.toNat ++ r.1 ++ s.drop (i.toNat + r.2))
    else some s

def unescape (n : Nat) (s : List UInt8) : Option (List UInt8) := unescapeLoop n 0 s

/-! ## 2. What `utf8proc_iterate` returns -/

/-- A byte behind the first one of a sequence. -/
def isContinuation (c : UInt8) : Bool := 0x80 ≤ c && c ≤ 0xBF

/-- A valid UTF-8 sequence of more than one byte: no overlong form, no surrogate, nothing above
U+10FFFF. -/
def isMultiByte : List UInt8 → Bool
  | [a, b] => 0xC2 ≤ a && a ≤ 0xDF && isContinuation b
  | [a, b, c] =>
    ((a == 0xE0 && 0xA0 ≤ b && b ≤ 0xBF) || (a == 0xED && 0x80 ≤ b && b ≤ 0x9F) ||
      (0xE1 ≤ a && a ≤ 0xEF && a != 0xED && isContinuation b)) && isContinuation c
  | [a, b, c, d] =>
    ((a == 0xF0 && 0x90 ≤ b && b ≤ 0xBF) || (a == 0xF4 && 0x80 ≤ b && b ≤ 0x8F) ||
      (0xF1 ≤ a && a ≤ 0xF3 && isContinuation b)) && isContinuation c && isContinuation d
  | _ => false

/-- What is known of `utf8proc_iterate`: how many bytes it reads off the front, or an error, and the
code point of a single byte. -/
structure Utf8procIterate (iterate : List UInt8 → Int × Int) : Prop where
  ascii : ∀ c rest, c < 0x80 → iterate (c :: rest) = (1, (c.toNat : Int))
  multi : ∀ seq rest, isMultiByte seq = true → (iterate (seq ++ rest)).1 = seq.length
  other : ∀ c rest, 0x80 ≤ c → (∀ seq rest', isMultiByte seq = true → c :: rest ≠ seq ++ rest') →
    (iterate (c :: rest)).1 ≤ 0

/-! ## 3. Escaped texts -/

/-- The escapes of one letter: what the letter stands for. -/
def shortEscape (k : UInt8) : Option UInt8 :=
  if k = ch '"' then some (ch '"')
  else if k = ch '\\' then some (ch '\\')
  else if k = ch 'b' then some 8
  else if k = ch 'f' then some 12
  else if k = ch 'n' then some 10
  else if k = ch 'r' then some 13
  else if k = ch 't' then some 9
  else none

def isWide (c : UInt8) : Bool := c < 0x20 && c != 8 && c != 9 && c != 10 && c != 12 && c != 13

/-- `Esc s e`: `e` is `s` with some bytes escaped. -/
inductive Esc : List UInt8 → List UInt8 → Prop
  | nil : Esc [] []
  | raw {c : UInt8} {s e : List UInt8} : c ≠ 0 → c ≠ ch '"' → c ≠ ch '\\' → Esc s e →
      Esc (c :: s) (c :: e)
  | short {k c : UInt8} {s e : List UInt8} : shortEscape k = some c → Esc s e →
      Esc (c :: s) (ch '\\' :: k :: e)
  | unicode {c : UInt8} {s e : List UInt8} : isWide c = true → Esc s e →
      Esc (c :: s) (unicodeEscape c.toNat ++ e)

theorem hexDigit_plain (h : n < 16) :
    hexDigit n ≠ 0 ∧ hexDigit n ≠ ch '"' ∧ hexDigit n ≠ ch '\\' ∧ ishex (hexDigit n) = true ∧
      hexval (hexDigit n).toNat = n := by
  revert n
  decide

theorem Esc.quoted (h : Esc s e) : Quoted e := by
  induction h with
  | nil => exact .nil
  | raw h0 hq hb _ ih => exact .plain h0 hq hb ih
  | @short k c s e hk _ ih =>
    refine .escape ?_ ih
    rintro rfl
    cases hk
  | @unicode c s e _ _ ih =>
    have hplain : ∀ (m : Nat) {t : List UInt8}, Quoted t → Quoted (hexDigit (m % 16) :: t) :=
      fun m t ht =>
        have h := hexDigit_plain (Nat.mod_lt m (by decide : 16 > 0))
        .plain h.1 h.2.1 h.2.2.1 ht
    exact .escape (by decide) (hplain _ (hplain _ (hplain _ (hplain _ ih))))

/-- **A string in quotes** is stored without them, up to behind the closing one. -/
theorem storeobject_quoted (h : Quoted e) {rest : Cursor} (h0 : (0 : UInt8) ∈ rest) :
    storeobject (ch '"' :: (e ++ ch '"' :: rest)) = .ok (some e, rest) := by
  have hmem : (0 : UInt8) ∈ ch '"' :: (e ++ ch '"' :: rest) :=
    mem_cons_of_mem _ (mem_append_right _ (mem_cons_of_mem _ h0))
  have hc : Closes 0 (ch '"' :: (e ++ ch '"' :: rest)) rest := .last (.string h) (add_zero _)
  rcases storeobject_cases (by decide) hmem with ⟨q, hq, he, -, -⟩ | ⟨-, hno⟩
  · obtain rfl := closes_unique hmem hc hq
    have hst : stored (ch '"' :: (e ++ ch '"' :: rest)) rest = e := by
      refine take_left' ?_
      simp only [length_cons, length_append]
      omega
    rw [he, hst]
  · exact absurd hc (hno rest)

/-! ## 4. In place -/

theorem index_toNat {a k : Nat} (h : a + k < 2 ^ 32) :
    (UInt32.ofNat a + UInt32.ofNat k).toNat = a + k := by
  rw [UInt32.toNat_add, UInt32.toNat_ofNat', UInt32.toNat_ofNat', ← Nat.add_mod]
  exact Nat.mod_eq_of_lt h

theorem charAt_append {t : List UInt8} {k : Nat} (h : d.length + k < 2 ^ 32) :
    charAt (d ++ t) (UInt32.ofNat d.length + UInt32.ofNat k) = t.getD k 0 := by
  unfold charAt
  rw [index_toNat h, getD_append_right _ _ _ _ (Nat.le_add_right _ _),
    Nat.add_sub_cancel_left]

theorem charAt_front {t : List UInt8} (h : d.length < 2 ^ 32) :
    charAt (d ++ t) (UInt32.ofNat d.length) = t.getD 0 0 := by
  have := charAt_append (t := t) (k := 0) (by simpa using h)
  rwa [show UInt32.ofNat d.length + UInt32.ofNat 0 = UInt32.ofNat d.length from UInt32.add_zero _]
    at this

section

variable (hd : d.length + 1 < 2 ^ 32)
include hd

theorem unescapeLoop_raw (hc : c ≠ ch '\\') (he : e ≠ []) :
    unescapeLoop (n + 1) (UInt32.ofNat d.length) (d ++ c :: e) =
      unescapeLoop n (UInt32.ofNat (d ++ [c]).length) (d ++ [c] ++ e) := by
  have hi : (ofNat d.length + 1).toNat = d.length + 1 := index_toNat hd
  have hpos := length_pos_iff.2 he
  rw [unescapeLoop, if_pos (by simp only [length_append, length_cons]; omega),
    charAt_front (by omega), if_pos (by simpa using hc), length_append,
    ofNat_add, append_assoc]
  rfl

theorem unescapeLoop_escape {x : List UInt8} {l : Nat}
    (hx : x.length = l) (hl : 2 ≤ l) (hb : x.getD 0 0 = ch '\\')
    (hr : replacement (d ++ (x ++ e)) (UInt32.ofNat d.length) = ([c], l)) :
    unescapeLoop (n + 1) (UInt32.ofNat d.length) (d ++ (x ++ e)) =
      unescapeLoop n (UInt32.ofNat (d ++ [c]).length) (d ++ [c] ++ e) := by
  have hi : (ofNat d.length + 1).toNat = d.length + 1 := index_toNat hd
  have h0 : (x ++ e).getD 0 0 = ch '\\' := by
    rw [getD_append _ _ _ _ (by omega), hb]
  have hin : (ofNat d.length).toNat = d.length := by
    exact Nat.mod_eq_of_lt (by omega)
  rw [unescapeLoop, if_pos (by simp only [length_append]; omega),
    charAt_front (by omega), h0, hr]
  simp only [length_singleton, hin]
  rw [take_left' rfl, ← drop_drop, drop_left' rfl, drop_left' hx,
    length_append, UInt32.ofNat_add, show UInt32.ofNat 0 = 0 from rfl, UInt32.add_zero]
  rfl

theorem replacement_short {k : UInt8} (hk : shortEscape k = some c) :
    replacement (d ++ ([ch '\\', k] ++ e)) (UInt32.ofNat d.length) = ([c], 2) := by
  have hat : charAt (d ++ ([ch '\\', k] ++ e)) (ofNat d.length + 1) = k :=
    charAt_append hd
  unfold replacement
  rw [hat]
  unfold shortEscape at hk
  iterate 7
    split at hk
    · rename_i hq
      cases hk
      subst hq
      rfl
  · cases hk

end

theorem isWide_lt (h : isWide c = true) : c.toNat < 32 := by
  simp only [isWide, Bool.and_eq_true, decide_eq_true_eq] at h
  exact UInt8.lt_iff_toNat_lt.1 h.1.1.1.1.1

theorem hex4_unicodeEscape (h : n < 32) :
    hex4 (hexDigit (n / 4096 % 16)) (hexDigit (n / 256 % 16)) (hexDigit (n / 16 % 16))
      (hexDigit (n % 16)) = n := by
  revert n
  decide

theorem replacement_unicode (hd : d.length + 5 < 2 ^ 32) (hc : isWide c = true) :
    replacement (d ++ (unicodeEscape c.toNat ++ e)) (UInt32.ofNat d.length) = ([c], 6) := by
  generalize hs : d ++ (unicodeEscape c.toNat ++ e) = s
  generalize hn : c.toNat = n at hs
  have hat : ∀ k, k < 6 →
      charAt s (ofNat d.length + ofNat k) = (unicodeEscape n).getD k 0 := fun k hk => by
    rw [← hs, charAt_append (by omega), getD_append _ _ _ _ hk]
  have h1 : charAt s (ofNat d.length + 1) = ch 'u' := hat 1 (by decide)
  have h2 : charAt s (ofNat d.length + 2) = hexDigit (n / 4096 % 16) := hat 2 (by decide)
  have h3 : charAt s (ofNat d.length + 3) = hexDigit (n / 256 % 16) := hat 3 (by decide)
  have h4 : charAt s (ofNat d.length + 4) = hexDigit (n / 16 % 16) := hat 4 (by decide)
  have h5 : charAt s (ofNat d.length + 5) = hexDigit (n % 16) := hat 5 (by decide)
  have hlt : n < 32 := hn ▸ isWide_lt hc
  have hhex : ∀ m, ishex (hexDigit (m % 16)) = true := fun m =>
    (hexDigit_plain (Nat.mod_lt m (by decide : 16 > 0))).2.2.2.1
  have hi5 : (ofNat d.length + 5).toNat < s.length := by
    rw [← hs, show (ofNat d.length + 5).toNat = d.length + 5 from index_toNat hd]
    simp only [length_append, unicodeEscape, length_cons]
    omega
  unfold replacement
  simp only [h1, h2, h3, h4, h5]
  rw [if_neg (by decide), if_neg (by decide), if_neg (by decide), if_neg (by decide),
    if_neg (by decide), if_neg (by decide), if_pos trivial,
    if_pos ⟨hi5, hhex _, hhex _, hhex _, hhex _⟩, hex4_unicodeEscape hlt, utf8encode,
    if_pos (by omega), ← hn, UInt8.ofNat_toNat]

theorem Esc.eq_nil (h : Esc s []) : s = [] := by
  generalize he : ([] : List UInt8) = e at h
  cases h with
  | nil => rfl
  | _ => cases he

/-- **`unescape` turns an escaped text back**, as long as no index wraps around, that of the last
digit of an escape included. -/
theorem Esc.unescapeLoop (h : Esc s e) (d : List UInt8) (hlen : d.length + s.length + 5 ≤ 2 ^ 32)
    (hn : e.length < n) : Json.unescapeLoop n (UInt32.ofNat d.length) (d ++ e) = some (d ++ s) := by
  have hi : ∀ d : List UInt8, d.length + 5 ≤ 2 ^ 32 →
      (ofNat d.length + 1).toNat = d.length + 1 := fun d hd => index_toNat (k := 1) (by omega)
  -- what is behind the byte `c` is done with `c` moved to the front
  have hnext : ∀ {d s : List UInt8} {c : UInt8}, d.length + (c :: s).length + 5 ≤ 2 ^ 32 →
      (d ++ [c]).length + s.length + 5 ≤ 2 ^ 32 := fun h => by
    simp only [length_append, length_cons, length_nil] at h ⊢
    omega
  obtain _ | n := n
  · omega
  induction h generalizing d n with
  | nil =>
    rw [Json.unescapeLoop, hi d (by omega)]
    simp
  | @raw c s e _ _ hb he ih =>
    have hd : d.length + 1 < 2 ^ 32 := by omega
    rw [length_cons] at hn
    obtain _ | n := n
    · omega
    by_cases hnil : e = []
    · subst hnil
      obtain rfl := he.eq_nil
      rw [Json.unescapeLoop, hi d (by omega)]
      simp
    · rw [unescapeLoop_raw hd hb hnil, ih (d ++ [c]) (hnext hlen) n (by omega), append_assoc]
      rfl
  | @short k c s e hk he ih =>
    have hd : d.length + 1 < 2 ^ 32 := by omega
    rw [length_cons, length_cons] at hn
    obtain _ | n := n
    · omega
    have hr := unescapeLoop_escape (n := n + 1) (e := e) hd (l := 2) rfl
      (by decide) rfl (replacement_short hd hk)
    exact hr.trans (by rw [ih (d ++ [c]) (hnext hlen) n (by omega), append_assoc]; rfl)
  | @unicode c s e hc he ih =>
    have hd : d.length + 5 < 2 ^ 32 := by
      rw [length_cons] at hlen
      omega
    obtain _ | n := n
    · simp [unicodeEscape] at hn
    rw [unescapeLoop_escape (by omega) (l := 6) rfl (by decide) rfl
      (replacement_unicode hd hc), ih (d ++ [c]) (hnext hlen) n
      (by simp [unicodeEscape] at hn; omega), append_assoc]
    rfl

theorem Esc.unescape (h : Esc s e) (hlen : s.length ≤ 2 ^ 32 - 5) :
    Json.unescape (e.length + 1) e = some s :=
  h.unescapeLoop [] (by simp only [length_nil]; omega) (Nat.lt_succ_self _)

/-! ## 5. What `escape` writes -/

theorem isContinuation_high (h : isContinuation c = true) : 0x80 ≤ c := by
  simp only [isContinuation, Bool.and_eq_true, decide_eq_true_eq] at h
  exact h.1

theorem isMultiByte_high {seq : List UInt8} (h : isMultiByte seq = true) :
    1 < seq.length ∧ ∀ b ∈ seq, 0x80 ≤ b := by
  have hle : ∀ {x y : UInt8}, x ≤ y → 0x80 ≤ x → 0x80 ≤ y := fun h h' => UInt8.le_trans h' h
  unfold isMultiByte at h
  split at h
  case h_4 => cases h
  all_goals
    simp only [Bool.and_eq_true, Bool.or_eq_true, decide_eq_true_eq, beq_iff_eq] at h
    refine ⟨by simp, ?_⟩
    simp only [mem_cons, not_mem_nil, or_false, forall_eq_or_imp, forall_eq]
  · exact ⟨hle h.1.1 (by decide), isContinuation_high h.2⟩
  · obtain ⟨hab, hc⟩ := h
    rcases hab with (⟨⟨rfl, hb⟩, -⟩ | ⟨⟨rfl, hb⟩, -⟩) | ⟨⟨⟨ha, -⟩, -⟩, hb⟩
    · exact ⟨by decide, hle hb (by decide), isContinuation_high hc⟩
    · exact ⟨by decide, hb, isContinuation_high hc⟩
    · exact ⟨hle ha (by decide), isContinuation_high hb, isContinuation_high hc⟩
  · obtain ⟨⟨hab, hc⟩, hd⟩ := h
    have hcd := And.intro (isContinuation_high hc) (isContinuation_high hd)
    rcases hab with (⟨⟨rfl, hb⟩, -⟩ | ⟨⟨rfl, hb⟩, -⟩) | ⟨⟨ha, -⟩, hb⟩
    · exact ⟨by decide, hle hb (by decide), hcd⟩
    · exact ⟨by decide, hb, hcd⟩
    · exact ⟨hle ha (by decide), isContinuation_high hb, hcd⟩

theorem raw_of_high (h : 0x80 ≤ c) : c ≠ 0 ∧ c ≠ ch '"' ∧ c ≠ ch '\\' := by
  refine ⟨?_, ?_, ?_⟩ <;>
  · rintro rfl
    exact absurd h (by decide)

theorem Esc.high {u : List UInt8} (hu : ∀ b ∈ u, 0x80 ≤ b) (h : Esc s e) :
    Esc (u ++ s) (u ++ e) := by
  induction u with
  | nil => exact h
  | cons c u ih =>
    obtain ⟨h0, hq, hb⟩ := raw_of_high (hu c mem_cons_self)
    exact .raw h0 hq hb (ih fun b hb => hu b (mem_cons_of_mem _ hb))

theorem Esc.one (h : Esc s e) : Esc (c :: s) (escapeOne c.toNat c ++ e) := by
  have heq : ∀ {k : Nat}, ((c.toNat : Nat) : Int) = k → k < 256 → c = UInt8.ofNat k :=
    fun hk hlt => UInt8.toNat_inj.1 (by rw [UInt8.toNat_ofNat']; omega)
  have hne : ∀ {k : Nat}, ¬ ((c.toNat : Nat) : Int) = k → k < 256 → c ≠ UInt8.ofNat k := by
    rintro k hk hlt rfl
    rw [UInt8.toNat_ofNat'] at hk
    omega
  unfold escapeOne
  iterate 7
    split
    · rename_i hc
      obtain rfl := heq hc (by decide)
      exact .short rfl h
  rename_i hq hb h8 h12 h10 h13 h9
  split_ifs with hlt
  · have hw : isWide c = true := by
      simp only [isWide, Bool.and_eq_true, bne_iff_ne, decide_eq_true_eq]
      exact ⟨⟨⟨⟨⟨UInt8.lt_iff_toNat_lt.2 (by show c.toNat < 32; omega), hne h8 (by decide)⟩, hne h9 (by decide)⟩,
        hne h10 (by decide)⟩, hne h12 (by decide)⟩, hne h13 (by decide)⟩
    exact .unicode hw h
  refine .raw ?_ (hne hq (by decide)) (hne hb (by decide)) h
  rintro rfl
  exact hlt (by decide)

theorem esc_escapeLoop {iterate : List UInt8 → Int × Int} (hit : Utf8procIterate iterate)
    (hn : s.length ≤ n) : Esc s (escapeLoop iterate n s) := by
  induction n generalizing s with
  | zero =>
    obtain rfl := length_eq_zero_iff.1 (Nat.le_zero.1 hn)
    exact .nil
  | succ n ih =>
    cases s with
    | nil => exact .nil
    | cons c rest =>
      rw [length_cons] at hn
      have hrest := ih (s := rest) (by omega)
      rw [escapeLoop]
      by_cases hc : c < 0x80
      · rw [hit.ascii c rest hc]
        exact .one hrest
      have hhigh : 0x80 ≤ c := UInt8.not_lt.1 hc
      by_cases hseq : ∃ seq rest', isMultiByte seq = true ∧ c :: rest = seq ++ rest'
      · obtain ⟨seq, rest', hm, heq⟩ := hseq
        obtain ⟨hlen, hall⟩ := isMultiByte_high hm
        have hl : rest'.length ≤ n := by
          have := congrArg List.length heq
          simp only [length_cons, length_append] at this
          omega
        rw [heq, hit.multi seq rest' hm]
        rw [if_neg (by omega), if_pos (by omega), Int.toNat_natCast, take_left' rfl,
          drop_left' rfl]
        exact .high hall (ih hl)
      · have hread := hit.other c rest hhigh fun seq rest' hm heq => hseq ⟨seq, rest', hm, heq⟩
        rw [if_pos hread]
        obtain ⟨h0, hq, hb⟩ := raw_of_high hhigh
        exact .raw h0 hq hb hrest

/-- **Every byte string of at most `2^32 - 5` bytes** is escaped, put between quotes, stored and
unescaped to what it was, and the position is then behind the closing quote. -/
theorem unescape_escape {iterate : List UInt8 → Int × Int} (hit : Utf8procIterate iterate)
    (s : List UInt8) (hs : s.length ≤ 2 ^ 32 - 5) {rest : Cursor} (h0 : (0 : UInt8) ∈ rest) :
    storeobject (ch '"' :: (escape iterate s ++ ch '"' :: rest)) =
        .ok (some (escape iterate s), rest) ∧
      ∃ n, unescape n (escape iterate s) = some s := by
  have hesc := esc_escapeLoop hit (le_refl s.length)
  exact ⟨storeobject_quoted hesc.quoted h0, _, hesc.unescape hs⟩

/-! ## 6. An instance, and a text that is too long -/

/-- How many bytes a sequence with this first byte has. -/
def leadLength (a : UInt8) : Nat := if a ≤ 0xDF then 2 else if a ≤ 0xEF then 3 else 4

/-- An iteration over valid sequences, as `utf8proc_iterate` makes it; the code point of a longer
sequence is not read by anyone. -/
def iterateUtf8 : List UInt8 → Int × Int
  | [] => (0, -1)
  | c :: rest =>
    if c < 0x80 then (1, (c.toNat : Int))
    else if isMultiByte ((c :: rest).take (leadLength c)) then (leadLength c, 0x80)
    else (-3, -1)

theorem length_eq_leadLength {seq : List UInt8} (h : isMultiByte seq = true) :
    ∃ a t, seq = a :: t ∧ seq.length = leadLength a := by
  have hle : ∀ {x y z : UInt8}, x ≤ y → z < x → ¬ y ≤ z := fun hxy hzx hyz =>
    absurd (UInt8.lt_of_lt_of_le hzx (UInt8.le_trans hxy hyz)) (UInt8.lt_irrefl _)
  unfold isMultiByte at h
  split at h
  · rename_i a b
    simp only [Bool.and_eq_true, decide_eq_true_eq] at h
    exact ⟨a, _, rfl, by rw [leadLength, if_pos h.1.2]; rfl⟩
  · rename_i a b c
    refine ⟨a, _, rfl, ?_⟩
    simp only [Bool.and_eq_true, Bool.or_eq_true, decide_eq_true_eq, beq_iff_eq] at h
    rcases h.1 with (⟨⟨rfl, -⟩, -⟩ | ⟨⟨rfl, -⟩, -⟩) | ⟨⟨⟨ha, ha'⟩, -⟩, -⟩
    · rfl
    · rfl
    · rw [leadLength, if_neg (hle ha (by decide)), if_pos ha']
      rfl
  · rename_i a b c d
    refine ⟨a, _, rfl, ?_⟩
    simp only [Bool.and_eq_true, Bool.or_eq_true, decide_eq_true_eq, beq_iff_eq] at h
    rcases h.1.1 with (⟨⟨rfl, -⟩, -⟩ | ⟨⟨rfl, -⟩, -⟩) | ⟨⟨ha, -⟩, -⟩
    · rfl
    · rfl
    · rw [leadLength, if_neg (hle ha (by decide)), if_neg (hle ha (by decide))]
      rfl
  · cases h

theorem utf8procIterate_iterateUtf8 : Utf8procIterate iterateUtf8 where
  ascii c rest hc := if_pos hc
  multi seq rest h := by
    obtain ⟨a, t, rfl, hlen⟩ := length_eq_leadLength h
    have ha : ¬ a < 0x80 := UInt8.not_lt.2 ((isMultiByte_high h).2 a mem_cons_self)
    have htake : (a :: (t ++ rest)).take (leadLength a) = a :: t := by
      exact take_left' hlen
    rw [cons_append, iterateUtf8, if_neg ha, htake, if_pos h, hlen]
  other c rest hc hno := by
    rw [iterateUtf8, if_neg (UInt8.not_lt.2 hc), if_neg]
    · decide
    · intro h
      exact hno _ _ h (take_append_drop (leadLength c) (c :: rest)).symm

/-- Control bytes, a quote, a sequence of two bytes and a byte that is none. -/
theorem unescape_escape_mixed : ∃ n, unescape n (escape iterateUtf8 [0, 34, 0xC3, 0xA4, 0xFF]) =
    some [0, 34, 0xC3, 0xA4, 0xFF] :=
  (unescape_escape utf8procIterate_iterateUtf8 [0, 34, 0xC3, 0xA4, 0xFF] (by decide)
    (mem_singleton.2 rfl)).2

theorem unescapeLoop_unique {m : Nat} {i : UInt32} {r r' : List UInt8}
    (h : unescapeLoop n i s = some r) (h' : unescapeLoop m i s = some r') : r = r' := by
  induction n generalizing m i s with
  | zero => cases h
  | succ n ih =>
    cases m with
    | zero => cases h'
    | succ m =>
      rw [unescapeLoop] at h h'
      split at h
      · rename_i hlt
        rw [if_pos hlt] at h'
        split_ifs at h with hc
        · rw [if_pos hc] at h'
          exact ih h h'
        rw [if_neg hc] at h'
        exact ih h h'
      · rename_i hlt
        rw [if_neg hlt] at h'
        exact Option.some.inj (h.symm.trans h')

theorem unescapeLoop_plain (he : e ≠ []) (m : Nat) (u d : List UInt8) (hu : ∀ c ∈ u, c ≠ ch '\\')
    (hlen : d.length + u.length < 2 ^ 32) :
    unescapeLoop (u.length + m) (UInt32.ofNat d.length) (d ++ (u ++ e)) =
      unescapeLoop m (UInt32.ofNat (d ++ u).length) (d ++ u ++ e) := by
  induction u generalizing d with
  | nil => simp
  | cons c u ih =>
    rw [length_cons] at hlen
    have hround := unescapeLoop_raw (n := u.length + m) (d := d) (e := u ++ e) (by omega)
      (hu c mem_cons_self) (by simp [he])
    rw [length_cons, show u.length + 1 + m = u.length + m + 1 by omega, cons_append,
      hround, ih (d ++ [c]) (fun b hb => hu b (mem_cons_of_mem _ hb)) (by simp; omega)]
    simp

theorem escapeLoop_letters {iterate : List UInt8 → Int × Int} (hit : Utf8procIterate iterate)
    (k n : Nat) (t : List UInt8) :
    escapeLoop iterate (k + n) (List.replicate k (ch 'a') ++ t) =
      List.replicate k (ch 'a') ++ escapeLoop iterate n t := by
  induction k with
  | zero => simp
  | succ k ih =>
    rw [replicate_succ, cons_append, show k + 1 + n = k + n + 1 by omega, escapeLoop,
      hit.ascii _ _ (by decide), cons_append, ← ih]
    rfl

/-- At the index `2^32 - 5` the last digit of an escape is read at the index 0. -/
theorem replacement_wrapped (hd : d.length = 2 ^ 32 - 5) (ha : d.getD 0 0 = ch 'a') :
    replacement (d ++ unicodeEscape 1) (UInt32.ofNat d.length) = ([10], 6) := by
  have hat : ∀ k, k < 5 → charAt (d ++ unicodeEscape 1) (ofNat d.length + ofNat k) =
      (unicodeEscape 1).getD k 0 := fun k hk => charAt_append (by omega)
  have h1 : charAt (d ++ unicodeEscape 1) (ofNat d.length + 1) = ch 'u' := hat 1 (by decide)
  have h2 : charAt (d ++ unicodeEscape 1) (ofNat d.length + 2) = ch '0' := hat 2 (by decide)
  have h3 : charAt (d ++ unicodeEscape 1) (ofNat d.length + 3) = ch '0' := hat 3 (by decide)
  have h4 : charAt (d ++ unicodeEscape 1) (ofNat d.length + 4) = ch '0' := hat 4 (by decide)
  have hzero : ofNat d.length + 5 = 0 := by
    rw [hd]
    decide
  have h5 : charAt (d ++ unicodeEscape 1) 0 = ch 'a' := by
    unfold charAt
    rw [show (0 : UInt32).toNat = 0 from rfl, getD_append _ _ _ _ (by omega), ha]
  have hpos : (0 : UInt32).toNat < (d ++ unicodeEscape 1).length := by
    rw [length_append]
    exact (by decide : 0 < 6).trans_le (Nat.le_add_left _ _)
  unfold replacement
  rw [hzero]
  simp only [h1, h2, h3, h4, h5]
  rw [if_neg (by decide), if_neg (by decide), if_neg (by decide), if_neg (by decide),
    if_neg (by decide), if_neg (by decide), if_pos trivial, if_pos ⟨hpos, by decide⟩]
  decide

/-- **A string of `2^32 - 4` bytes** that is all letters up to a last byte `0x01` comes back with
the last byte `0x0a`. -/
theorem unescape_wrapped :
    (∃ n, unescape n (escape iterateUtf8 (List.replicate (2 ^ 32 - 5) (ch 'a') ++ [1])) =
      some (List.replicate (2 ^ 32 - 5) (ch 'a') ++ [10])) ∧
    ∀ n, unescape n (escape iterateUtf8 (List.replicate (2 ^ 32 - 5) (ch 'a') ++ [1])) ≠
      some (List.replicate (2 ^ 32 - 5) (ch 'a') ++ [1]) := by
  obtain ⟨k, hk⟩ : ∃ k, k = 2 ^ 32 - 5 := ⟨_, rfl⟩
  rw [← hk]
  have hesc : escape iterateUtf8 (List.replicate k (ch 'a') ++ [1]) =
      List.replicate k (ch 'a') ++ unicodeEscape 1 := by
    unfold escape
    rw [length_append, length_replicate,
      escapeLoop_letters utf8procIterate_iterateUtf8 k _ [1]]
    rfl
  have hlen : (List.replicate k (ch 'a')).length = k := length_replicate
  have hback : ∃ n, unescape n (List.replicate k (ch 'a') ++ unicodeEscape 1) =
      some (List.replicate k (ch 'a') ++ [10]) := by
    have hplain := unescapeLoop_plain (e := unicodeEscape 1) (by decide) 2
      (List.replicate k (ch 'a')) [] (fun c hc => by
        rw [eq_of_mem_replicate hc]
        decide) (by rw [hlen, hk]; decide)
    have hlast := unescapeLoop_escape (n := 1)
      (x := unicodeEscape 1) (by rw [hlen, hk]; decide) rfl (by decide) rfl
      (by
        refine replacement_wrapped (hlen.trans hk) ?_
        rw [hk]
        rfl)
    refine ⟨_, hplain.trans ?_⟩
    rw [nil_append, ← append_nil (unicodeEscape 1), hlast, unescapeLoop, if_neg]
    · simp
    have hi := index_toNat (a := k + 1) (k := 1) (by rw [hk]; decide)
    rw [length_append, hlen, length_singleton,
      show (ofNat (k + 1) + 1).toNat = k + 1 + 1 from hi]
    simp
  rw [hesc]
  refine ⟨hback, fun n h => ?_⟩
  obtain ⟨m, hm⟩ := hback
  have := unescapeLoop_unique h hm
  exact absurd (append_cancel_left this) (by decide)

end MegaSdk.Json
