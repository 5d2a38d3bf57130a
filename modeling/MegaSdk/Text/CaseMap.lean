/-
  File:      MegaSdk/Text/CaseMap.lean
  Subject:   `Utils::toUpperUtf8` AND `Utils::toLowerUtf8` (utils.cpp), over `utf8proc_iterate` and
             `utf8proc_encode_char` (third_party/utf8proc).

  The loop moves its pointer by what the decoder returns. That is negative for bytes which are no
  sequence, so the pointer then goes back, over bytes that were decoded before or out of the string.

  * `Iterates` -- what is known of a decoder: zero at the end, else the length of a sequence or an
    error, which it also is inside a sequence;
  * `caseMapLoop`, `toUpperUtf8`, `toLowerUtf8` -- the loop; `Outcome.outside` is a read outside the
    string;
  * `Stuck.stays` -- **the loop never gets past the first bytes that are no sequence**;
  * `caseMap_iff` -- so it ends exactly on texts that can be decoded to their end.
-/
import MegaSdk.Base.Bytes

namespace MegaSdk.CaseMap

open List

/-! ## 1. The decoder and the encoder -/

/-- `UTF8PROC_ERROR_INVALIDUTF8`, with the code point that is then set. -/
def invalid : Int × Int := (-3, -1)

def utfCont (c : UInt8) : Bool := c &&& 0xc0 == 0x80

def low6 (c : UInt8) : Nat := (c &&& 0x3f).toNat

/-- `utf8proc_iterate(str, strlen, &dst)` on the bytes from `str` on: the result and `dst`. -/
def utf8proc_iterate : List UInt8 → Int × Int
  | [] => (0, -1)
  | b :: str =>
    let uc := b.toNat
    if uc < 0x80 then (1, uc)
    else if uc < 0xc2 ∨ 0xf4 < uc then invalid
    else if uc < 0xe0 then
      match str with
      | b₁ :: _ => if !utfCont b₁ then invalid else (2, ((uc % 32 * 64 + low6 b₁ : Nat) : Int))
      | [] => invalid
    else if uc < 0xf0 then
      match str with
      | b₁ :: b₂ :: _ =>
        if !utfCont b₁ || !utfCont b₂ then invalid
        else if uc = 0xed ∧ b₁ > 0x9f then invalid
        else
          let c := uc % 16 * 4096 + low6 b₁ * 64 + low6 b₂
          if c < 0x800 then invalid else (3, (c : Int))
      | _ => invalid
    else
      match str with
      | b₁ :: b₂ :: b₃ :: _ =>
        if !utfCont b₁ || !utfCont b₂ || !utfCont b₃ then invalid
        else if (uc = 0xf0 ∧ b₁ < 0x90) ∨ (uc = 0xf4 ∧ b₁ > 0x8f) then invalid
        else (4, ((uc % 8 * 262144 + low6 b₁ * 4096 + low6 b₂ * 64 + low6 b₃ : Nat) : Int))
      | _ => invalid

def utf8proc_encode_char (uc : Int) : List UInt8 :=
  let c := uc.toNat
  if uc < 0 then []
  else if uc < 0x80 then [UInt8.ofNat c]
  else if uc < 0x800 then [UInt8.ofNat (0xC0 + c / 64), UInt8.ofNat (0x80 + c % 64)]
  else if uc < 0x10000 then
    [UInt8.ofNat (0xE0 + c / 4096), UInt8.ofNat (0x80 + c / 64 % 64), UInt8.ofNat (0x80 + c % 64)]
  else if uc < 0x110000 then
    [UInt8.ofNat (0xF0 + c / 262144), UInt8.ofNat (0x80 + c / 4096 % 64),
      UInt8.ofNat (0x80 + c / 64 % 64), UInt8.ofNat (0x80 + c % 64)]
  else []

/-- What is known of a decoder. -/
structure Iterates (iterate : List UInt8 → Int × Int) : Prop where
  nil : (iterate []).1 = 0
  cons : ∀ b l, (iterate (b :: l)).1 ≠ 0 ∧ (iterate (b :: l)).1 ≤ (b :: l).length
  inside : ∀ (l : List UInt8) (k : Nat), 0 < k → (k : Int) < (iterate l).1 → (iterate (l.drop k)).1 < 0

theorem iterate_cont {b : UInt8} (h : utfCont b = true) (l : List UInt8) :
    utf8proc_iterate (b :: l) = invalid := by
  have hrange : 0x80 ≤ b.toNat ∧ b.toNat < 0xc0 :=
    Base.forall_byte (P := fun b => utfCont b = true → 0x80 ≤ b.toNat ∧ b.toNat < 0xc0)
      (by decide +kernel) b h
  simp only [utf8proc_iterate]
  rw [if_neg (by omega), if_pos (by omega)]

theorem iterate_tail {l : List UInt8} {k : Nat} (hk : 0 < k)
    (hlt : (k : Int) < (utf8proc_iterate l).1) : ∃ c rest, l.drop k = c :: rest ∧ utfCont c = true := by
  cases l with
  | nil => exact absurd hlt (by simp only [utf8proc_iterate]; omega)
  | cons b str =>
    simp only [utf8proc_iterate, invalid] at hlt
    -- one case for each length; all others are no sequence
    repeat' split at hlt
    all_goals simp only at hlt
    all_goals try omega
    · rename_i b₁ str hc
      obtain rfl : k = 1 := by omega
      exact ⟨b₁, str, rfl, by simpa using hc⟩
    · rename_i b₁ b₂ str hc _ _
      obtain ⟨h1, h2⟩ : utfCont b₁ = true ∧ utfCont b₂ = true := by simpa using hc
      obtain rfl | rfl : k = 1 ∨ k = 2 := by omega
      · exact ⟨b₁, b₂ :: str, rfl, h1⟩
      · exact ⟨b₂, str, rfl, h2⟩
    rename_i b₁ b₂ b₃ str hc _
    obtain ⟨⟨h1, h2⟩, h3⟩ : (utfCont b₁ = true ∧ utfCont b₂ = true) ∧ utfCont b₃ = true := by
      simpa using hc
    obtain rfl | rfl | rfl : k = 1 ∨ k = 2 ∨ k = 3 := by omega
    · exact ⟨b₁, b₂ :: b₃ :: str, rfl, h1⟩
    · exact ⟨b₂, b₃ :: str, rfl, h2⟩
    · exact ⟨b₃, str, rfl, h3⟩

/-- **The decoder of the library** is one. -/
theorem iterates_utf8proc : Iterates utf8proc_iterate where
  nil := rfl
  cons := by
    intro b l
    simp only [utf8proc_iterate, invalid]
    repeat' split
    all_goals simp
    all_goals omega
  inside := by
    intro l k hk hlt
    obtain ⟨c, rest, hdrop, hc⟩ := iterate_tail hk hlt
    rw [hdrop, iterate_cont hc]
    decide

/-! ## 2. The loop -/

/-- How a run stands: not ended, a read outside the string, or ended with a result. -/
inductive Outcome
  | running
  | outside
  | done (result : List UInt8)
  deriving DecidableEq

section Loop

variable (iterate : List UInt8 → Int × Int) (conv : Int → Int) (text : List UInt8)

/-- `k` rounds from the pointer `text.data() + d` on, with `n` bytes left. The decoder reads the byte
    at the pointer unless no byte is left. -/
def caseMapLoop : Nat → Int → Int → List UInt8 → Outcome
  | 0, _, _, _ => .running
  | k + 1, d, n, result =>
    if n ≠ 0 ∧ d < 0 then .outside
    else
      let nn := iterate ((text.drop d.toNat).take n.toNat)
      if nn.1 = 0 then .done result
      else caseMapLoop k (d + nn.1) (n - nn.1) (result ++ utf8proc_encode_char (conv nn.2))

def caseMap (k : Nat) : Outcome := caseMapLoop iterate conv text k 0 text.length []

end Loop

def toUpperUtf8 (iterate : List UInt8 → Int × Int) (utf8proc_toupper : Int → Int)
    (text : List UInt8) (k : Nat) : Outcome := caseMap iterate utf8proc_toupper text k

def toLowerUtf8 (iterate : List UInt8 → Int × Int) (utf8proc_tolower : Int → Int)
    (text : List UInt8) (k : Nat) : Outcome := caseMap iterate utf8proc_tolower text k

/-! ## 3. Texts that can be decoded, and others -/

/-- The text is a sequence of sequences. -/
inductive Decodes (iterate : List UInt8 → Int × Int) : List UInt8 → Prop
  | nil : Decodes iterate []
  | step {l : List UInt8} (h : 0 < (iterate l).1) (rest : Decodes iterate (l.drop (iterate l).1.toNat)) :
      Decodes iterate l

/-- The first bytes that are no sequence are those at `o`. -/
inductive Stuck (iterate : List UInt8 → Int × Int) : List UInt8 → Nat → Prop
  | here {l : List UInt8} (h : (iterate l).1 < 0) : Stuck iterate l 0
  | step {l : List UInt8} {o : Nat} (h : 0 < (iterate l).1)
      (rest : Stuck iterate (l.drop (iterate l).1.toNat) o) : Stuck iterate l ((iterate l).1.toNat + o)

variable {iterate : List UInt8 → Int × Int} {conv : Int → Int} {text l result : List UInt8}

theorem decodes_or_stuck (hit : Iterates iterate) (l) :
    Decodes iterate l ∨ ∃ o, Stuck iterate l o := by
  induction hn : l.length using Nat.strong_induction_on generalizing l with
  | _ n ih =>
    cases l with
    | nil => exact .inl .nil
    | cons b l =>
      obtain ⟨hne, hle⟩ := hit.cons b l
      rcases lt_or_gt_of_ne hne with hneg | hpos
      · exact .inr ⟨0, .here hneg⟩
      have hshort : ((b :: l).drop (iterate (b :: l)).1.toNat).length < n := by
        rw [length_drop]
        omega
      rcases ih _ hshort _ rfl with hd | ⟨o, ho⟩
      · exact .inl (.step hpos hd)
      · exact .inr ⟨_, .step hpos ho⟩

/-- **From no position up to the first invalid bytes does the pointer get past them**: it moves on to
    them at most, and never stays. -/
theorem Stuck.stays (hit : Iterates iterate) {o : Nat} (h : Stuck iterate l o) {j : Nat} (hj : j ≤ o) :
    (iterate (l.drop j)).1 ≠ 0 ∧ (j : Int) + (iterate (l.drop j)).1 ≤ o := by
  induction h generalizing j with
  | here h =>
    obtain rfl : j = 0 := by omega
    rw [drop_zero]
    omega
  | @step l o h rest ih =>
    by_cases hlt : (j : Int) < (iterate l).1
    · by_cases h0 : j = 0
      · rw [h0, drop_zero]
        omega
      · -- inside a sequence
        have hneg := hit.inside l j (by omega) hlt
        omega
    have hsum : (iterate l).1.toNat + (j - (iterate l).1.toNat) = j := by omega
    have hrest := ih (show j - (iterate l).1.toNat ≤ o by omega)
    rw [drop_drop, hsum] at hrest
    omega

/-! ## 4. When the loop ends -/

theorem take_rest {d n : Int} (hd : 0 ≤ d) (hn : d + n = text.length) :
    (text.drop d.toNat).take n.toNat = text.drop d.toNat := by
  refine take_of_length_le ?_
  rw [length_drop]
  omega

/-- A text with bytes that are no sequence: no number of rounds leads to a result. -/
theorem Stuck.never_done (hit : Iterates iterate) {o : Nat} (h : Stuck iterate text o) :
    ∀ (k : Nat) (d n : Int) (result out : List UInt8), d ≤ o → d + n = text.length →
      caseMapLoop iterate conv text k d n result ≠ .done out
  | 0, _, _, _, _, _, _ => nofun
  | k + 1, d, n, result, out, hd, hn => by
      rw [caseMapLoop]
      by_cases hneg : d < 0
      · rw [if_pos ⟨by omega, hneg⟩]
        exact nofun
      rw [if_neg fun hc => hneg hc.2]
      obtain ⟨hne, hle⟩ := h.stays hit (show d.toNat ≤ o by omega)
      simp only [take_rest (not_lt.1 hneg) hn]
      rw [if_neg hne]
      exact h.never_done hit k _ _ _ out (by omega) (by omega)

/-- A text that can be decoded: the loop ends behind it. -/
theorem Decodes.ends (hit : Iterates iterate) (conv) (h : Decodes iterate l) (d : Nat)
    (hl : text.drop d = l) (hd : d ≤ text.length) (result) :
    ∃ k out, caseMapLoop iterate conv text k d (text.length - d) result = .done out := by
  induction h generalizing d result with
  | nil =>
    refine ⟨1, result, ?_⟩
    rw [caseMapLoop, if_neg (by omega), take_rest (by omega) (by omega), Int.toNat_natCast, hl]
    exact if_pos hit.nil
  | @step l h rest ih =>
    have hlen : (iterate l).1.toNat ≤ l.length := by
      cases l with
      | nil => rw [hit.nil] at h; omega
      | cons b l => have := (hit.cons b l).2; omega
    have hlen' : l.length = text.length - d := by rw [← hl, length_drop]
    obtain ⟨k, out, hk⟩ := ih (d + (iterate l).1.toNat) (by rw [← drop_drop, hl]) (by omega)
      (result ++ utf8proc_encode_char (conv (iterate l).2))
    refine ⟨k + 1, out, ?_⟩
    rw [caseMapLoop, if_neg (by omega), take_rest (by omega) (by omega), Int.toNat_natCast, hl]
    rw [if_neg (by omega), ← hk]
    congr 1 <;> push_cast <;> omega

/-- **A case mapping ends, and without a read outside the string, exactly on texts that can be
    decoded to their end.** -/
theorem caseMap_iff (iterate : List UInt8 → Int × Int) (hit : Iterates iterate)
    (utf8proc_toupper utf8proc_tolower : Int → Int) (text : List UInt8) :
    ((∃ k out, toUpperUtf8 iterate utf8proc_toupper text k = .done out) ↔ Decodes iterate text) ∧
      ((∃ k out, toLowerUtf8 iterate utf8proc_tolower text k = .done out) ↔ Decodes iterate text) := by
  have hboth : ∀ conv, (∃ k out, caseMap iterate conv text k = .done out) ↔ Decodes iterate text := by
    intro conv
    constructor
    · intro ⟨k, out, hk⟩
      rcases decodes_or_stuck hit text with hd | ⟨o, ho⟩
      · exact hd
      · exact absurd hk (ho.never_done hit k 0 _ [] out (by omega) (by omega))
    intro hd
    obtain ⟨k, out, hk⟩ := hd.ends hit conv 0 rfl (Nat.zero_le _) []
    refine ⟨k, out, ?_⟩
    simpa [caseMap] using hk
  exact ⟨hboth _, hboth _⟩

/-- The two bytes of U+00E4 are decoded to the end. -/
theorem caseMap_umlaut :
    ∃ k out, toUpperUtf8 utf8proc_iterate (fun c => c - 32) [0xC3, 0xA4] k = .done out := by
  have hstep : (utf8proc_iterate [0xC3, 0xA4]).1 = 2 := by decide +kernel
  refine (caseMap_iff utf8proc_iterate iterates_utf8proc (fun c => c - 32) id [0xC3, 0xA4]).1.2
    (.step (by rw [hstep]; decide) ?_)
  exact .nil

/-- Rounds that come back to where they were are repeated for ever. -/
theorem caseMapLoop_cycle {d n : Int} {r : Nat}
    (hcycle : ∀ (k : Nat) (result : List UInt8), ∃ result',
      caseMapLoop iterate conv text (k + r) d n result = caseMapLoop iterate conv text k d n result')
    (hstart : ∀ k < r, ∀ result, caseMapLoop iterate conv text k d n result = .running)
    (hr : 0 < r) (k : Nat) (result) :
    caseMapLoop iterate conv text k d n result = .running := by
  induction k using Nat.strong_induction_on generalizing result with
  | _ k ih =>
    rcases lt_or_ge k r with hlt | hge
    · exact hstart k hlt result
    obtain ⟨result', hsame⟩ := hcycle (k - r) result
    rw [Nat.sub_add_cancel hge] at hsame
    rw [hsame]
    exact ih (k - r) (by omega) result'

/-- A single byte 0xFF is read, and then the one three bytes before the string; behind three letters
    it sends the loop back to the first letter, for ever. -/
theorem caseMap_invalid :
    toUpperUtf8 utf8proc_iterate id [0xFF] 2 = .outside ∧
      ∀ k, toUpperUtf8 utf8proc_iterate id [97, 98, 99, 0xFF] k = .running := by
  refine ⟨by decide +kernel, fun k => ?_⟩
  refine caseMapLoop_cycle (r := 4) (fun k result => ⟨result ++ [97] ++ [98] ++ [99] ++ [], ?_⟩)
    (fun k hk result => ?_) (by decide) k []
  · rfl
  · interval_cases k <;> rfl

end MegaSdk.CaseMap
