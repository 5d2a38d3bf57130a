/-
  File:      MegaSdk/Sync/Names.lean
  Subject:   HOW TWO NAMES ARE COMPARED (detail::compareUtf, filesystem.cpp).

  A name is the list of its code points.  A side that unescapes may read `%` and two hex digits as
  the character they stand for, but it decides so with the other side's character in view.

  * `Token`, `tokens` -- one reading of a name for all comparisons: every escape that can be
    decoded is decoded; `key` -- the transformed characters of that reading;
  * `Clash` -- two characters of the readings at which the loop does not decide by that reading;
  * **`compareUtf_eq_key`** -- up to the first clash, the loop compares the keys;
  * **`literal_twin`** -- an escape of anything but `%` has a second, different name that it is
    equal to.
-/
import Mathlib

namespace MegaSdk.Sync

open List

/-! ## 1. Code points and escapes -/

/-- A name as `UnicodeCodepointIterator` gives it. -/
abbrev Name := List Int

variable {s₁ s₂ s : Name} {n : Nat}

def escapeChar : Int := 37

/-- The high digit of an escape, `'0'` to `'7'`: one digit less than a hex digit has, so that an
escape is a character below 128. -/
def islchex_high (c : Int) : Bool := 48 ≤ c && c ≤ 55

def islchex_low (c : Int) : Bool := (48 ≤ c && c ≤ 57) || (97 ≤ c && c ≤ 102)

/-- `hexval`, on the bits of a character. -/
def hexval (c : Int) : Nat :=
  ((c.toNat &&& 0xf) + (c.toNat >>> 6)) ||| ((c.toNat >>> 3) &&& 0x8)

def escaped (h l : Int) : Int := ((hexval h <<< 4 ||| hexval l : Nat) : Int)

/-- `decodeEscape`: the character and where the iterator stands behind it. -/
def decodeEscape : Name → Option (Int × Name)
  | h :: l :: s => if islchex_high h && islchex_low l then some (escaped h l, s) else none
  | _ => none

/-! ## 2. The comparison -/

section Compare

variable (transform : Int → Int) (unescaping1 unescaping2 : Bool)

/-- The escape behind `c`, if this side unescapes and `c` begins one. -/
def escapeAt (unescaping : Bool) (c : Int) (s : Name) : Option (Int × Name) :=
  if unescaping && c == escapeChar then decodeEscape s else none

/-- The two characters that one round compares, and where both iterators stand behind them. -/
def consume (c₁ : Int) (s₁ : Name) (c₂ : Int) (s₂ : Name) : (Int × Name) × (Int × Name) :=
  match escapeAt unescaping1 c₁ s₁, escapeAt unescaping2 c₂ s₂ with
  | some e₁, some e₂ =>
    if transform e₁.1 = transform e₂.1 then (e₁, e₂) else ((c₁, s₁), (c₂, s₂))
  | some e₁, none =>
    if transform e₁.1 = transform c₂ ∨ transform c₁ ≠ transform c₂ then (e₁, (c₂, s₂))
    else ((c₁, s₁), (c₂, s₂))
  | none, some e₂ =>
    if transform e₂.1 = transform c₁ ∨ transform c₂ ≠ transform c₁ then ((c₁, s₁), e₂)
    else ((c₁, s₁), (c₂, s₂))
  | none, none => ((c₁, s₁), (c₂, s₂))

/-- The loop.  A round takes at least one character of the first name, so its length is enough. -/
def compareFrom : Nat → Name → Name → Int
  | n + 1, c₁ :: s₁, c₂ :: s₂ =>
    if c₁ ≠ escapeChar ∧ c₂ = c₁ then compareFrom n s₁ s₂
    else
      let e := consume transform unescaping1 unescaping2 c₁ s₁ c₂ s₂
      if e.1.1 ≠ e.2.1 ∧ transform e.1.1 ≠ transform e.2.1 then
        transform e.1.1 - transform e.2.1
      else compareFrom n e.1.2 e.2.2
  | _, [], [] => 0
  | _, [], _ :: _ => -1
  | _, _ :: _, _ => 1

def compareUtf (s₁ s₂ : Name) : Int :=
  compareFrom transform unescaping1 unescaping2 s₁.length s₁ s₂

end Compare

/-! ## 3. One reading of a name -/

/-- A character of a name, or an escape of one by its two digits. -/
inductive Token where
  | literal (c : Int)
  | escape (h l : Int)
deriving Repr, DecidableEq

def Token.value : Token → Int
  | .literal c => c
  | .escape h l => escaped h l

/-- A name read with every escape in it decoded. -/
def tokens : Name → List Token
  | c :: h :: l :: s =>
    if c = escapeChar ∧ islchex_high h ∧ islchex_low l then .escape h l :: tokens s
    else .literal c :: tokens (h :: l :: s)
  | c :: s => .literal c :: tokens s
  | [] => []

/-- A name as one side reads it. -/
def reading (unescaping : Bool) (s : Name) : List Token :=
  if unescaping then tokens s else s.map .literal

/-- The characters of a reading, transformed. -/
def key (transform : Int → Int) (ts : List Token) : List Int := ts.map fun t => transform t.value

/-- How the digits of two escapes compare, as the characters that they are themselves. -/
def digitsOrder (transform : Int → Int) (h₁ l₁ h₂ l₂ : Int) : Ordering :=
  (compare (transform h₁) (transform h₂)).then (compare (transform l₁) (transform l₂))

/-- Two characters at which the loop does not follow the readings: an escape is left undecoded
because its `%` is the other side's character, or two escapes are compared by their digits. -/
def Clash (transform : Int → Int) : Token → Token → Prop
  | .literal _, .literal _ => False
  | .escape h l, .literal c =>
    transform (escaped h l) ≠ transform c ∧ transform escapeChar = transform c
  | .literal c, .escape h l =>
    transform (escaped h l) ≠ transform c ∧ transform escapeChar = transform c
  | .escape h₁ l₁, .escape h₂ l₂ =>
    transform (escaped h₁ l₁) ≠ transform (escaped h₂ l₂) ∧
      digitsOrder transform h₁ l₁ h₂ l₂ ≠
        compare (transform (escaped h₁ l₁)) (transform (escaped h₂ l₂))

/-- No clash where the readings have been equal so far. -/
def Agree (transform : Int → Int) : List Token → List Token → Prop
  | t₁ :: ts₁, t₂ :: ts₂ =>
    ¬ Clash transform t₁ t₂ ∧
      (transform t₁.value = transform t₂.value → Agree transform ts₁ ts₂)
  | _, _ => True

/-! ## 4. A round -/

section Rounds

variable (transform : Int → Int) (u₁ u₂ : Bool)

/-- What stands first in a name: an escape that is decoded, or a character. -/
theorem reading_cons (u : Bool) (c : Int) (s : Name) :
    (∃ h l s', c = escapeChar ∧ s = h :: l :: s' ∧ islchex_high h ∧ islchex_low l ∧
      reading u (c :: s) = .escape h l :: reading u s' ∧
      escapeAt u c s = some (escaped h l, s')) ∨
    (reading u (c :: s) = .literal c :: reading u s ∧ escapeAt u c s = none) := by
  cases u with
  | false => exact .inr ⟨rfl, rfl⟩
  | true =>
    match s with
    | [] | [h] => exact .inr ⟨by simp [reading, tokens], by simp [escapeAt, decodeEscape]⟩
    | h :: l :: s' =>
      by_cases hc : c = escapeChar ∧ islchex_high h ∧ islchex_low l
      · refine .inl ⟨h, l, s', hc.1, rfl, hc.2.1, hc.2.2, ?_, ?_⟩
        · simp [reading, tokens, hc]
        · simp [escapeAt, decodeEscape, hc]
      refine .inr ⟨?_, ?_⟩
      · simp [reading, tokens, hc]
      simp only [escapeAt, decodeEscape]
      split
      · rename_i he
        rw [if_neg]
        intro hd
        simp only [Bool.true_and, beq_iff_eq] at he
        exact hc ⟨he, by simpa using hd⟩
      · rfl

theorem ne_escapeChar_of_high {h : Int} (hh : islchex_high h) : h ≠ escapeChar := by
  simp only [islchex_high, Bool.and_eq_true, decide_eq_true_eq] at hh
  simp only [escapeChar]
  omega

theorem ne_escapeChar_of_low {l : Int} (hl : islchex_low l) : l ≠ escapeChar := by
  simp only [islchex_low, Bool.and_eq_true, Bool.or_eq_true, decide_eq_true_eq] at hl
  simp only [escapeChar]
  omega

theorem escapeAt_of_ne {u : Bool} {c : Int} (hc : c ≠ escapeChar) (s) : escapeAt u c s = none := by
  simp [escapeAt, hc]

theorem compare_sub_zero (a b : Int) : compare (a - b) 0 = compare a b := by
  rcases lt_trichotomy a b with h | h | h
  · rw [compare_lt_iff_lt.2 h, compare_lt_iff_lt.2 (by omega)]
  · rw [compare_eq_iff_eq.2 h, compare_eq_iff_eq.2 (by omega)]
  · rw [compare_gt_iff_gt.2 h, compare_gt_iff_gt.2 (by omega)]

theorem then_of_ne_eq {o : Ordering} (h : o ≠ .eq) (o' : Ordering) : o.then o' = o := by
  cases o with
  | eq => exact absurd rfl h
  | _ => rfl

variable {u₁ u₂}

theorem consume_literals {c₁ c₂ : Int} (h₁ : escapeAt u₁ c₁ s₁ = none)
    (h₂ : escapeAt u₂ c₂ s₂ = none) :
    consume transform u₁ u₂ c₁ s₁ c₂ s₂ = ((c₁, s₁), (c₂, s₂)) := by
  simp [consume, h₁, h₂]

/-- **A round compares the characters it consumes, and the rest decides where they are equal.** -/
theorem compareFrom_cons (n : Nat) (c₁ : Int) (s₁ : Name) (c₂ : Int) (s₂ : Name) :
    compare (compareFrom transform u₁ u₂ (n + 1) (c₁ :: s₁) (c₂ :: s₂)) 0 =
      let e := consume transform u₁ u₂ c₁ s₁ c₂ s₂
      (compare (transform e.1.1) (transform e.2.1)).then
        (compare (compareFrom transform u₁ u₂ n e.1.2 e.2.2) 0) := by
  rw [compareFrom]
  split
  · rename_i hq
    obtain ⟨hne, rfl⟩ := hq
    rw [consume_literals transform (escapeAt_of_ne hne s₁) (escapeAt_of_ne hne s₂)]
    simp
  dsimp only
  split_ifs with hne
  · rw [compare_sub_zero]
    exact (then_of_ne_eq (mt compare_eq_iff_eq.1 hne.2) _).symm
  have heq : transform (consume transform u₁ u₂ c₁ s₁ c₂ s₂).1.1 =
      transform (consume transform u₁ u₂ c₁ s₁ c₂ s₂).2.1 := by
    by_contra hd
    exact hne ⟨fun h => hd (by rw [h]), hd⟩
  rw [compare_eq_iff_eq.2 heq, Ordering.then]

theorem compareFrom_literals (n) {c₁ c₂ : Int} (h₁ : escapeAt u₁ c₁ s₁ = none)
    (h₂ : escapeAt u₂ c₂ s₂ = none) :
    compare (compareFrom transform u₁ u₂ (n + 1) (c₁ :: s₁) (c₂ :: s₂)) 0 =
      (compare (transform c₁) (transform c₂)).then
        (compare (compareFrom transform u₁ u₂ n s₁ s₂) 0) := by
  rw [compareFrom_cons, consume_literals transform h₁ h₂]

/-- Two escapes that are left undecoded are compared by their digits. -/
theorem compareFrom_digits (n) {h₁ l₁ h₂ l₂ : Int} (s₁ s₂) (hh₁ : islchex_high h₁)
    (hl₁ : islchex_low l₁) (hh₂ : islchex_high h₂) (hl₂ : islchex_low l₂) :
    compare (compareFrom transform u₁ u₂ (n + 2) (h₁ :: l₁ :: s₁) (h₂ :: l₂ :: s₂)) 0 =
      (digitsOrder transform h₁ l₁ h₂ l₂).then
        (compare (compareFrom transform u₁ u₂ n s₁ s₂) 0) := by
  rw [compareFrom_literals transform (n + 1) (escapeAt_of_ne (ne_escapeChar_of_high hh₁) _)
      (escapeAt_of_ne (ne_escapeChar_of_high hh₂) _),
    compareFrom_literals transform n (escapeAt_of_ne (ne_escapeChar_of_low hl₁) _)
      (escapeAt_of_ne (ne_escapeChar_of_low hl₂) _), digitsOrder, Ordering.then_assoc]

end Rounds

/-! ## 5. The comparison follows the keys up to a clash -/

section Keys

variable (transform : Int → Int) {u₁ u₂ : Bool}

@[simp] theorem key_cons (t : Token) (ts : List Token) :
    key transform (t :: ts) = transform t.value :: key transform ts := rfl

theorem reading_nil (u : Bool) : reading u [] = [] := by
  cases u <;> rfl

/-- The first two characters of the readings decide, and then what is behind them. -/
theorem key_order_of_round {t₁ t₂ : Token} {ts₁ ts₂ : List Token}
    (ih : Agree transform ts₁ ts₂ → compare (compareFrom transform u₁ u₂ n s₁ s₂) 0 =
      List.compareLex compare (key transform ts₁) (key transform ts₂))
    (hag : Agree transform (t₁ :: ts₁) (t₂ :: ts₂)) :
    (compare (transform t₁.value) (transform t₂.value)).then
        (compare (compareFrom transform u₁ u₂ n s₁ s₂) 0) =
      List.compareLex compare (key transform (t₁ :: ts₁)) (key transform (t₂ :: ts₂)) := by
  rw [key_cons, key_cons, List.compareLex_cons_cons]
  by_cases heq : transform t₁.value = transform t₂.value
  · rw [ih (hag.2 heq)]
  · have hne := mt compare_eq_iff_eq.1 heq
    rw [then_of_ne_eq hne, then_of_ne_eq hne]

variable (u₁ u₂)

theorem compareFrom_eq_key : ∀ (n : Nat) (s₁ s₂ : Name), s₁.length ≤ n →
    Agree transform (reading u₁ s₁) (reading u₂ s₂) →
    compare (compareFrom transform u₁ u₂ n s₁ s₂) 0 =
      List.compareLex compare (key transform (reading u₁ s₁)) (key transform (reading u₂ s₂))
  | n, [], [], _, _ => by
      rw [reading_nil, reading_nil]
      cases n <;> rfl
  | n, [], c₂ :: s₂, _, _ => by
      rw [reading_nil]
      obtain ⟨h, l, s', -, -, -, -, hr, -⟩ | ⟨hr, -⟩ := reading_cons u₂ c₂ s₂ <;>
        rw [hr] <;> cases n <;> rfl
  | n, c₁ :: s₁, [], _, _ => by
      rw [reading_nil]
      obtain ⟨h, l, s', -, -, -, -, hr, -⟩ | ⟨hr, -⟩ := reading_cons u₁ c₁ s₁ <;>
        rw [hr] <;> cases n <;> rfl
  | 0, _ :: _, _ :: _, hn, _ => absurd hn (by simp)
  | n + 1, c₁ :: s₁, c₂ :: s₂, hn, hag => by
      rw [length_cons] at hn
      obtain ⟨h₁, l₁, r₁, rfl, rfl, hh₁, hl₁, hr₁, he₁⟩ | ⟨hr₁, he₁⟩ := reading_cons u₁ c₁ s₁ <;>
        obtain ⟨h₂, l₂, r₂, rfl, rfl, hh₂, hl₂, hr₂, he₂⟩ | ⟨hr₂, he₂⟩ := reading_cons u₂ c₂ s₂ <;>
        rw [hr₁, hr₂] at hag ⊢
      · -- two escapes
        simp only [length_cons] at hn
        by_cases heq : transform (escaped h₁ l₁) = transform (escaped h₂ l₂)
        · rw [compareFrom_cons]
          simp only [consume, he₁, he₂, if_pos heq]
          exact key_order_of_round transform (compareFrom_eq_key n r₁ r₂ (by omega)) hag
        obtain ⟨m, rfl⟩ : ∃ m, n = m + 2 := ⟨n - 2, by omega⟩
        have hd : digitsOrder transform h₁ l₁ h₂ l₂ =
            compare (transform (escaped h₁ l₁)) (transform (escaped h₂ l₂)) := by
          by_contra hd
          exact hag.1 ⟨heq, hd⟩
        have hne := mt compare_eq_iff_eq.1 heq
        rw [compareFrom_cons]
        simp only [consume, he₁, he₂, heq, if_false]
        rw [compare_eq_iff_eq.2 rfl,
          compareFrom_digits transform m r₁ r₂ hh₁ hl₁ hh₂ hl₂, hd, then_of_ne_eq hne,
          key_cons, key_cons, List.compareLex_cons_cons]
        exact (then_of_ne_eq hne _).symm
      · -- an escape and a character
        simp only [length_cons] at hn
        have hcond : transform (escaped h₁ l₁) = transform c₂ ∨
            transform escapeChar ≠ transform c₂ := by
          by_contra hc
          rw [not_or, not_not] at hc
          exact hag.1 hc
        rw [compareFrom_cons]
        simp only [consume, he₁, he₂, if_pos hcond]
        exact key_order_of_round transform (compareFrom_eq_key n r₁ s₂ (by omega)) hag
      · -- a character and an escape
        have hcond : transform (escaped h₂ l₂) = transform c₁ ∨
            transform escapeChar ≠ transform c₁ := by
          by_contra hc
          rw [not_or, not_not] at hc
          exact hag.1 hc
        rw [compareFrom_cons]
        simp only [consume, he₁, he₂, if_pos hcond]
        exact key_order_of_round transform (compareFrom_eq_key n s₁ r₂ (by omega)) hag
      · -- two characters
        rw [compareFrom_literals transform n he₁ he₂]
        exact key_order_of_round transform (compareFrom_eq_key n s₁ s₂ (by omega)) hag

/-- **As long as no two characters clash, `compareUtf` is the order of the keys.** -/
theorem compareUtf_eq_key (hag : Agree transform (reading u₁ s₁) (reading u₂ s₂)) :
    compare (compareUtf transform u₁ u₂ s₁ s₂) 0 =
      List.compareLex compare (key transform (reading u₁ s₁)) (key transform (reading u₂ s₂)) :=
  compareFrom_eq_key transform u₁ u₂ _ s₁ s₂ le_rfl hag

variable {u₁ u₂}

/-! ## 6. Which names clash with nothing, and the second name of the others -/

/-- A reading in which every escape is one of `%` itself. -/
def Plain (ts : List Token) : Prop :=
  ∀ h l, Token.escape h l ∈ ts → transform (escaped h l) = transform escapeChar

theorem plain_literals (s : Name) : Plain transform (s.map .literal) := by
  intro h l hm
  obtain ⟨c, -, hc⟩ := mem_map.1 hm
  cases hc

theorem agree_of_plain : ∀ {ts₁ ts₂ : List Token}, Plain transform ts₁ → Plain transform ts₂ →
    Agree transform ts₁ ts₂
  | [], _, _, _ => trivial
  | _ :: _, [], _, _ => trivial
  | t₁ :: ts₁, t₂ :: ts₂, h₁, h₂ => by
      refine ⟨?_, fun _ => agree_of_plain (fun h l hm => h₁ h l (mem_cons_of_mem _ hm))
        (fun h l hm => h₂ h l (mem_cons_of_mem _ hm))⟩
      intro hc
      cases t₁ with
      | literal c₁ =>
        cases t₂ with
        | literal c₂ => exact hc
        | escape h l => exact hc.1 ((h₂ h l mem_cons_self).trans hc.2)
      | escape h l =>
        have h₁' := h₁ h l mem_cons_self
        cases t₂ with
        | literal c₂ => exact hc.1 (h₁'.trans hc.2)
        | escape h' l' => exact hc.1 (h₁'.trans (h₂ h' l' mem_cons_self).symm)

def decoded (ts : List Token) : Name := ts.map Token.value

theorem agree_decoded : ∀ ts : List Token, Agree transform ts ((decoded ts).map .literal)
  | [] => trivial
  | t :: ts => by
      refine ⟨?_, fun _ => agree_decoded ts⟩
      cases t with
      | literal c => exact id
      | escape h l => exact fun hc => hc.1 rfl

theorem key_decoded (ts : List Token) :
    key transform ((decoded ts).map .literal) = key transform ts := by
  simp only [key, decoded, map_map]
  rfl

theorem compareFrom_decoded (hn : s.length ≤ n) :
    compareFrom transform true false n s (decoded (tokens s)) = 0 := by
  have h := compareFrom_eq_key transform true false n s (decoded (tokens s)) hn
    (agree_decoded transform (tokens s))
  have hk : key transform (reading false (decoded (tokens s))) = key transform (tokens s) :=
    key_decoded transform (tokens s)
  exact compare_eq_iff_eq.1 (h.trans (Std.LawfulEqCmp.compare_eq_iff_eq.2 hk.symm))

theorem compareFrom_same {c : Int} (hc : escapeAt u₁ c s₁ = none) (hc' : escapeAt u₂ c s₂ = none)
    (h : compareFrom transform u₁ u₂ n s₁ s₂ = 0) :
    compareFrom transform u₁ u₂ (n + 1) (c :: s₁) (c :: s₂) = 0 := by
  refine compare_eq_iff_eq.1 ?_
  rw [compareFrom_literals transform n hc hc', h, compare_eq_iff_eq.2 rfl]
  rfl

theorem twin_of_escape : ∀ (n : Nat) (s : Name), s.length ≤ n → ¬ Plain transform (tokens s) →
    ∃ d : Name, compareFrom transform true false n s d = 0 ∧
      key transform (d.map .literal) ≠ key transform (tokens s)
  | _, [], _, hp => absurd (fun h l hm => by simp [tokens] at hm) hp
  | 0, _ :: _, hn, _ => absurd hn (by simp)
  | n + 1, c :: s, hn, hp => by
      rw [length_cons] at hn
      obtain ⟨h, l, r, rfl, rfl, hh, hl, hr, he⟩ | ⟨hr, he⟩ := reading_cons true c s
      · replace hr : tokens (escapeChar :: h :: l :: r) = .escape h l :: tokens r := hr
        rw [hr] at hp ⊢
        simp only [length_cons] at hn
        by_cases heq : transform (escaped h l) = transform escapeChar
        · -- this escape is a percent sign, so another one is not
          have hp' : ¬ Plain transform (tokens r) := by
            intro hpl
            apply hp
            intro h' l' hm
            rcases mem_cons.1 hm with hm | hm
            · cases hm
              exact heq
            · exact hpl h' l' hm
          obtain ⟨d, hd, hk⟩ := twin_of_escape n r (by omega) hp'
          refine ⟨escaped h l :: d, ?_, ?_⟩
          · refine compare_eq_iff_eq.1 ?_
            rw [compareFrom_cons]
            have he' : escapeAt false (escaped h l) d = none := rfl
            simp only [consume, he, he', true_or, if_true, hd]
            rw [compare_eq_iff_eq.2 rfl]
            rfl
          · intro hc
            exact hk (List.cons.inj hc).2
        -- the other side has the percent sign and the digits
        obtain ⟨m, rfl⟩ : ∃ m, n = m + 2 := ⟨n - 2, by omega⟩
        refine ⟨escapeChar :: h :: l :: decoded (tokens r), ?_, ?_⟩
        · refine compare_eq_iff_eq.1 ?_
          have hcond : ¬ (transform (escaped h l) = transform escapeChar ∨
              transform escapeChar ≠ transform escapeChar) := by
            rw [not_or, not_not]
            exact ⟨heq, rfl⟩
          have he' : escapeAt false escapeChar (h :: l :: decoded (tokens r)) = none := rfl
          rw [compareFrom_cons]
          simp only [consume, he, he', if_neg hcond]
          rw [compareFrom_same transform (escapeAt_of_ne (ne_escapeChar_of_high hh) _) rfl
            (compareFrom_same transform (escapeAt_of_ne (ne_escapeChar_of_low hl) _) rfl
              (compareFrom_decoded transform (by omega))), compare_eq_iff_eq.2 rfl]
          rfl
        · intro hc
          exact heq (List.cons.inj hc).1.symm
      replace hr : tokens (c :: s) = .literal c :: tokens s := hr
      rw [hr] at hp ⊢
      have hp' : ¬ Plain transform (tokens s) := by
        intro hpl
        apply hp
        intro h' l' hm
        rcases mem_cons.1 hm with hm | hm
        · cases hm
        · exact hpl h' l' hm
      obtain ⟨d, hd, hk⟩ := twin_of_escape n s (by omega) hp'
      refine ⟨c :: d, compareFrom_same transform he rfl hd, ?_⟩
      intro hc
      exact hk (List.cons.inj hc).2

/-- **A name with an escape of anything but `%` has two local names that it is equal to and that
differ from each other:** what it decodes to, and one that keeps the escape as it is written. -/
theorem literal_twin (hp : ¬ Plain transform (tokens s)) :
    ∃ d : Name, compareUtf transform true false s d = 0 ∧
      compareUtf transform true false s (decoded (tokens s)) = 0 ∧
      compareUtf transform false false (decoded (tokens s)) d ≠ 0 := by
  obtain ⟨d, hd, hk⟩ := twin_of_escape transform s.length s le_rfl hp
  refine ⟨d, hd, compareFrom_decoded transform le_rfl, ?_⟩
  intro h0
  have h := compareUtf_eq_key transform false false
    (agree_of_plain transform (plain_literals transform (decoded (tokens s)))
      (plain_literals transform d))
  rw [h0] at h
  have heq := Std.LawfulEqCmp.compare_eq_iff_eq.1 h.symm
  exact hk (heq.symm.trans (key_decoded transform (tokens s)))

end Keys

end MegaSdk.Sync
