/-
  File:      MegaSdk/Json/Scanner.lean
  Subject:   `JSON` (json.h, json.cpp): THE SCANNER that a value is skipped or stored with.

  A pointer is the list of the bytes from where it points to the end of the buffer, the terminating
  NUL included; what reads behind that is an `overread`.

  * `Quoted`, `Lex`, `Closes` -- the texts they accept, without a loop: the inside of a string, one
    lexeme with what it opens, the lexemes up to where nothing is open;
  * `Complete` -- every value that stands behind separators and values has its end;
  * **`leaveobject_ends_iff`** -- `leaveobject` never reads behind the terminator, and it ends
    exactly on complete texts.
-/
import MegaSdk.Json.Splitter

namespace MegaSdk.Json

open List

/-! ## 1. The code -/

/-- The bytes from where a pointer stands to the end of the buffer. -/
abbrev Cursor := List UInt8

variable {p q : Cursor} {c : UInt8} {n : Nat} (o : Int × Int)

/-- What keeps a call from returning: it reads behind the buffer, or it is not done after the
rounds it was given. -/
inductive Trap
  | overread
  | unended
  deriving DecidableEq

def deref : Cursor → Except Trap UInt8
  | [] => .error .overread
  | c :: _ => .ok c

def isDigit (c : UInt8) : Bool := ch '0' ≤ c && c ≤ ch '9'

/-- What a number begins with. -/
def startsNumber (c : UInt8) : Bool := isDigit c || c == ch '-' || c == ch '.'

def inNumber (c : UInt8) : Bool := isDigit c || c == ch '.' || c == ch 'e' || c == ch 'E'

/-- `while (*(const signed char*)pos > 0 && *pos <= ' ')`. -/
def skipBlanks : Cursor → Except Trap Cursor
  | [] => .error .overread
  | c :: pos => if 0 < c ∧ c ≤ ch ' ' then skipBlanks pos else .ok (c :: pos)

/-- `while (*ptr && (escaped || *ptr != '"'))`. -/
def stringLoop : Bool → Cursor → Except Trap Cursor
  | _, [] => .error .overread
  | escaped, c :: ptr =>
    if c ≠ 0 ∧ (escaped = true ∨ c ≠ ch '"') then stringLoop (c == ch '\\' && !escaped) ptr
    else .ok (c :: ptr)

def numberLoop : Cursor → Except Trap Cursor
  | [] => .error .overread
  | c :: ptr => if inNumber c then numberLoop ptr else .ok (c :: ptr)

/-- One round of `storeobject`: `openobject` (braces, brackets) and `ptr` behind it, or a parse
error. -/
def lexeme (openobject : Int × Int) : Cursor → Except Trap (Option ((Int × Int) × Cursor))
  | [] => .error .overread
  | c :: ptr =>
    if c = ch '[' then .ok (some (openobject + (0, 1), ptr))
    else if c = ch '{' then .ok (some (openobject + (1, 0), ptr))
    else if c = ch ']' then .ok (some (openobject + (0, -1), ptr))
    else if c = ch '}' then .ok (some (openobject + (-1, 0), ptr))
    else if c = ch '"' then
      -- `escaped` is false again behind every string
      match stringLoop false ptr with
      | .error e => .error e
      | .ok [] => .error .overread
      | .ok (d :: ptr) => if d = 0 then .ok none else .ok (some (openobject, ptr))
    else if startsNumber c then
      match numberLoop ptr with
      | .error e => .error e
      | .ok ptr => .ok (some (openobject, ptr))
    else if c ≠ ch ':' ∧ c ≠ ch ',' then .ok none
    else .ok (some (openobject, ptr))

/-- The loop of `storeobject`. Every round moves `ptr`. -/
def storeLoop : Nat → Int × Int → Cursor → Except Trap (Option Cursor)
  | 0, _, _ => .error .unended
  | n + 1, openobject, ptr =>
    match lexeme openobject ptr with
    | .error e => .error e
    | .ok none => .ok none
    | .ok (some (openobject, ptr)) =>
      if openobject = 0 then .ok (some ptr) else storeLoop n openobject ptr

/-- What `storeobject` puts into `*s`: a string without its quotes, anything else as it stands. -/
def stored (pos ptr : Cursor) : List UInt8 :=
  if pos.head? = some (ch '"') then (pos.drop 1).take (pos.length - ptr.length - 2)
  else pos.take (pos.length - ptr.length)

/-- `storeobject(string* s)`: `*s` when it returns true, and `pos` behind the call. -/
def storeobject (pos : Cursor) : Except Trap (Option (List UInt8) × Cursor) := do
  let pos ← skipBlanks pos
  let c ← deref pos
  if c = ch ']' ∨ c = ch '}' then .ok (none, pos)
  else
    let pos := if c = ch ',' then pos.tail else pos
    match ← storeLoop pos.length 0 pos with
    | none => .ok (none, pos)
    | some ptr => .ok (some (stored pos ptr), ptr)

/-- `':'`, `','` and `' '`, and `']'` with a message: what `leaveobject` steps over. -/
def isSeparator (c : UInt8) : Bool := c == ch ':' || c == ch ',' || c == ch ' ' || c == ch ']'

/-- What `leaveobject` calls `storeobject` on. -/
def startsValue (c : UInt8) : Bool :=
  c == ch '"' || isDigit c || c == ch '-' || c == ch '[' || c == ch '{'

/-- The loop of `leaveobject`, with at most `n` rounds. -/
def leaveLoop : Nat → Cursor → Except Trap Cursor
  | 0, _ => .error .unended
  | n + 1, pos => do
      let c ← deref pos
      if isSeparator c then leaveLoop n pos.tail
      else if startsValue c then
        let (_, pos) ← storeobject pos
        leaveLoop n pos
      else .ok pos

/-- `leaveobject()`: what it returns, and `pos` behind the call. -/
def leaveobject (n : Nat) (pos : Cursor) : Except Trap (Bool × Cursor) := do
  let pos ← leaveLoop n pos
  let c ← deref pos
  if c = ch '}' then .ok (true, pos.tail) else .ok (false, pos)

/-! ## 2. The texts -/

/-- The inside of a string: a backslash takes the next byte with it. -/
inductive Quoted : List UInt8 → Prop
  | nil : Quoted []
  | plain {c : UInt8} {t : List UInt8} :
      c ≠ 0 → c ≠ ch '"' → c ≠ ch '\\' → Quoted t → Quoted (c :: t)
  | escape {c : UInt8} {t : List UInt8} : c ≠ 0 → Quoted t → Quoted (ch '\\' :: c :: t)

/-- `Lex p d q`: between `p` and `q` there is one lexeme, and it opens `d` (braces, brackets). A
number is as long as it can be. -/
inductive Lex : Cursor → Int × Int → Cursor → Prop
  | openBracket {p : Cursor} : Lex (ch '[' :: p) (0, 1) p
  | openBrace {p : Cursor} : Lex (ch '{' :: p) (1, 0) p
  | closeBracket {p : Cursor} : Lex (ch ']' :: p) (0, -1) p
  | closeBrace {p : Cursor} : Lex (ch '}' :: p) (-1, 0) p
  | mark {c : UInt8} {p : Cursor} : c = ch ':' ∨ c = ch ',' → Lex (c :: p) 0 p
  | string {t p : List UInt8} : Quoted t → Lex (ch '"' :: (t ++ ch '"' :: p)) 0 p
  | number {c : UInt8} {t p : List UInt8} : startsNumber c = true → (∀ b ∈ t, inNumber b = true) →
      (∀ b ∈ p.head?, inNumber b = false) → Lex (c :: (t ++ p)) 0 p

/-- `Closes o p q`: with `o` open at `p`, the lexemes from there on come to where nothing is open,
for the first time at `q`. -/
inductive Closes : Int × Int → Cursor → Cursor → Prop
  | last {o d : Int × Int} {p q : Cursor} : Lex p d q → o + d = 0 → Closes o p q
  | more {o d : Int × Int} {p q r : Cursor} : Lex p d q → o + d ≠ 0 → Closes (o + d) q r →
      Closes o p r

/-! ## 3. The loops accept these texts -/

theorem stringLoop_quoted {t : List UInt8} (h : Quoted t) (p : Cursor) :
    stringLoop false (t ++ ch '"' :: p) = .ok (ch '"' :: p) := by
  induction h with
  | nil => simp [stringLoop]
  | @plain c t h0 hq hb _ ih =>
    rw [cons_append, stringLoop, if_pos ⟨h0, .inr hq⟩]
    have hf : (c == ch '\\' && !false) = false := by simpa using hb
    rwa [hf]
  | @escape c t h0 _ ih =>
    rw [cons_append, stringLoop, if_pos (by decide), cons_append]
    have ht : (ch '\\' == ch '\\' && !false) = true := by decide
    rw [ht, stringLoop, if_pos ⟨h0, .inl rfl⟩]
    have hf : (c == ch '\\' && !true) = false := by simp
    rwa [hf]

/-- In a buffer with a terminator the loop stops there, or at the end of the string. -/
theorem stringLoop_cases : ∀ {p : Cursor}, (0 : UInt8) ∈ p →
    (∃ q, stringLoop false p = .ok (0 :: q)) ∨
      ∃ t q, Quoted t ∧ p = t ++ ch '"' :: q ∧ stringLoop false p = .ok (ch '"' :: q) ∧
        (0 : UInt8) ∈ q
  | [], h => absurd h (by simp)
  | [c], h => by
      have hc : c = 0 := (mem_singleton.1 h).symm
      subst hc
      exact .inl ⟨[], by decide⟩
  | c :: d :: p, h => by
      by_cases h0 : c = 0
      · subst h0
        exact .inl ⟨d :: p, by simp [stringLoop]⟩
      have h1 : (0 : UInt8) ∈ d :: p := by
        rcases mem_cons.1 h with h | h
        · exact absurd h.symm h0
        · exact h
      by_cases hq : c = ch '"'
      · subst hq
        exact .inr ⟨[], d :: p, .nil, rfl, by simp [stringLoop], h1⟩
      have hstep : stringLoop false (c :: d :: p) = stringLoop (c == ch '\\') (d :: p) := by
        rw [stringLoop, if_pos ⟨h0, .inr hq⟩]
        simp
      rw [hstep]
      by_cases hb : c = ch '\\'
      · subst hb
        by_cases hd : d = 0
        · subst hd
          exact .inl ⟨p, by simp [stringLoop]⟩
        have h2 : (0 : UInt8) ∈ p := by
          rcases mem_cons.1 h1 with h | h
          · exact absurd h.symm hd
          · exact h
        have hstep₂ : stringLoop (ch '\\' == ch '\\') (d :: p) = stringLoop false p := by
          rw [stringLoop, if_pos ⟨hd, .inl (by decide)⟩]
          simp
        rw [hstep₂]
        rcases stringLoop_cases h2 with ⟨q, hr⟩ | ⟨t, q, ht, rfl, hr, hq0⟩
        · exact .inl ⟨q, hr⟩
        · exact .inr ⟨ch '\\' :: d :: t, q, .escape hd ht, rfl, hr, hq0⟩
      · have hf : (c == ch '\\') = false := by simpa using hb
        rw [hf]
        rcases stringLoop_cases h1 with ⟨q, hr⟩ | ⟨t, q, ht, he, hr, hq0⟩
        · exact .inl ⟨q, hr⟩
        · exact .inr ⟨c :: t, q, .plain h0 hq hb ht, by rw [he]; rfl, hr, hq0⟩

theorem numberLoop_eq (h : (0 : UInt8) ∈ p) :
    numberLoop p = .ok (p.dropWhile inNumber) ∧ (0 : UInt8) ∈ p.dropWhile inNumber := by
  induction p with
  | nil => cases h
  | cons c p ih =>
    by_cases hc : inNumber c = true
    · have hp : (0 : UInt8) ∈ p := by
        rcases mem_cons.1 h with h | h
        · rw [← h] at hc
          cases hc
        · exact h
      rw [numberLoop, if_pos hc, dropWhile_cons_of_pos hc]
      exact ih hp
    · rw [numberLoop, if_neg hc, dropWhile_cons_of_neg hc]
      exact ⟨rfl, h⟩

theorem dropWhile_inNumber {t p : List UInt8} (ht : ∀ b ∈ t, inNumber b = true)
    (hp : ∀ b ∈ p.head?, inNumber b = false) : (t ++ p).dropWhile inNumber = p := by
  rw [dropWhile_append_of_pos ht]
  cases p with
  | nil => rfl
  | cons b p => rw [dropWhile_cons_of_neg (by simp [hp b rfl])]

theorem head_dropWhile_inNumber (p : Cursor) :
    ∀ b ∈ (p.dropWhile inNumber).head?, inNumber b = false := by
  intro b hb
  have := head?_dropWhile_not inNumber p
  rw [Option.mem_def.1 hb] at this
  simpa using this

theorem startsNumber_ne (h : startsNumber c = true) :
    c ≠ ch '[' ∧ c ≠ ch '{' ∧ c ≠ ch ']' ∧ c ≠ ch '}' ∧ c ≠ ch '"' := by
  refine ⟨?_, ?_, ?_, ?_, ?_⟩ <;>
  · rintro rfl
    exact absurd h (by decide)

theorem lexeme_of_lex {d : Int × Int} (h : Lex p d q) (h0 : (0 : UInt8) ∈ p) :
    lexeme o p = .ok (some (o + d, q)) := by
  cases h with
  | openBracket => simp [lexeme]
  | openBrace => rfl
  | closeBracket => rfl
  | closeBrace => rfl
  | mark hc =>
    rw [add_zero]
    rcases hc with rfl | rfl <;> rfl
  | string ht =>
    rw [add_zero, lexeme, stringLoop_quoted ht]
    exact if_neg (by decide)
  | @number c t _ hc ht hq =>
    obtain ⟨h1, h2, h3, h4, h5⟩ := startsNumber_ne hc
    have h0' : (0 : UInt8) ∈ t ++ q := by
      rcases mem_cons.1 h0 with h | h
      · exact absurd (h ▸ hc) (by decide)
      · exact h
    rw [add_zero, lexeme, if_neg h1, if_neg h2, if_neg h3, if_neg h4, if_neg h5, if_pos hc,
      (numberLoop_eq h0').1, dropWhile_inNumber ht hq]

/-- **One round of `storeobject`** takes one lexeme, or there is none. -/
theorem lexeme_cases (h : (0 : UInt8) ∈ p) :
    (∃ d q, Lex p d q ∧ lexeme o p = .ok (some (o + d, q)) ∧ (0 : UInt8) ∈ q ∧
        q.length < p.length) ∨
      (lexeme o p = .ok none ∧ ∀ d q, ¬ Lex p d q) := by
  -- where the round ends in an error there is no lexeme
  have hnone : lexeme o p = .ok none → ∀ d q, ¬ Lex p d q := fun he d q hl => by
    cases he.symm.trans (lexeme_of_lex o hl h)
  suffices hs : (∃ d q, Lex p d q ∧ (0 : UInt8) ∈ q ∧ q.length < p.length) ∨
      lexeme o p = .ok none by
    rcases hs with ⟨d, q, hl, hq, hlen⟩ | he
    · exact .inl ⟨d, q, hl, lexeme_of_lex o hl h, hq, hlen⟩
    · exact .inr ⟨he, hnone he⟩
  cases p with
  | nil => cases h
  | cons c p =>
    have htail : c ≠ 0 → (0 : UInt8) ∈ p := fun hc => by
      rcases mem_cons.1 h with h | h
      · exact absurd h.symm hc
      · exact h
    have hlt : p.length < (c :: p).length := by simp
    rw [lexeme]
    split
    · subst_vars
      exact .inl ⟨_, p, .openBracket, htail (by decide), hlt⟩
    split
    · subst_vars
      exact .inl ⟨_, p, .openBrace, htail (by decide), hlt⟩
    split
    · subst_vars
      exact .inl ⟨_, p, .closeBracket, htail (by decide), hlt⟩
    split
    · subst_vars
      exact .inl ⟨_, p, .closeBrace, htail (by decide), hlt⟩
    split
    · subst_vars
      rcases stringLoop_cases (htail (by decide)) with ⟨q, hr⟩ | ⟨t, q, ht, rfl, -, hq⟩
      · rw [hr]
        exact .inr (if_pos rfl)
      · exact .inl ⟨_, q, .string ht, hq, by simp only [length_cons, length_append]; omega⟩
    split
    · rename_i hc
      have hp := htail fun h0 => by
        rw [h0] at hc
        exact absurd hc (by decide)
      refine .inl ⟨0, p.dropWhile inNumber, ?_, (numberLoop_eq hp).2, ?_⟩
      · have hl : Lex (c :: (p.takeWhile inNumber ++ p.dropWhile inNumber)) 0
            (p.dropWhile inNumber) :=
          .number hc (fun b hb => mem_takeWhile_imp hb) (head_dropWhile_inNumber p)
        rwa [takeWhile_append_dropWhile] at hl
      have := (dropWhile_sublist (p := inNumber) (l := p)).length_le
      omega
    split
    · exact .inr rfl
    rename_i hc
    rw [not_and_or, not_not, not_not] at hc
    refine .inl ⟨0, p, .mark hc, htail ?_, hlt⟩
    rcases hc with rfl | rfl <;> decide

theorem Lex.rest {d : Int × Int} (hl : Lex p d q) (h : (0 : UInt8) ∈ p) :
    (0 : UInt8) ∈ q ∧ q.length < p.length := by
  have he := lexeme_of_lex 0 hl h
  rcases lexeme_cases 0 h with ⟨d', q', -, he', h0, hlen⟩ | ⟨he', -⟩
  · obtain ⟨-, rfl⟩ := Prod.mk.inj (Option.some.inj (Except.ok.inj (he.symm.trans he')))
    exact ⟨h0, hlen⟩
  · cases he.symm.trans he'

theorem storeLoop_of_closes {o : Int × Int} (hc : Closes o p q) (h : (0 : UInt8) ∈ p)
    (hn : p.length ≤ n) : storeLoop n o p = .ok (some q) := by
  induction hc generalizing n with
  | last hl hz =>
    have hlen := (hl.rest h).2
    obtain _ | n := n
    · omega
    simp [storeLoop, lexeme_of_lex _ hl h, if_pos hz]
  | more hl hz _ ih =>
    obtain ⟨h0, hlen⟩ := hl.rest h
    obtain _ | n := n
    · omega
    simp only [storeLoop, lexeme_of_lex _ hl h, if_neg hz]
    exact ih h0 (by omega)

theorem closes_unique {o : Int × Int} {q' : Cursor} (h : (0 : UInt8) ∈ p) (hc : Closes o p q)
    (hc' : Closes o p q') : q = q' := by
  have he := storeLoop_of_closes hc h le_rfl
  cases he.symm.trans (storeLoop_of_closes hc' h le_rfl)
  rfl

/-- **The loop of `storeobject`** ends where nothing is open for the first time. -/
theorem storeLoop_cases (h : (0 : UInt8) ∈ p) (hn : p.length ≤ n) :
    (∃ q, Closes o p q ∧ storeLoop n o p = .ok (some q) ∧ (0 : UInt8) ∈ q ∧
        q.length < p.length) ∨
      (storeLoop n o p = .ok none ∧ ∀ q, ¬ Closes o p q) := by
  suffices hs : (∃ q, Closes o p q ∧ (0 : UInt8) ∈ q ∧ q.length < p.length) ∨
      storeLoop n o p = .ok none by
    rcases hs with ⟨q, hc, h0, hlen⟩ | he
    · exact .inl ⟨q, hc, storeLoop_of_closes hc h hn, h0, hlen⟩
    · exact .inr ⟨he, fun q hc => by cases he.symm.trans (storeLoop_of_closes hc h hn)⟩
  induction n generalizing o p with
  | zero =>
    rw [length_eq_zero_iff.1 (Nat.le_zero.1 hn)] at h
    cases h
  | succ n ih =>
    rcases lexeme_cases o h with ⟨d, q, hl, he, hq, hlen⟩ | ⟨he, -⟩
    · by_cases hz : o + d = 0
      · exact .inl ⟨q, .last hl hz, hq, hlen⟩
      · rcases ih (o + d) hq (by omega) with ⟨r, hr, hr0, hrlen⟩ | her
        · exact .inl ⟨r, .more hl hz hr, hr0, by omega⟩
        · exact .inr (by simp only [storeLoop, he, if_neg hz, her])
    · exact .inr (by simp only [storeLoop, he])

/-! ## 4. Storing a value -/

/-- `storeobject` neither skips nor refuses what stands at `pos`. -/
def AtValue (c : UInt8) : Prop :=
  ¬ (0 < c ∧ c ≤ ch ' ') ∧ c ≠ ch ']' ∧ c ≠ ch '}' ∧ c ≠ ch ','

instance (c : UInt8) : Decidable (AtValue c) := inferInstanceAs (Decidable (_ ∧ _ ∧ _ ∧ _))

theorem atValue_of_startsValue (h : startsValue c = true) : AtValue c := by
  simp only [startsValue, isDigit, Bool.or_eq_true, Bool.and_eq_true, beq_iff_eq,
    decide_eq_true_eq] at h
  rcases h with (((rfl | ⟨h1, h2⟩) | rfl) | rfl) | rfl
  · decide
  · refine ⟨fun hc => ?_, ?_, ?_, ?_⟩
    · exact absurd (UInt8.le_trans h1 hc.2) (by decide)
    · rintro rfl
      exact absurd h2 (by decide)
    · rintro rfl
      exact absurd h2 (by decide)
    · rintro rfl
      exact absurd h1 (by decide)
  all_goals decide

theorem storeobject_eq (hc : AtValue c) :
    storeobject (c :: p) = match storeLoop (p.length + 1) 0 (c :: p) with
      | .error e => .error e
      | .ok none => .ok (none, c :: p)
      | .ok (some ptr) => .ok (some (stored (c :: p) ptr), ptr) := by
  obtain ⟨h1, h2, h3, h4⟩ := hc
  unfold storeobject
  rw [skipBlanks, if_neg h1]
  show (if c = ch ']' ∨ c = ch '}' then _ else _) = _
  rw [if_neg (not_or.2 ⟨h2, h3⟩), if_neg h4]
  cases storeLoop (p.length + 1) 0 (c :: p) with
  | error e => rfl
  | ok r =>
    cases r with
    | _ => rfl

/-- **At a value, `storeobject`** stores what closes, and else returns false and stays. -/
theorem storeobject_cases (hc : AtValue c) (h : (0 : UInt8) ∈ c :: p) :
    (∃ q, Closes 0 (c :: p) q ∧ storeobject (c :: p) = .ok (some (stored (c :: p) q), q) ∧
        (0 : UInt8) ∈ q ∧ q.length < (c :: p).length) ∨
      (storeobject (c :: p) = .ok (none, c :: p) ∧ ∀ q, ¬ Closes 0 (c :: p) q) := by
  rw [storeobject_eq hc]
  rcases storeLoop_cases 0 h (n := p.length + 1) (by simp) with ⟨q, hq, he, h0, hlen⟩ | ⟨he, hno⟩
  · exact .inl ⟨q, hq, by rw [he], h0, hlen⟩
  · exact .inr ⟨by rw [he], hno⟩

/-! ## 5. Leaving an object -/

/-- What `leaveobject` goes over in a round: a separator, or a value that has its end. -/
inductive Skips : Cursor → Cursor → Prop
  | separator {c : UInt8} {p : Cursor} : isSeparator c = true → Skips (c :: p) p
  | value {c : UInt8} {p q : Cursor} : startsValue c = true → Closes 0 (c :: p) q →
      Skips (c :: p) q

/-- Behind separators and values, every value has its end: strings are closed, and brackets are
closed before a byte that begins no lexeme. -/
def Complete (p : Cursor) : Prop :=
  ∀ c q, Relation.ReflTransGen Skips p (c :: q) → startsValue c = true → ∃ r, Closes 0 (c :: q) r

/-- `leaveobject` returns, and however long it runs it reads nothing behind the buffer. -/
def Returns (p : Cursor) : Prop :=
  (∃ n r, leaveobject n p = .ok r) ∧ ∀ n, leaveobject n p ≠ .error .overread

theorem not_startsValue_of_separator (h : isSeparator c = true) : startsValue c = false := by
  simp only [isSeparator, Bool.or_eq_true, beq_iff_eq] at h
  rcases h with ((rfl | rfl) | rfl) | rfl <;> decide

/-- A round goes over what can be skipped; else it stays on a value without end, or it is the last. -/
theorem leaveLoop_cases (h : (0 : UInt8) ∈ p) :
    (∃ q, Skips p q ∧ (0 : UInt8) ∈ q ∧ q.length < p.length ∧
        ∀ n, leaveLoop (n + 1) p = leaveLoop n q) ∨
      (∃ c q, p = c :: q ∧ startsValue c = true ∧ (∀ r, ¬ Closes 0 p r) ∧
        ∀ n, leaveLoop (n + 1) p = leaveLoop n p) ∨
      (∃ c q, p = c :: q ∧ isSeparator c = false ∧ startsValue c = false ∧
        ∀ n, leaveLoop (n + 1) p = .ok p) := by
  cases p with
  | nil => cases h
  | cons c p =>
    have hround : ∀ n, leaveLoop (n + 1) (c :: p) =
        if isSeparator c then leaveLoop n p
        else if startsValue c then (storeobject (c :: p)).bind fun r => leaveLoop n r.2
        else .ok (c :: p) := fun n => rfl
    by_cases hs : isSeparator c = true
    · have h0 : (0 : UInt8) ∈ p := by
        rcases mem_cons.1 h with h | h
        · rw [← h] at hs
          exact absurd hs (by decide)
        · exact h
      exact .inl ⟨p, .separator hs, h0, by simp, fun n => by rw [hround, if_pos hs]⟩
    by_cases hv : startsValue c = true
    · rcases storeobject_cases (atValue_of_startsValue hv) h with ⟨q, hq, he, h0, hlen⟩ | ⟨he, hno⟩
      · exact .inl ⟨q, .value hv hq, h0, hlen, fun n => by
          rw [hround, if_neg hs, if_pos hv, he]
          rfl⟩
      · exact .inr (.inl ⟨c, p, rfl, hv, hno, fun n => by
          rw [hround, if_neg hs, if_pos hv, he]
          rfl⟩)
    · exact .inr (.inr ⟨c, p, rfl, by simpa using hs, by simpa using hv, fun n => by
        rw [hround, if_neg hs, if_neg hv]⟩)

/-- The loop reads nothing behind a terminator, and stops at or before it. -/
theorem leaveLoop_reads (n : Nat) (h : (0 : UInt8) ∈ p) :
    leaveLoop n p = .error .unended ∨ ∃ q, leaveLoop n p = .ok q ∧ (0 : UInt8) ∈ q := by
  induction n generalizing p with
  | zero => exact .inl rfl
  | succ n ih =>
    rcases leaveLoop_cases h with ⟨q, -, h0, -, he⟩ | ⟨c, q, -, -, -, he⟩ | ⟨c, q, -, -, -, he⟩
    · rw [he]
      exact ih h0
    · rw [he]
      exact ih h
    · exact .inr ⟨p, he n, h⟩

section

variable (h : (0 : UInt8) ∈ p)
include h

/-- On a complete text every round moves on, so the bytes left bound the rounds. -/
theorem leaveLoop_ends (hc : Complete p) (hn : p.length ≤ n) :
    ∃ q, leaveLoop n p = .ok q := by
  induction n generalizing p with
  | zero =>
    rw [length_eq_zero_iff.1 (Nat.le_zero.1 hn)] at h
    cases h
  | succ n ih =>
    rcases leaveLoop_cases h with ⟨q, hs, h0, hlen, he⟩ | ⟨c, q, rfl, hv, hno, -⟩ | ⟨c, q, -, -, -, he⟩
    · rw [he]
      exact ih h0 (fun c r hr => hc c r (.head hs hr)) (by omega)
    · obtain ⟨r, hr⟩ := hc c q .refl hv
      exact absurd hr (hno r)
    · exact ⟨p, he n⟩

theorem skips_unique {q' : Cursor} (hs : Skips p q) (hs' : Skips p q') :
    q = q' := by
  cases hs with
  | separator hc =>
    cases hs' with
    | separator _ => rfl
    | value hv _ => exact absurd hv (by simp [not_startsValue_of_separator hc])
  | value hv hq =>
    cases hs' with
    | separator hc => exact absurd hv (by simp [not_startsValue_of_separator hc])
    | value _ hq' => exact closes_unique h hq hq'

theorem complete_of_skips (hs : Skips p q) (hc : Complete q) :
    Complete p := by
  intro c r hr hv
  rcases Relation.ReflTransGen.cases_head hr with rfl | ⟨q', hs', hr'⟩
  · cases hs with
    | separator hsep => exact absurd hv (by simp [not_startsValue_of_separator hsep])
    | value _ hq => exact ⟨_, hq⟩
  · obtain rfl := skips_unique h hs hs'
    exact hc c r hr' hv

theorem complete_of_leaveLoop (he : leaveLoop n p = .ok q) : Complete p := by
  induction n generalizing p with
  | zero => cases he
  | succ n ih =>
    rcases leaveLoop_cases h with ⟨r, hs, h0, -, hround⟩ | ⟨c, r, rfl, -, -, hround⟩ |
      ⟨c, r, rfl, hsep, hv, -⟩
    · exact complete_of_skips h hs (ih h0 ((hround n).symm.trans he))
    · -- a value without end is met again in the next round
      exact ih h ((hround n).symm.trans he)
    intro c' r' hr hv'
    rcases Relation.ReflTransGen.cases_head hr with heq | ⟨q', hs', -⟩
    · cases heq
      rw [hv] at hv'
      cases hv'
    cases hs' with
    | separator h' => rw [hsep] at h'; cases h'
    | value h' _ => rw [hv] at h'; cases h'

end

theorem leaveobject_of_loop (he : leaveLoop n p = .ok q) (h : (0 : UInt8) ∈ q) :
    ∃ r, leaveobject n p = .ok r := by
  cases q with
  | nil => cases h
  | cons c q =>
    unfold leaveobject
    rw [he]
    show ∃ r, (if c = ch '}' then (.ok (true, q) : Except Trap (Bool × Cursor)) else
      .ok (false, c :: q)) = .ok r
    split
    · exact ⟨_, rfl⟩
    · exact ⟨_, rfl⟩

/-- **On every NUL-terminated text and from every place in it, `leaveobject`** never reads behind
the terminator, and it returns exactly when every value it comes to has its end. -/
theorem leaveobject_ends_iff (text : List UInt8) (start : Nat) (hstart : start ≤ text.length) :
    (∀ n, leaveobject n ((text ++ [0]).drop start) ≠ .error .overread) ∧
      (Returns ((text ++ [0]).drop start) ↔ Complete ((text ++ [0]).drop start)) := by
  have h : (0 : UInt8) ∈ (text ++ [0]).drop start := by
    rw [drop_append_of_le_length hstart]
    exact mem_append_right _ (mem_singleton.2 rfl)
  generalize (text ++ [0]).drop start = p at h ⊢
  have hreads : ∀ n, leaveobject n p ≠ .error .overread := fun n he => by
    rcases leaveLoop_reads n h with hu | ⟨q, hq, h0⟩
    · unfold leaveobject at he
      rw [hu] at he
      cases he
    · obtain ⟨r, hr⟩ := leaveobject_of_loop hq h0
      cases he.symm.trans hr
  refine ⟨hreads, ⟨?_, fun hc => ⟨?_, hreads⟩⟩⟩
  · rintro ⟨⟨n, r, he⟩, -⟩
    rcases leaveLoop_reads n h with hu | ⟨q, hq, -⟩
    · unfold leaveobject at he
      rw [hu] at he
      cases he
    · exact complete_of_leaveLoop h hq
  obtain ⟨q, hq⟩ := leaveLoop_ends h hc le_rfl
  rcases leaveLoop_reads p.length h with hu | ⟨q', hq', h0⟩
  · cases hu.symm.trans hq
  · exact ⟨p.length, leaveobject_of_loop hq' h0⟩

def bytes (s : String) : List UInt8 := s.toList.map ch

/-- The rest of an object, from behind its first name. -/
theorem leaveobject_ends_rest :
    Complete ((bytes "\x7b\"a\":[1,\"\x7d\"],\"b\":-2.5\x7d" ++ [0]).drop 5) := by
  obtain ⟨hreads, hiff⟩ := leaveobject_ends_iff (bytes "\x7b\"a\":[1,\"\x7d\"],\"b\":-2.5\x7d") 5 (by decide)
  exact hiff.1 ⟨⟨20, (true, [0]), by decide⟩, hreads⟩

/-- **A string that is cut off is met again in every round**: `leaveobject` does not return. -/
theorem leaveobject_unended :
    (∀ n, leaveobject n ((bytes "\"a" ++ [0]).drop 0) = .error .unended) ∧
      ¬ Returns ((bytes "\"a" ++ [0]).drop 0) := by
  have hloop : ∀ n, leaveobject n ((bytes "\"a" ++ [0]).drop 0) = .error .unended := fun n => by
    have hround : leaveLoop n (bytes "\"a" ++ [0]) = .error .unended := by
      induction n with
      | zero => rfl
      | succ n ih => exact ih
    unfold leaveobject
    rw [drop_zero, hround]
    rfl
  refine ⟨hloop, ?_⟩
  rintro ⟨⟨n, r, he⟩, -⟩
  cases he.symm.trans (hloop n)

end MegaSdk.Json
