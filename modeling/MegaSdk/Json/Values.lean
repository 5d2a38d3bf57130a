/-
  File:      MegaSdk/Json/Values.lean
  Subject:   ONE VALUE, TWO SCANNERS: `JSONSplitter` (rounds of `processChunk`, `strEnd`, `numEnd`)
             against `JSON::storeobject`.

  The callbacks of the one hand their element to the other, so both have to see the same end.

  * `Rounds` -- the rounds in which the splitter goes over one value;
  * `string_of_strEnd` -- a string ends where the count of backslashes before a quote is even: the
    same as where no backslash takes the quote with it;
  * `closes_number`, `Rounds.closes_iff` -- what the other scanner makes of the same bytes: it has no
    `+` in a number, and a `-` begins a new one;
  * **`storeobject_scans_iff`** -- it takes the same value exactly when no number in it has such a
    sign.
-/
import MegaSdk.Json.Chunks
import MegaSdk.Json.Scanner

namespace MegaSdk.Json

open List

variable {s s' s₁ : JSONSplitter} {filters : FiltersChain} {c : UInt8} {a depth t : Nat}
  {buf : List UInt8} {p q r : Cursor} {o : Int × Int} {K X : List (List UInt8)}

/-! ## 1. The rounds over a value -/

section Rounds

variable (filters : FiltersChain) (buf : List UInt8) (pause : Nat → Bool)

/-- The rounds up to the first one behind which `depth` brackets are open; the last one may finish
the document. -/
inductive Rounds (depth : Nat) : JSONSplitter → JSONSplitter → Prop
  | last {s s' : JSONSplitter} : step filters buf pause s = .go s' → s'.mStack.length = depth →
      Rounds depth s s'
  | finish {s s' : JSONSplitter} : step filters buf pause s = .stop s' → s.mFinished = false →
      s'.mFinished = true → s'.mStack.length = depth → Rounds depth s s'
  | more {s s₁ s' : JSONSplitter} : step filters buf pause s = .go s₁ →
      depth < s₁.mStack.length → Rounds depth s₁ s' → Rounds depth s s'

/-- From where it expects a value, the splitter goes over one complete value. -/
def ScansValue (s s' : JSONSplitter) : Prop :=
  s.mExpectValue ≠ 0 ∧ Rounds filters buf pause s.mStack.length s s'

end Rounds

/-- The bytes of a text that are in none of its strings: `inside` a string or not, behind a backslash
or not. -/
def outside : Bool → Bool → List UInt8 → List UInt8
  | _, _, [] => []
  | false, _, c :: t => if c = ch '"' then outside true false t else c :: outside false false t
  | true, escaped, c :: t =>
    if c = ch '"' ∧ escaped = false then outside false false t
    else outside true (c == ch '\\' && !escaped) t

/-- No number of the text has a `+`, and where the text is a number there is no `-` behind its
first character. -/
def SignFree (text : List UInt8) : Prop :=
  ch '+' ∉ outside false false text ∧ (startsNumber (text.headD 0) = true → ch '-' ∉ text.tail)

/-! ## 2. What a round goes over -/

/-- A round that goes on, or finishes the document. -/
inductive Piece (buf : List UInt8) (s s' : JSONSplitter) : Prop
  | opened {c : UInt8} {name : List UInt8} : c = ch '[' ∨ c = ch '{' → peek buf s.mPos = c →
      s'.mStack = (c :: name) :: s.mStack → s'.mPos = s.mPos + 1 → Piece buf s s'
  | closed {c o : UInt8} {top : List UInt8} : (c = ch ']' ∧ o = ch '[') ∨ (c = ch '}' ∧ o = ch '{') →
      peek buf s.mPos = c → s.mStack = top :: s'.mStack → top.headD 0 = o →
      s'.mPos = s.mPos + 1 → Piece buf s s'
  | comma : peek buf s.mPos = ch ',' → s.mExpectValue = 0 → s'.mStack = s.mStack →
      s'.mPos = s.mPos + 1 → Piece buf s s'
  | value {t : Nat} : peek buf s.mPos = ch '"' → strEnd buf s.mPos = some t →
      s'.mStack = s.mStack → s'.mPos = s.mPos + t → Piece buf s s'
  | name {t : Nat} : peek buf s.mPos = ch '"' → strEnd buf s.mPos = some t → s.mExpectValue = 0 →
      peek buf (s.mPos + t) = ch ':' → s'.mStack = s.mStack → s'.mPos = s.mPos + t + 1 →
      Piece buf s s'
  | number : startsNumber (peek buf s.mPos) = true → s'.mStack = s.mStack →
      s'.mPos = s.mPos + numEnd buf s.mPos → Piece buf s s'
  | blank : peek buf s.mPos = ch ' ' → s'.mStack = s.mStack → s'.mPos = s.mPos + 1 → Piece buf s s'

def Goes1 (r : Next) (s s' : JSONSplitter) : Prop :=
  r = .go s' ∨ (r = .stop s' ∧ s.mFinished = false ∧ s'.mFinished = true)

theorem not_goes1_parseError : ¬ Goes1 (parseError s₁) s s' := by
  rintro (h | ⟨h, -⟩) <;> cases h

theorem not_goes1_stop : ¬ Goes1 (.stop s) s s' := by
  rintro (h | ⟨h, hf, ht⟩)
  · cases h
  cases h
  rw [hf] at ht
  cases ht

theorem Goes1.go (h : Goes1 (.go s₁) s s') : s' = s₁ := by
  rcases h with h | ⟨h, -⟩ <;> cases h
  rfl

theorem Goes1.stop (h : Goes1 (.stop s₁) s s') : s' = s₁ := by
  rcases h with h | ⟨h, -⟩ <;> cases h
  rfl

theorem callFilter_goes1 {path element : List UInt8} {k : JSONSplitter → Bool → Next}
    (h : Goes1 (callFilter filters path element s₁ k) s s') :
    ∃ log called, Goes1 (k { s₁ with log := log } called) s s' := by
  unfold callFilter at h
  split at h
  · exact ⟨s₁.log, false, h⟩
  split at h
  · exact ⟨_, true, h⟩
  · exact absurd h not_goes1_parseError

section Step

variable {filters : FiltersChain} {buf : List UInt8} {pause : Nat → Bool} {s s' : JSONSplitter}

theorem piece_of_openBracket (hc : c = ch '[' ∨ c = ch '{') (hp : peek buf s.mPos = c)
    (h : Goes1 (openBracket filters c s) s s') : Piece buf s s' := by
  unfold openBracket at h
  split at h
  · exact absurd h not_goes1_parseError
  obtain rfl := h.go
  exact .opened hc hp rfl rfl

theorem piece_of_closeBracket {c : UInt8} (hc : c = ch ']' ∨ c = ch '}') (hp : peek buf s.mPos = c)
    (h : Goes1 (closeBracket filters buf c s) s s') :
    Piece buf s s' := by
  unfold closeBracket at h
  split at h
  · exact absurd h not_goes1_parseError
  split at h
  · exact absurd h not_goes1_parseError
  rename_i top rest hstack
  dsimp only at h
  split at h
  · exact absurd h not_goes1_parseError
  rename_i hmatch
  have hopen : (c = ch ']' ∧ top.headD 0 = ch '[') ∨ (c = ch '}' ∧ top.headD 0 = ch '{') := by
    rw [not_or, not_and, not_and, not_not, not_not] at hmatch
    rcases hc with rfl | rfl
    · exact .inl ⟨rfl, hmatch.1 rfl⟩
    · exact .inr ⟨rfl, hmatch.2 rfl⟩
  obtain ⟨log, called, h⟩ := callFilter_goes1 h
  split at h
  · obtain rfl := h.stop
    exact .closed hopen hp hstack rfl rfl
  · obtain rfl := h.go
    exact .closed hopen hp hstack rfl rfl

theorem piece_of_comma (hp : peek buf s.mPos = ch ',') (h : Goes1 (comma s) s s') :
    Piece buf s s' := by
  unfold comma at h
  split at h
  · exact absurd h not_goes1_parseError
  rename_i hexp
  dsimp only at h
  split at h
  · exact absurd h not_goes1_parseError
  obtain rfl := h.go
  exact .comma hp (not_not.1 hexp) rfl rfl

theorem piece_of_string (hp : peek buf s.mPos = ch '"') (ht : strEnd buf s.mPos = some t)
    (h : Goes1 (if s.mExpectValue ≠ 0 then stringValue filters buf pause t s
      else propertyName buf t s) s s') : Piece buf s s' := by
  split at h
  · unfold stringValue at h
    dsimp only at h
    split at h
    · rcases h with h | ⟨h, -⟩ <;> cases h
    obtain ⟨log, called, h⟩ := callFilter_goes1 h
    obtain rfl := h.go
    exact .value hp ht rfl rfl
  rename_i hexp
  unfold propertyName at h
  split at h
  · exact absurd h not_goes1_stop
  split at h
  · exact absurd h not_goes1_parseError
  rename_i hcolon
  obtain rfl := h.go
  exact .name hp ht (not_not.1 hexp) (not_not.1 hcolon) rfl rfl

theorem piece_of_number (hp : startsNumber (peek buf s.mPos) = true)
    (h : Goes1 (number filters buf s) s s') : Piece buf s s' := by
  unfold number at h
  split at h
  · exact absurd h not_goes1_parseError
  dsimp only at h
  split at h
  · exact absurd h not_goes1_stop
  split at h
  · split at h
    · obtain ⟨log, -, h⟩ := callFilter_goes1 h
      obtain rfl := h.stop
      exact .number hp rfl rfl
    · obtain rfl := h.stop
      exact .number hp rfl rfl
  · obtain rfl := h.go
    exact .number hp rfl rfl

/-- **A round that goes on** goes over one of the pieces. -/
theorem piece_of_step (h : Goes1 (step filters buf pause s) s s') : Piece buf s s' := by
  unfold step at h
  dsimp only at h
  split at h
  · exact absurd h not_goes1_stop
  split at h
  · rename_i hc
    exact piece_of_openBracket hc rfl h
  split at h
  · rename_i hc
    exact piece_of_closeBracket hc rfl h
  split at h
  · rename_i hc
    exact piece_of_comma hc h
  split at h
  · rename_i hc
    split at h
    · exact absurd h not_goes1_stop
    · rename_i t ht
      exact piece_of_string hc ht h
  split at h
  · rename_i hc
    refine piece_of_number ?_ h
    simp only [startsNumber, isDigit, Bool.or_eq_true, Bool.and_eq_true, beq_iff_eq,
      decide_eq_true_eq]
    tauto
  split at h
  · rename_i hc
    obtain rfl := h.go
    exact .blank hc rfl rfl
  · exact absurd h not_goes1_parseError

end Step

/-! ## 3. The bytes of a piece -/

section Bytes

variable {buf : List UInt8}

theorem slice_append {b c : Nat} (hab : a ≤ b) (hbc : b ≤ c) :
    slice buf a c = slice buf a b ++ slice buf b c := by
  unfold slice
  obtain ⟨k, rfl⟩ := Nat.exists_eq_add_of_le hab
  obtain ⟨m, rfl⟩ := Nat.exists_eq_add_of_le hbc
  rw [show a + k + m - a = k + m by omega, show a + k - a = k by omega,
    show a + k + m - (a + k) = m by omega, take_add, drop_drop]

theorem slice_one (h : peek buf a ≠ 0) : slice buf a (a + 1) = [peek buf a] := by
  have hlt := lt_of_peek h
  unfold slice peek
  rw [show a + 1 - a = 1 by omega, drop_eq_getElem_cons hlt, getD_eq_getElem _ _ hlt]
  rfl

theorem slice_cons {e : Nat} (hp : peek buf a = c) (hc : c ≠ 0) (he : a + 1 ≤ e) :
    slice buf a e = c :: slice buf (a + 1) e := by
  rw [slice_append (Nat.le_succ a) he, slice_one (hp.symm ▸ hc), hp]
  rfl

theorem drop_of_peek (h : peek buf a ≠ 0) : buf.drop a = peek buf a :: buf.drop (a + 1) := by
  have hlt := lt_of_peek h
  unfold peek
  rw [drop_eq_getElem_cons hlt, getD_eq_getElem _ _ hlt]

/-- Whether a backslash takes the byte behind a text with it. -/
def escapedBehind (t : List UInt8) : Bool := t.foldl (fun e c => c == ch '\\' && !e) false

/-- It does so when the text ends in an odd number of backslashes. -/
theorem escapedBehind_iff (t : List UInt8) : escapedBehind t = true ↔
    (t.reverse.takeWhile fun b => b == ch '\\').length % 2 = 1 := by
  induction t using List.reverseRecOn with
  | nil => simp [escapedBehind]
  | append_singleton t c ih =>
    have hstep : escapedBehind (t ++ [c]) = (c == ch '\\' && !escapedBehind t) := by
      simp [escapedBehind]
    rw [hstep, reverse_append, reverse_singleton, singleton_append]
    by_cases hc : c = ch '\\'
    · rw [takeWhile_cons_of_pos (by simpa using hc), length_cons]
      have hne : (c == ch '\\' && !escapedBehind t) = true ↔ ¬ escapedBehind t = true := by
        simp [hc]
      rw [hne, ih]
      omega
    · rw [takeWhile_cons_of_neg (by simpa using hc)]
      simp [hc]

/-- From quote to quote with the backslashes counted backwards, and forwards with a flag: the same
string. -/
theorem strEndLoop_stringLoop {pos : Nat} (l : List UInt8) (ptr : Nat) (hpos : pos ≤ ptr)
    (hl : buf.drop ptr = l) (h : strEndLoop buf pos l ptr = some t) :
    ∃ rest, stringLoop (escapedBehind (slice buf pos ptr)) (l ++ [0]) =
        .ok (ch '"' :: (rest ++ [0])) ∧ pos + t + rest.length = ptr + l.length := by
  induction l generalizing ptr with
  | nil => cases h
  | cons b l ih =>
    have hb : peek buf ptr = b := by
      unfold peek
      rw [getD_eq_getElem?_getD, ← head?_drop, hl]
      rfl
    rw [strEndLoop] at h
    split at h
    · cases h
    rename_i h0
    rw [cons_append, stringLoop]
    split at h
    · -- the closing quote
      rename_i hq
      have hflag : escapedBehind (slice buf pos ptr) = false := by
        rw [← Bool.not_eq_true, escapedBehind_iff]
        have := hq.2
        unfold backslashes at this
        omega
      rw [if_neg (by simp [hflag, hq.1]), hq.1]
      refine ⟨l, rfl, ?_⟩
      have := Option.some.inj h
      rw [length_cons]
      omega
    rename_i hq
    have hgo : b ≠ 0 ∧ (escapedBehind (slice buf pos ptr) = true ∨ b ≠ ch '"') := by
      refine ⟨h0, ?_⟩
      by_cases hbq : b = ch '"'
      · refine .inl ((escapedBehind_iff _).2 ?_)
        have hodd : ¬ (backslashes buf pos ptr + 1) % 2 = 1 := fun hodd => hq ⟨hbq, hodd⟩
        unfold backslashes at hodd
        omega
      · exact .inr hbq
    have hdrop : buf.drop (ptr + 1) = l := by
      rw [← drop_drop, hl]
      rfl
    have hflag : escapedBehind (slice buf pos (ptr + 1)) =
        (b == ch '\\' && !escapedBehind (slice buf pos ptr)) := by
      rw [slice_append hpos (Nat.le_succ ptr), slice_one (hb.symm ▸ h0), hb]
      simp [escapedBehind]
    obtain ⟨rest, hr, hlen⟩ := ih (ptr + 1) (by omega) hdrop h
    refine ⟨rest, ?_, by rw [length_cons]; omega⟩
    rwa [if_pos hgo, ← hflag]

/-- **What `strEnd` ends** is a string in quotes. -/
theorem string_of_strEnd {pos : Nat} (hp : peek buf pos = ch '"') (h : strEnd buf pos = some t) :
    ∃ body, Quoted body ∧ slice buf pos (pos + t) = ch '"' :: (body ++ [ch '"']) ∧
      pos + t ≤ buf.length := by
  have hne : peek buf pos ≠ 0 := hp.symm ▸ (by decide)
  have hflag : escapedBehind (slice buf pos (pos + 1)) = false := by
    rw [slice_one hne, hp]
    decide
  obtain ⟨rest, hr, hlen⟩ :=
    strEndLoop_stringLoop (buf.drop (pos + 1)) (pos + 1) (Nat.le_succ _) rfl h
  rw [hflag] at hr
  have hdrop : (buf.drop (pos + 1)).length = buf.length - (pos + 1) := length_drop
  rcases stringLoop_cases (p := buf.drop (pos + 1) ++ [0]) (by simp) with
    ⟨q, hq⟩ | ⟨body, q, hbody, heq, hq, -⟩
  · exact absurd (List.cons.inj (Except.ok.inj (hr.symm.trans hq))).1 (by decide)
  obtain rfl := (List.cons.inj (Except.ok.inj (hr.symm.trans hq))).2
  have hsplit : buf.drop (pos + 1) = body ++ ch '"' :: rest := by
    have he : buf.drop (pos + 1) ++ [0] = body ++ ch '"' :: rest ++ [0] := by
      rw [heq]
      simp
    exact append_cancel_right he
  have hl : body.length + 1 + rest.length = buf.length - (pos + 1) := by
    rw [← hdrop, hsplit]
    simp only [length_append, length_cons]
    omega
  refine ⟨body, hbody, ?_, by omega⟩
  unfold slice
  rw [drop_of_peek hne, hp, hsplit, show pos + t - pos = body.length + 2 by omega,
    take_succ_cons, append_cons, take_left' (by simp)]

theorem slice_string {pos e : Nat} (hp : peek buf pos = ch '"') (h : strEnd buf pos = some t)
    (he : pos + t ≤ e) : ∃ body, Quoted body ∧
      slice buf pos e = ch '"' :: (body ++ ch '"' :: slice buf (pos + t) e) := by
  obtain ⟨body, hbody, hstr, -⟩ := string_of_strEnd hp h
  refine ⟨body, hbody, ?_⟩
  rw [slice_append (Nat.le_add_right pos t) he, hstr]
  simp

theorem slice_number (pos : Nat) :
    slice buf pos (pos + numEnd buf pos) = (buf.drop pos).takeWhile isNumChar := by
  unfold slice numEnd
  rw [Nat.add_sub_cancel_left]
  exact (prefix_iff_eq_take.1 (List.takeWhile_prefix isNumChar)).symm

theorem isNumChar_of_startsNumber (h : startsNumber c = true) : isNumChar c = true := by
  simp only [startsNumber, Bool.or_eq_true] at h
  simp only [isNumChar, Bool.or_eq_true]
  tauto

theorem ne_plus_of_startsNumber (h : startsNumber c = true) : ch '+' ≠ c := by
  rintro rfl
  exact absurd h (by decide)

theorem isNumChar_iff (c) : isNumChar c = true ↔ inNumber c = true ∨ c = ch '+' ∨ c = ch '-' := by
  simp only [isNumChar, inNumber, Bool.or_eq_true, beq_iff_eq]
  tauto

/-- **The bytes of a number**: its first character, and what the loop runs over. -/
theorem number_of_numEnd {pos : Nat} (hp : startsNumber (peek buf pos) = true) :
    ∃ t, slice buf pos (pos + numEnd buf pos) = peek buf pos :: t ∧
      (∀ b ∈ t, isNumChar b = true) ∧ isNumChar (peek buf (pos + numEnd buf pos)) = false ∧
      pos + numEnd buf pos ≤ buf.length ∧ 0 < numEnd buf pos := by
  have hne : peek buf pos ≠ 0 := fun h0 => by
    rw [h0] at hp
    exact absurd hp (by decide)
  have hlt := lt_of_peek hne
  have hdrop : buf.drop (pos + numEnd buf pos) = (buf.drop pos).dropWhile isNumChar := by
    rw [← drop_drop]
    unfold numEnd
    conv_lhs => rw [← takeWhile_append_dropWhile (p := isNumChar) (l := buf.drop pos)]
    rw [drop_left' (by simp)]
  refine ⟨(buf.drop (pos + 1)).takeWhile isNumChar, ?_, fun b hb => mem_takeWhile_imp hb,
    ?_, ?_, ?_⟩
  · rw [slice_number, drop_of_peek hne,
      takeWhile_cons_of_pos (isNumChar_of_startsNumber hp)]
  · have hhead := head?_dropWhile_not isNumChar (buf.drop pos)
    rw [← hdrop, head?_drop] at hhead
    unfold peek
    rw [getD_eq_getElem?_getD]
    cases hg : buf[pos + numEnd buf pos]? with
    | none => decide
    | some b =>
      rw [hg] at hhead
      simpa using hhead
  · have := (takeWhile_sublist (p := isNumChar) (l := buf.drop pos)).length_le
    rw [length_drop] at this
    unfold numEnd
    omega
  unfold numEnd
  rw [drop_of_peek hne, takeWhile_cons_of_pos (isNumChar_of_startsNumber hp)]
  simp

end Bytes

theorem Piece.pos (h : Piece buf s s') : s.mPos < s'.mPos ∧ s'.mPos ≤ buf.length := by
  have hone : ∀ {c : UInt8}, peek buf s.mPos = c → c ≠ 0 → s'.mPos = s.mPos + 1 →
      s.mPos < s'.mPos ∧ s'.mPos ≤ buf.length := fun hp hc he => by
    have := lt_of_peek (hp.symm ▸ hc)
    omega
  cases h with
  | opened hc hp _ he => exact hone hp (by rcases hc with rfl | rfl <;> decide) he
  | closed hc hp _ _ he => exact hone hp (by rcases hc with ⟨rfl, -⟩ | ⟨rfl, -⟩ <;> decide) he
  | comma hp _ _ he => exact hone hp (by decide) he
  | value hp ht _ he =>
    obtain ⟨body, -, hsl, hlen⟩ := string_of_strEnd hp ht
    have := congrArg List.length hsl
    simp only [slice, length_take, length_cons] at this
    omega
  | name hp ht _ hcolon _ he =>
    have hne : peek buf _ ≠ 0 := hcolon.symm ▸ (by decide : ch ':' ≠ 0)
    have := lt_of_peek hne
    omega
  | number hp _ he =>
    obtain ⟨t, -, -, -, hlen, hpos⟩ := number_of_numEnd hp
    omega
  | blank hp _ he => exact hone hp (by decide) he

theorem Rounds.head {pause : Nat → Bool} (h : Rounds filters buf pause depth s s') :
    (Piece buf s s' ∧ s'.mStack.length = depth) ∨
      ∃ s₁, Piece buf s s₁ ∧ depth < s₁.mStack.length ∧ Rounds filters buf pause depth s₁ s' := by
  cases h with
  | last h hd => exact .inl ⟨piece_of_step (.inl h), hd⟩
  | finish h hf ht hd => exact .inl ⟨piece_of_step (.inr ⟨h, hf, ht⟩), hd⟩
  | more h hd hr => exact .inr ⟨_, piece_of_step (.inl h), hd, hr⟩

theorem Rounds.pos {pause : Nat → Bool} (h : Rounds filters buf pause depth s s') :
    s.mPos < s'.mPos ∧ s'.mPos ≤ buf.length := by
  induction h with
  | last h _ => exact (piece_of_step (.inl h)).pos
  | finish h hf ht _ => exact (piece_of_step (.inr ⟨h, hf, ht⟩)).pos
  | more h _ _ ih =>
    have := (piece_of_step (.inl h)).pos
    omega

/-! ## 4. What `storeobject` makes of the bytes -/

theorem Lex.head {d : Int × Int} (h : Lex p d q) : ∃ c p', p = c :: p' ∧
    (c = ch '[' ∨ c = ch '{' ∨ c = ch ']' ∨ c = ch '}' ∨ c = ch ':' ∨ c = ch ',' ∨ c = ch '"' ∨
      startsNumber c = true) := by
  cases h with
  | openBracket | openBrace | closeBracket | closeBrace => exact ⟨_, _, rfl, by simp⟩
  | mark hc => exact ⟨_, _, rfl, by rcases hc with rfl | rfl <;> simp⟩
  | string _ => exact ⟨_, _, rfl, by simp⟩
  | number hc _ _ => exact ⟨_, _, rfl, by simp [hc]⟩

theorem not_closes_plus (o : Int × Int) (p r : Cursor) : ¬ Closes o (ch '+' :: p) r := by
  have hno : ∀ d q, ¬ Lex (ch '+' :: p) d q := fun d q h => by
    obtain ⟨c, p', he, hc⟩ := h.head
    obtain rfl := (List.cons.inj he).1
    exact absurd hc (by decide)
  intro h
  cases h with
  | last hl _ => exact hno _ _ hl
  | more hl _ _ => exact hno _ _ hl

theorem closes_lex {d : Int × Int} (hl : Lex p d q) (h0 : (0 : UInt8) ∈ p) :
    Closes o p r ↔ (o + d = 0 ∧ r = q) ∨ (o + d ≠ 0 ∧ Closes (o + d) q r) := by
  have huniq : ∀ {d' q'}, Lex p d' q' → o + d' = o + d ∧ q' = q := fun hl' => by
    have he := (lexeme_of_lex o hl' h0).symm.trans (lexeme_of_lex o hl h0)
    simpa using he
  constructor
  · intro h
    cases h with
    | last hl' hz =>
      obtain ⟨ho, rfl⟩ := huniq hl'
      exact .inl ⟨ho ▸ hz, rfl⟩
    | more hl' hz hr =>
      obtain ⟨ho, rfl⟩ := huniq hl'
      exact .inr ⟨ho ▸ hz, ho ▸ hr⟩
  rintro (⟨hz, rfl⟩ | ⟨hz, hr⟩)
  · exact .last hl hz
  · exact .more hl hz hr

theorem closes_lex_zero (ho : o ≠ 0) (hl : Lex p 0 q) (h0 : (0 : UInt8) ∈ p) :
    Closes o p r ↔ Closes o q r := by
  rw [closes_lex hl h0]
  simp [ho]

theorem closes_string (ho : o ≠ 0) {body : List UInt8} (h : Quoted body) (h0 : (0 : UInt8) ∈ p) :
    Closes o (ch '"' :: (body ++ ch '"' :: p)) r ↔ Closes o p r :=
  closes_lex_zero ho (.string h) (mem_cons_of_mem _ (mem_append_right _ (mem_cons_of_mem _ h0)))

/-- **A number of the splitter inside brackets**: a `-` begins another number, and a `+` ends the
matter. -/
theorem closes_number (ho : o ≠ 0) (h0 : (0 : UInt8) ∈ p) (hp : ∀ b ∈ p.head?, inNumber b = false) :
    ∀ {c : UInt8} {t : List UInt8}, startsNumber c = true → (∀ b ∈ t, isNumChar b = true) →
    (Closes o (c :: (t ++ p)) r ↔ ch '+' ∉ t ∧ Closes o p r) := by
  intro c t hc ht
  induction hn : t.length using Nat.strong_induction_on generalizing c t with
  | _ n ih =>
    have hsplit := takeWhile_append_dropWhile (p := inNumber) (l := t)
    have hfront : ch '+' ∉ t.takeWhile inNumber := fun hm => by
      have := mem_takeWhile_imp hm
      cases this
    have hhead := head_dropWhile_inNumber t
    cases hrest : t.dropWhile inNumber with
    | nil =>
      rw [hrest, append_nil] at hsplit
      have hl : Lex (c :: (t ++ p)) 0 p :=
        .number hc (fun b hb => mem_takeWhile_imp (hsplit.symm ▸ hb)) hp
      rw [closes_lex_zero ho hl (mem_cons_of_mem _ (mem_append_right _ h0))]
      rw [hsplit] at hfront
      simp [hfront]
    | cons b u =>
      rw [hrest] at hsplit hhead
      have hb : inNumber b = false := hhead b rfl
      have hl : Lex (c :: (t ++ p)) 0 (b :: (u ++ p)) := by
        have h : Lex (c :: (t.takeWhile inNumber ++ (b :: (u ++ p)))) 0 (b :: (u ++ p)) :=
          .number hc (fun b hb => mem_takeWhile_imp hb) (by simpa using hb)
        have heq : t.takeWhile inNumber ++ (b :: (u ++ p)) = t ++ p := by
          rw [← cons_append, ← append_assoc, hsplit]
        rwa [heq] at h
      rw [closes_lex_zero ho hl (mem_cons_of_mem _ (mem_append_right _ h0))]
      have hbt : b ∈ t := hsplit ▸ mem_append_right _ mem_cons_self
      have hmem : ch '+' ∈ t ↔ ch '+' = b ∨ ch '+' ∈ u := by
        rw [← hsplit]
        simp [hfront]
      have hsign : b = ch '+' ∨ b = ch '-' := by
        rcases (isNumChar_iff b).1 (ht b hbt) with h | h
        · rw [hb] at h
          cases h
        · exact h
      rcases hsign with rfl | rfl
      · exact iff_of_false (not_closes_plus _ _ _) fun h => h.1 (hmem.2 (.inl rfl))
      have hlen : u.length < n := by
        have := congrArg List.length hsplit
        simp only [length_append, length_cons] at this
        omega
      rw [ih _ hlen (by decide) (fun x hx => ht x (hsplit ▸ mem_append_right _
        (mem_cons_of_mem _ hx))) rfl, hmem]
      simp [show ch '+' ≠ ch '-' by decide]

/-! ## 5. The bytes outside of strings -/

theorem outside_string {body : List UInt8} (h : Quoted body) (t : List UInt8) :
    outside true false (body ++ ch '"' :: t) = outside false false t := by
  induction h with
  | nil => simp [outside]
  | @plain c u _ hq hb _ ih =>
    rw [cons_append, outside, if_neg fun h => hq h.1]
    have hf : (c == ch '\\' && !false) = false := by simpa using hb
    rw [hf, ih]
  | @escape c u _ _ ih =>
    rw [cons_append, outside, if_neg (by decide), cons_append]
    have ht : (ch '\\' == ch '\\' && !false) = true := by decide
    rw [ht, outside, if_neg (by simp), Bool.not_true, Bool.and_false, ih]

theorem outside_cons (hc : c ≠ ch '"') (t : List UInt8) :
    outside false false (c :: t) = c :: outside false false t := by
  rw [outside, if_neg hc]

theorem ne_quote_of_isNumChar (h : isNumChar c = true) : c ≠ ch '"' := by
  rintro rfl
  exact absurd h (by decide)

theorem outside_number {u : List UInt8} (h : ∀ b ∈ u, isNumChar b = true) (t : List UInt8) :
    outside false false (u ++ t) = u ++ outside false false t := by
  induction u with
  | nil => rfl
  | cons c u ih =>
    rw [cons_append, outside_cons (ne_quote_of_isNumChar (h c mem_cons_self)),
      ih fun b hb => h b (mem_cons_of_mem _ hb), cons_append]

/-! ## 6. A value -/

/-- What is open in `storeobject`'s count while the brackets `X` are open in the splitter. -/
def counts (X : List (List UInt8)) : Int × Int :=
  ((X.countP fun x => x.headD 0 == ch '{' : Nat), (X.countP fun x => x.headD 0 == ch '[' : Nat))

def IsOpen (x : List UInt8) : Prop := x.headD 0 = ch '[' ∨ x.headD 0 = ch '{'

def weight (o : UInt8) : Int × Int := if o = ch '{' then (1, 0) else (0, 1)

theorem counts_cons {x : List UInt8} (hx : IsOpen x) (X) :
    counts (x :: X) = counts X + weight (x.headD 0) := by
  simp only [counts, countP_cons]
  rcases hx with hx | hx <;> rw [hx] <;> rfl

theorem counts_ne_zero (hX : X ≠ []) (h : ∀ x ∈ X, IsOpen x) : counts X ≠ 0 := by
  obtain ⟨x, X, rfl⟩ := exists_cons_of_ne_nil hX
  have hx := h x mem_cons_self
  rw [counts_cons hx]
  intro he
  rcases hx with hx | hx
  · rw [hx, show weight (ch '[') = (0, 1) from rfl] at he
    have := congrArg Prod.snd he
    simp only [counts, Prod.snd_add, Prod.snd_zero] at this
    omega
  rw [hx, show weight (ch '{') = (1, 0) from rfl] at he
  have := congrArg Prod.fst he
  simp only [counts, Prod.fst_add, Prod.fst_zero] at this
  omega

section Value

variable {filters : FiltersChain} {buf : List UInt8} {pause : Nat → Bool} {tail : Cursor}

theorem lex_opened (hc : c = ch '[' ∨ c = ch '{') (p : Cursor) : Lex (c :: p) (weight c) p := by
  rcases hc with rfl | rfl
  · exact .openBracket
  · exact .openBrace

theorem lex_closed {o : UInt8} (hc : (c = ch ']' ∧ o = ch '[') ∨ (c = ch '}' ∧ o = ch '{'))
    (p) : Lex (c :: p) (-weight o) p := by
  rcases hc with ⟨rfl, rfl⟩ | ⟨rfl, rfl⟩
  · exact .closeBracket
  · exact .closeBrace

theorem atValue_of_startsNumber (h : startsNumber c = true) : AtValue c := by
  by_cases hdot : c = ch '.'
  · subst hdot
    decide
  refine atValue_of_startsValue ?_
  simp only [startsNumber, Bool.or_eq_true, beq_iff_eq] at h
  simp only [startsValue, Bool.or_eq_true, beq_iff_eq]
  tauto

section

variable (h0 : (0 : UInt8) ∈ tail) (htail : ∀ b ∈ tail.head?, inNumber b = false)
include htail

theorem head_behind_number {e : Nat} (h : isNumChar (peek buf a) = false) (hle : e ≤ buf.length) :
    ∀ b ∈ (slice buf a e ++ tail).head?, inNumber b = false := by
  intro b hb
  by_cases hlt : a < e
  · have hsl : (slice buf a e).head? = some (peek buf a) := by
      unfold slice peek
      rw [head?_take, if_neg (by omega), head?_drop, getD_eq_getElem?_getD,
        getElem?_eq_getElem (by omega)]
      rfl
    rw [head?_append, hsl] at hb
    obtain rfl : peek buf a = b := by simpa using hb
    rw [← Bool.not_eq_true]
    intro hn
    rw [(isNumChar_iff _).2 (.inl hn)] at h
    cases h
  · have hnil : slice buf a e = [] := by
      unfold slice
      rw [show e - a = 0 by omega, take_zero]
    rw [hnil] at hb
    exact htail b hb

include h0

/-- **One round inside of brackets**: the other scanner comes to the same place with the same
brackets open, if there is no `+` in between. -/
theorem Piece.closes_iff (hp : Piece buf s s₁) {e : Nat} (he : s₁.mPos ≤ e)
    (hle : e ≤ buf.length) (hs : s.mStack = X ++ K) (hX : X ≠ []) (hopen : ∀ x ∈ X, IsOpen x)
    (hblank : ch ' ' ∉ outside false false (slice buf s.mPos e)) :
    ∃ X' out, s₁.mStack = X' ++ K ∧ (∀ x ∈ X', IsOpen x) ∧
      outside false false (slice buf s.mPos e) =
        out ++ outside false false (slice buf s₁.mPos e) ∧
      ∀ r, Closes (counts X) (slice buf s.mPos e ++ tail) r ↔ ch '+' ∉ out ∧
        ((X' = [] ∧ r = slice buf s₁.mPos e ++ tail) ∨
          (X' ≠ [] ∧ Closes (counts X') (slice buf s₁.mPos e ++ tail) r)) := by
  have hpos := hp.pos
  have hX0 := counts_ne_zero hX hopen
  have hrest : (0 : UInt8) ∈ slice buf s₁.mPos e ++ tail := mem_append_right _ h0
  -- a piece of one byte that is no quote
  have hone : ∀ {c : UInt8}, peek buf s.mPos = c → c ≠ 0 → c ≠ ch '"' → s₁.mPos = s.mPos + 1 →
      slice buf s.mPos e = c :: slice buf s₁.mPos e ∧
        outside false false (slice buf s.mPos e) =
          [c] ++ outside false false (slice buf s₁.mPos e) := fun {c} hc hc0 hq he1 => by
    have hsl : slice buf s.mPos e = c :: slice buf s₁.mPos e := by
      rw [slice_cons hc hc0 (he1 ▸ he), he1]
    exact ⟨hsl, by rw [hsl, outside_cons hq]; rfl⟩
  cases hp with
  | @opened c name hc hpk hst he1 =>
    have hc' : c ≠ 0 ∧ c ≠ ch '"' ∧ ch '+' ≠ c := by rcases hc with rfl | rfl <;> decide
    obtain ⟨hsl, hout⟩ := hone hpk hc'.1 hc'.2.1 he1
    have hopen' : ∀ x ∈ (c :: name) :: X, IsOpen x := forall_mem_cons.2 ⟨hc, hopen⟩
    have hne := counts_ne_zero (cons_ne_nil (c :: name) X) hopen'
    refine ⟨(c :: name) :: X, [c], by rw [hst, hs]; rfl, hopen', hout, fun r => ?_⟩
    rw [hsl, cons_append, closes_lex (lex_opened hc _) (mem_cons_of_mem c hrest),
      ← show counts (_ :: X) = counts X + weight c from counts_cons (x := c :: name) hc X]
    simp [hne, hc'.2.2]
  | @closed c o top hc hpk hst ho he1 =>
    obtain ⟨x, X, rfl⟩ := exists_cons_of_ne_nil hX
    obtain ⟨rfl, hst'⟩ := List.cons.inj (hst.symm.trans hs)
    have hc' : c ≠ 0 ∧ c ≠ ch '"' ∧ ch '+' ≠ c := by
      rcases hc with ⟨rfl, -⟩ | ⟨rfl, -⟩ <;> decide
    obtain ⟨hsl, hout⟩ := hone hpk hc'.1 hc'.2.1 he1
    have hopen' : ∀ x ∈ X, IsOpen x := fun x hx => hopen x (mem_cons_of_mem _ hx)
    refine ⟨X, [c], hst', hopen', hout, fun r => ?_⟩
    rw [hsl, cons_append, closes_lex (lex_closed hc _) (mem_cons_of_mem c hrest),
      counts_cons (hopen _ mem_cons_self), ho, add_neg_cancel_right]
    by_cases hnil : X = []
    · subst hnil
      have hz : counts [] = 0 := by decide
      simp [hz, hc'.2.2]
    · have hne := counts_ne_zero hnil hopen'
      simp [hne, hnil, hc'.2.2]
  | comma hpk _ hst he1 =>
    obtain ⟨hsl, hout⟩ := hone hpk (by decide) (by decide) he1
    refine ⟨X, [ch ','], hst.trans hs, hopen, hout, fun r => ?_⟩
    rw [hsl, cons_append, closes_lex_zero hX0 (.mark (.inr rfl)) (mem_cons_of_mem _ hrest)]
    simp [hX, show ch '+' ≠ ch ',' by decide]
  | value hpk ht hst he1 =>
    obtain ⟨body, hbody, hsl⟩ := slice_string hpk ht (he1 ▸ he)
    rw [← he1] at hsl
    refine ⟨X, [], hst.trans hs, hopen, ?_, fun r => ?_⟩
    · rw [hsl, outside, outside_string hbody]
      rfl
    rw [hsl, cons_append, append_assoc, cons_append, closes_string hX0 hbody hrest]
    simp [hX]
  | @name t hpk ht _ hcolon hst he1 =>
    obtain ⟨body, hbody, hsl⟩ := slice_string hpk ht (Nat.le_of_succ_le (he1 ▸ he))
    rw [slice_cons hcolon (by decide) (he1 ▸ he), ← he1] at hsl
    refine ⟨X, [ch ':'], hst.trans hs, hopen, ?_, fun r => ?_⟩
    · rw [hsl, outside, outside_string hbody]
      rfl
    have hcolon0 : (0 : UInt8) ∈ ch ':' :: (slice buf s₁.mPos e ++ tail) :=
      mem_cons_of_mem _ hrest
    rw [hsl, cons_append, append_assoc, cons_append, cons_append, closes_string hX0 hbody hcolon0,
      closes_lex_zero hX0 (.mark (.inl rfl)) hcolon0]
    simp [hX, show ch '+' ≠ ch ':' by decide]
  | number hpk hst he1 =>
    obtain ⟨t, hnum, hall, hnext, -, -⟩ := number_of_numEnd hpk
    rw [← he1] at hnum hnext
    have hsl : slice buf s.mPos e = peek buf s.mPos :: (t ++ slice buf s₁.mPos e) := by
      rw [slice_append (le_of_lt hpos.1) he, hnum]
      rfl
    have hcn := isNumChar_of_startsNumber hpk
    have hplus := ne_plus_of_startsNumber hpk
    refine ⟨X, peek buf s.mPos :: t, hst.trans hs, hopen, ?_, fun r => ?_⟩
    · rw [hsl, outside_cons (ne_quote_of_isNumChar hcn), outside_number hall]
      rfl
    rw [hsl, cons_append, append_assoc, closes_number hX0 hrest
      (head_behind_number htail hnext hle) hpk hall]
    simp [hX, hplus]
  | blank hpk hst he1 =>
    obtain ⟨-, hout⟩ := hone hpk (by decide) (by decide) he1
    rw [hout] at hblank
    exact absurd mem_cons_self hblank

theorem Piece.closes_last (hp : Piece buf s s') (hs : s.mStack = X ++ K)
    (hd : s'.mStack.length = K.length) (hX : X ≠ []) (hopen : ∀ x ∈ X, IsOpen x)
    (hblank : ch ' ' ∉ outside false false (slice buf s.mPos s'.mPos)) (r : Cursor) :
    Closes (counts X) (slice buf s.mPos s'.mPos ++ tail) r ↔
      ch '+' ∉ outside false false (slice buf s.mPos s'.mPos) ∧ r = tail := by
  obtain ⟨X', out, hs', -, hout, hiff⟩ :=
    closes_iff h0 htail hp le_rfl hp.pos.2 hs hX hopen hblank
  have hnil : X' = [] := by
    rw [hs', length_append] at hd
    exact length_eq_zero_iff.1 (by omega)
  have hempty : slice buf s'.mPos s'.mPos = [] := by
    unfold slice
    rw [Nat.sub_self, take_zero]
  rw [hiff, hout, hempty]
  simp [hnil, outside]

/-- **The rounds inside of brackets**: the other scanner closes at the same place, if there is no
`+` on the way. -/
theorem Rounds.closes_iff (hr : Rounds filters buf pause depth s s') (hs : s.mStack = X ++ K) (hK : K.length = depth)
    (hX : X ≠ []) (hopen : ∀ x ∈ X, IsOpen x)
    (hblank : ch ' ' ∉ outside false false (slice buf s.mPos s'.mPos)) (r : Cursor) :
    Closes (counts X) (slice buf s.mPos s'.mPos ++ tail) r ↔
      ch '+' ∉ outside false false (slice buf s.mPos s'.mPos) ∧ r = tail := by
  induction hr generalizing X with
  | last h hd =>
    exact Piece.closes_last h0 htail (piece_of_step (.inl h)) hs (hd.trans hK.symm) hX hopen hblank r
  | finish h hf ht hd =>
    exact Piece.closes_last h0 htail (piece_of_step (.inr ⟨h, hf, ht⟩)) hs (hd.trans hK.symm) hX
      hopen hblank r
  | more h hd hr ih =>
    obtain ⟨X', out, hs', hopen', hout, hiff⟩ :=
      Piece.closes_iff h0 htail (piece_of_step (.inl h)) (le_of_lt hr.pos.1) hr.pos.2 hs hX hopen hblank
    have hX' : X' ≠ [] := fun hnil => by
      rw [hs', hnil, nil_append] at hd
      omega
    rw [hout, mem_append, not_or] at hblank
    rw [hiff, hout, ih hs' hX' hopen' hblank.2]
    simp [hX', and_assoc]

/-- **A number that is the whole value** is taken up to its first sign. -/
theorem closes_whole_number {t : List UInt8} (hc : startsNumber c = true)
    (ht : ∀ b ∈ t, isNumChar b = true) :
    Closes 0 (c :: (t ++ tail)) tail ↔ ch '+' ∉ t ∧ ch '-' ∉ t := by
  have hl : Lex (c :: (t ++ tail)) 0 ((t ++ tail).dropWhile inNumber) := by
    have h : Lex (c :: ((t ++ tail).takeWhile inNumber ++ (t ++ tail).dropWhile inNumber)) 0
        ((t ++ tail).dropWhile inNumber) :=
      .number hc (fun b hb => mem_takeWhile_imp hb) (head_dropWhile_inNumber _)
    rwa [takeWhile_append_dropWhile] at h
  rw [closes_lex hl (mem_cons_of_mem _ (mem_append_right _ h0))]
  have hsign : (ch '+' ∉ t ∧ ch '-' ∉ t) ↔ ∀ b ∈ t, inNumber b = true := by
    constructor
    · rintro ⟨hp, hm⟩ b hb
      rcases (isNumChar_iff b).1 (ht b hb) with h | rfl | rfl
      · exact h
      · exact absurd hb hp
      · exact absurd hb hm
    · intro hall
      exact ⟨fun hm => absurd (hall _ hm) (by decide), fun hm => absurd (hall _ hm) (by decide)⟩
  rw [hsign]
  constructor
  · rintro (⟨-, heq⟩ | ⟨hz, -⟩)
    · -- where a sign stopped the loop, there is more left than `tail`
      by_contra hno
      have hne : t.dropWhile inNumber ≠ [] := fun h => hno (dropWhile_eq_nil_iff.1 h)
      have hlen := congrArg List.length heq
      rw [dropWhile_append, if_neg fun h => hne (isEmpty_iff.1 h), length_append] at hlen
      have := length_pos_iff.2 hne
      omega
    · exact absurd (add_zero (0 : Int × Int)) hz
  · intro hall
    exact .inl ⟨add_zero _, (dropWhile_inNumber hall htail).symm⟩

/-- A value of the splitter begins as a value, and closes at its end when no number in it has a
sign that the other scanner does not take. -/
theorem ScansValue.closes_iff (h : ScansValue filters buf pause s s')
    (hblank : ch ' ' ∉ outside false false (slice buf s.mPos s'.mPos)) :
    (∃ c t, slice buf s.mPos s'.mPos = c :: t ∧ AtValue c) ∧
      (Closes 0 (slice buf s.mPos s'.mPos ++ tail) tail ↔
        SignFree (slice buf s.mPos s'.mPos)) := by
  obtain ⟨hexp, hr⟩ := h
  rcases hr.head with ⟨hp, hd⟩ | ⟨s₁, hp, hd, hr₁⟩
  · -- one round: a string or a number
    cases hp with
    | opened _ _ hst _ | closed _ _ hst _ _ => rw [hst, length_cons] at hd; omega
    | comma _ he _ _ | name _ _ he _ _ _ => exact absurd he hexp
    | value hpk ht _ he1 =>
      obtain ⟨body, hbody, hstr, -⟩ := string_of_strEnd hpk ht
      rw [he1, hstr]
      refine ⟨⟨_, _, rfl, by decide⟩, iff_of_true ?_ ⟨?_, fun hs =>
        absurd (show startsNumber (ch '"') = true from hs) (by decide)⟩⟩
      · have hl : Lex (ch '"' :: (body ++ ch '"' :: tail)) 0 tail := .string hbody
        have heq : ch '"' :: (body ++ [ch '"']) ++ tail = ch '"' :: (body ++ ch '"' :: tail) := by
          simp
        rw [heq]
        exact .last hl (add_zero _)
      · rw [outside, outside_string hbody]
        simp [outside]
    | number hpk _ he1 =>
      obtain ⟨t, hnum, hall, -, -, -⟩ := number_of_numEnd hpk
      rw [he1, hnum]
      refine ⟨⟨_, _, rfl, atValue_of_startsNumber hpk⟩, ?_⟩
      rw [cons_append, closes_whole_number h0 htail hpk hall]
      have hout : outside false false (peek buf s.mPos :: t) = peek buf s.mPos :: t := by
        have := outside_number (fun b hb => by
          rcases mem_cons.1 hb with rfl | hb
          · exact isNumChar_of_startsNumber hpk
          · exact hall b hb) []
        simpa [outside] using this
      have hplus := ne_plus_of_startsNumber hpk
      unfold SignFree
      rw [hout]
      simp [hplus, hpk]
    | blank hpk _ he1 =>
      rw [he1, slice_one (hpk.symm ▸ (by decide)), hpk] at hblank
      exact absurd hblank (by decide)
  -- a bracket is opened, and everything up to the end is inside of it
  cases hp with
  | closed _ _ hst _ _ => rw [hst, length_cons] at hd; omega
  | comma _ he _ _ | name _ _ he _ _ _ => exact absurd he hexp
  | value _ _ hst _ | number _ hst _ | blank _ hst _ => rw [hst] at hd; omega
  | @opened c name hc hpk hst he1 =>
    have hc' : c ≠ 0 ∧ c ≠ ch '"' ∧ ch '+' ≠ c ∧ AtValue c ∧ startsNumber c = false := by
      rcases hc with rfl | rfl <;> decide
    have hsl : slice buf s.mPos s'.mPos = c :: slice buf s₁.mPos s'.mPos := by
      rw [slice_cons hpk hc'.1 (he1 ▸ le_of_lt hr₁.pos.1), he1]
    have hopen : ∀ x ∈ [c :: name], IsOpen x := forall_mem_singleton.2 hc
    rw [hsl, outside_cons hc'.2.1] at hblank
    have hd' : 0 + weight c = counts [c :: name] := (counts_cons (x := c :: name) hc []).symm
    rw [hsl]
    refine ⟨⟨_, _, rfl, hc'.2.2.2.1⟩, ?_⟩
    rw [cons_append, closes_lex (lex_opened hc _) (mem_cons_of_mem _ (mem_append_right _ h0)),
      hd', Rounds.closes_iff h0 htail hr₁ hst rfl (by simp) hopen
        fun hm => hblank (mem_cons_of_mem _ hm)]
    have hne := counts_ne_zero (cons_ne_nil (c :: name) []) hopen
    have hnum : startsNumber ((c :: slice buf s₁.mPos s'.mPos).headD 0) = false := hc'.2.2.2.2
    unfold SignFree
    rw [outside_cons hc'.2.1, hnum]
    simp [hne, hc'.2.2.1]

end

/-- **For every value that the splitter goes over**, with no blank outside of its strings, and every
`,`, `]` or `}` behind it: `storeobject` takes exactly the same characters if and only if no number
in it has a `+`, and it is not itself a number with a `-` behind its first character. -/
theorem storeobject_scans_iff {s s' : JSONSplitter} (h : ScansValue filters buf pause s s')
    (hblank : ch ' ' ∉ outside false false (slice buf s.mPos s'.mPos)) {c : UInt8} {rest : Cursor}
    (hc : c = ch ',' ∨ c = ch ']' ∨ c = ch '}') (h0 : (0 : UInt8) ∈ rest) :
    (∃ v, storeobject (slice buf s.mPos s'.mPos ++ c :: rest) = .ok (some v, c :: rest)) ↔
      SignFree (slice buf s.mPos s'.mPos) := by
  have h0' : (0 : UInt8) ∈ c :: rest := mem_cons_of_mem _ h0
  obtain ⟨⟨b, t, hsl, hb⟩, hiff⟩ := ScansValue.closes_iff h0' (fun x hx => by
    obtain rfl : c = x := by simpa using hx
    rcases hc with rfl | rfl | rfl <;> decide) h hblank
  rw [← hiff, hsl, cons_append]
  have hmem : (0 : UInt8) ∈ b :: (t ++ c :: rest) :=
    mem_cons_of_mem _ (mem_append_right _ h0')
  rcases storeobject_cases hb hmem with ⟨q, hq, he, -, -⟩ | ⟨he, hno⟩
  · rw [he]
    constructor
    · rintro ⟨v, hv⟩
      obtain ⟨-, rfl⟩ := Prod.mk.inj (Except.ok.inj hv)
      exact hq
    intro hcl
    obtain rfl := closes_unique hmem hq hcl
    exact ⟨_, rfl⟩
  · rw [he]
    exact iff_of_false (fun ⟨v, hv⟩ => by cases hv) (hno _)

end Value

def atStart : JSONSplitter := { mStarting := false }

def inArray : JSONSplitter :=
  { mPos := 1, mStack := [[ch '[']], mCurrentPath := [ch '['], mStarting := false }

/-- A document that both go over to its end. -/
theorem storeobject_scans_document :
    ∃ v, storeobject (bytes "[1-2,[],-5.0]" ++ ch ',' :: [0]) = .ok (some v, [ch ',', 0]) := by
  have h : ScansValue [] (bytes "[1-2,[],-5.0]") (fun _ => false) atStart
      { atStart with mPos := 13, mLastPos := 13, mExpectValue := 0, mFinished := true } := by
    refine ⟨by decide, .more rfl (by decide) (.more rfl (by decide) (.more rfl (by decide)
      (.more rfl (by decide) (.more rfl (by decide) (.more rfl (by decide)
      (.more rfl (by decide) (.finish rfl rfl rfl rfl)))))))⟩
  exact (storeobject_scans_iff h (by decide) (.inl rfl) (by decide)).2
    ⟨by decide, fun h => absurd h (by decide)⟩

/-- **An exponent with a sign**: the splitter goes over `1e+5` in `[1e+5]`, and `storeobject` stops
behind `1e`; the whole array it refuses. -/
theorem storeobject_signed_exponent :
    (∃ s', ScansValue [] (bytes "[1e+5]") (fun _ => false) inArray s' ∧
      slice (bytes "[1e+5]") inArray.mPos s'.mPos = bytes "1e+5") ∧
    storeobject (bytes "1e+5" ++ ch ']' :: [0]) = .ok (some (bytes "1e"), bytes "+5]" ++ [0]) ∧
    storeobject (bytes "[1e+5]" ++ ch ',' :: [0]) = .ok (none, bytes "[1e+5]" ++ ch ',' :: [0]) :=
  ⟨⟨{ inArray with mPos := 5, mExpectValue := 0 }, ⟨by decide, .last rfl rfl⟩, by decide⟩,
    by decide, by decide⟩

end MegaSdk.Json
