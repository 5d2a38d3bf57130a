/-
  File:      MegaSdk/Json/Chunks.lean
  Subject:   PARSING A DOCUMENT IN CHUNKS is parsing it at once.

  A call of `processChunk` sees a part `buf` of the text `pre ++ buf ++ post`. Every round of its
  loop is compared with the round that a single call on the whole text makes at the same place
  (`shift` moves the positions from the one to the other).

  * `step_view` -- a round on the part is the round on the whole, or it stops for more bytes or
    pauses and changes nothing. The one exception is the recognition of an error response by
    the start of the buffer, which is not the start of the text after bytes were dropped;
  * `loop_view` -- so a call follows the single call's path;
  * `StreamInv` -- between two calls the parser is at a place the single call comes through;
  * `chunks_eq_oneChunk` -- callbacks, values and status are those of the single call, in every
    delivery in which no call after bytes were dropped is handed a buffer that starts with
    `{"err":`.
-/
import MegaSdk.Json.Splitter

namespace MegaSdk.Json

open List

variable {pos t : Nat} {s s₀ : JSONSplitter} {r : Next} {text : List UInt8}

/-! ## 1. Reading a part of a text -/

section Reading

variable {pre buf post : List UInt8}

theorem lt_of_peek {i : Nat} (h : peek buf i ≠ 0) : i < buf.length := by
  by_contra hlt
  exact h (getD_eq_default _ _ (Nat.not_lt.1 hlt))

theorem peek_view {i j : Nat} (h : i + j < buf.length ∨ post = []) :
    peek (pre ++ buf ++ post) (i + pre.length + j) = peek buf (i + j) := by
  unfold peek
  rw [append_assoc, getD_append_right _ _ _ _ (by omega),
    show i + pre.length + j - pre.length = i + j by omega]
  rcases h with h | h
  · rw [getD_append _ _ _ _ h]
  · rw [h, append_nil]

theorem slice_view {a b a' b' : Nat} (ha : a' = a + pre.length) (hb : b' = b + pre.length)
    (h : b ≤ buf.length) : slice (pre ++ buf ++ post) a' b' = slice buf a b := by
  unfold slice
  rw [ha, hb, Nat.add_sub_add_right, Nat.add_comm a, ← drop_drop, append_assoc, drop_left]
  by_cases hab : a ≤ b
  · rw [drop_append_of_le_length (by omega), take_append_of_le_length]
    rw [length_drop]
    omega
  · rw [Nat.sub_eq_zero_of_le (by omega)]
    simp

/-- A string that ends in the part ends there in the whole, and at the end of the text an unfinished
    string is unfinished in the whole, too. -/
theorem strEndLoop_view : ∀ (l : List UInt8) (ptr : Nat), ptr + l.length = buf.length →
    (strEndLoop buf pos l ptr ≠ none ∨ post = []) →
      strEndLoop (pre ++ buf ++ post) (pos + pre.length) (l ++ post) (ptr + pre.length) =
        strEndLoop buf pos l ptr
  | [], _, _, h => by
      rw [h.resolve_left fun h => h rfl]
      rfl
  | b :: rest, ptr, hlen, h => by
      rw [length_cons] at hlen
      have hback : backslashes (pre ++ buf ++ post) (pos + pre.length) (ptr + pre.length) =
          backslashes buf pos ptr := by
        unfold backslashes
        rw [slice_view rfl rfl (by omega)]
      rw [cons_append, strEndLoop, strEndLoop, hback]
      rw [strEndLoop] at h
      split
      · rfl
      rename_i hb
      rw [if_neg hb] at h
      split
      · congr 1
        omega
      rename_i hq
      rw [if_neg hq] at h
      rw [show ptr + pre.length + 1 = ptr + 1 + pre.length by omega]
      exact strEndLoop_view rest (ptr + 1) (by omega) h

theorem strEndLoop_le : ∀ (l : List UInt8) (ptr : Nat), ptr + l.length = buf.length → pos ≤ ptr →
    strEndLoop buf pos l ptr = some t → pos + t ≤ buf.length ∧ 0 < t
  | [], _, _, _, h => by cases h
  | b :: rest, ptr, hlen, hpos, h => by
      rw [length_cons] at hlen
      rw [strEndLoop] at h
      split_ifs at h
      · cases h
        omega
      · exact strEndLoop_le rest (ptr + 1) (by omega) (by omega) h

theorem drop_view (k : Nat) (h : k ≤ buf.length) :
    (pre ++ buf ++ post).drop (k + pre.length) = buf.drop k ++ post := by
  rw [Nat.add_comm, ← drop_drop, append_assoc, drop_left,
    drop_append_of_le_length h]

theorem strEnd_view (hpos : pos < buf.length) (h : strEnd buf pos ≠ none ∨ post = []) :
    strEnd (pre ++ buf ++ post) (pos + pre.length) = strEnd buf pos := by
  unfold strEnd at h ⊢
  rw [show pos + pre.length + 1 = pos + 1 + pre.length by omega, drop_view _ hpos]
  refine strEndLoop_view _ _ ?_ h
  rw [length_drop]
  omega

theorem strEnd_le (hpos : pos < buf.length) (h : strEnd buf pos = some t) :
    pos + t ≤ buf.length ∧ 0 < t := by
  refine strEndLoop_le _ _ ?_ (by omega) h
  rw [length_drop]
  omega

/-- A number followed by another character in the part is the same number in the whole; at the end
    of the text it is the same number anyway. -/
theorem numEnd_view (hpos : pos ≤ buf.length) (h : peek buf (pos + numEnd buf pos) ≠ 0 ∨ post = []) :
    numEnd (pre ++ buf ++ post) (pos + pre.length) = numEnd buf pos := by
  unfold numEnd
  rw [drop_view _ hpos]
  rcases h with h | h
  · have hlt := lt_of_peek h
    have hshort : ((buf.drop pos).takeWhile isNumChar).length < (buf.drop pos).length := by
      rw [length_drop]
      unfold numEnd at hlt
      omega
    rw [takeWhile_append, if_neg (by omega)]
  · rw [h, append_nil]

end Reading

/-! ## 2. A round on a part of the text -/

/-- The parser with its positions counted from `d` bytes earlier. -/
def shift (d : Nat) (s : JSONSplitter) : JSONSplitter :=
  { s with mPos := s.mPos + d, mLastPos := s.mLastPos + d }

def Next.shift (d : Nat) : Next → Next
  | .go s => .go (Json.shift d s)
  | .stop s => .stop (Json.shift d s)
  | .paused s => .paused (Json.shift d s)
  | .failed s => .failed (Json.shift d s)

def noPause : Nat → Bool := fun _ => false

section Round

variable {filters : FiltersChain} {pre buf post : List UInt8} {pause : Nat → Bool}
  {s : JSONSplitter}
variable (d : Nat)

/-- A round on the whole text against one on the part: they are the same, or the part ends there. -/
def Agree (d : Nat) (post : List UInt8) (s : JSONSplitter) (whole part : Next) : Prop :=
  whole = part.shift d ∨ part = .stop s ∧ (post = [] → whole = .stop (shift d s))

theorem expectValue_shift : (shift d s).mExpectValue = s.mExpectValue := rfl

theorem parseError_shift : parseError (shift d s) = (parseError s).shift d := rfl

theorem callFilter_shift (path element : List UInt8) {k k' : JSONSplitter → Bool → Next}
    (hk : ∀ log b, k' (shift d { s with log := log }) b = (k { s with log := log } b).shift d) :
    callFilter filters path element (shift d s) k' =
      (callFilter filters path element s k).shift d := by
  unfold callFilter
  cases findCallback filters path with
  | none => exact hk s.log false
  | some callback =>
    simp only
    split
    · exact hk (s.log ++ [(path, element)]) true
    · rfl

theorem ite_add_pos (p : Prop) [Decidable p] (a b : Nat) :
    (if p then a + d else b + d) = (if p then a else b) + d := by
  split <;> rfl

theorem openBracket_shift (c : UInt8) :
    openBracket filters c (shift d s) = (openBracket filters c s).shift d := by
  unfold openBracket
  rw [expectValue_shift]
  split
  · rfl
  simp only [shift, Next.shift, ← ite_add_pos, Nat.add_right_comm _ d 1]
  rfl

theorem comma_shift : comma (shift d s) = (comma s).shift d := by
  have heq : s.mLastPos + d = s.mPos + d ↔ s.mLastPos = s.mPos := Nat.add_right_cancel_iff
  unfold comma
  rw [expectValue_shift]
  split
  · rfl
  cases hst : s.mStack <;>
    simp only [shift, hst, heq, Next.shift, parseError, ← ite_add_pos, Nat.add_right_comm _ d 1]

theorem closeBracket_shift (c : UInt8) (hpos : s.mPos < buf.length)
    (herr : (s.mStack.length = 1 ∧ c = ch '}' ∧ s.mLastPos + pre.length = 0 ∧
        isErr (pre ++ buf ++ post) = true) ↔
      (s.mStack.length = 1 ∧ c = ch '}' ∧ s.mLastPos = 0 ∧ isErr buf = true)) :
    closeBracket filters (pre ++ buf ++ post) c (shift pre.length s) =
      (closeBracket filters buf c s).shift pre.length := by
  have hslice : slice (pre ++ buf ++ post) (s.mLastPos + pre.length) (s.mPos + 1 + pre.length) =
      slice buf s.mLastPos (s.mPos + 1) := slice_view rfl rfl hpos
  unfold closeBracket
  rw [expectValue_shift]
  split
  · rfl
  cases hst : s.mStack with
  | nil =>
    simp only [parseError, Next.shift, shift, hst]
  | cons top rest =>
    rw [hst] at herr
    simp only [shift, hst, Nat.add_right_comm _ pre.length 1, herr, hslice]
    split
    · simp only [parseError, Next.shift, shift, hst]
    refine callFilter_shift
      (s := { s with mLastName := [], mPos := s.mPos + 1, mStack := top :: rest })
      pre.length _ _ fun log b => ?_
    split
    · simp only [shift, Next.shift]
    · simp only [shift, Next.shift, ← ite_add_pos]

theorem stringValue_shift (ht : s.mPos + t ≤ buf.length) :
    stringValue filters (pre ++ buf ++ post) noPause t (shift pre.length s) =
        (stringValue filters buf pause t s).shift pre.length ∨
      stringValue filters buf pause t s = .paused s := by
  unfold stringValue
  by_cases hp : (findCallback filters (s.mCurrentPath ++ (ch '"' :: s.mLastName))).isSome = true ∧
      pause s.mPos = true
  · exact .inr (if_pos hp)
  left
  rw [if_neg hp, if_neg fun h => by cases h.2]
  have hpos : (shift pre.length s).mPos = s.mPos + pre.length := rfl
  rw [slice_view hpos (by omega) ht]
  refine callFilter_shift pre.length _ _ fun log b => ?_
  simp only [shift, Next.shift, Nat.add_right_comm _ pre.length t, ← ite_add_pos]

theorem propertyName_shift (ht : s.mPos + t ≤ buf.length) (h0 : 0 < t) :
    Agree pre.length post s (propertyName (pre ++ buf ++ post) t (shift pre.length s))
      (propertyName buf t s) := by
  have hat : s.mPos + t < buf.length ∨ post = [] →
      peek (pre ++ buf ++ post) ((shift pre.length s).mPos + t) = peek buf (s.mPos + t) := peek_view
  unfold propertyName
  by_cases hz : peek buf (s.mPos + t) = 0
  · right
    refine ⟨if_pos hz, fun hpost => ?_⟩
    rw [hat (.inr hpost), if_pos hz]
  left
  rw [hat (.inl (lt_of_peek hz)), if_neg hz]
  split
  · rfl
  have hpos : (shift pre.length s).mPos = s.mPos + pre.length := rfl
  rw [slice_view (a := s.mPos + 1) (b := s.mPos + t - 1) (by omega) (by omega) (by omega)]
  simp only [shift, Next.shift]
  rw [show s.mPos + pre.length + t + 1 = s.mPos + t + 1 + pre.length by omega]

theorem number_shift (hpos : s.mPos < buf.length) :
    Agree pre.length post s (number filters (pre ++ buf ++ post) (shift pre.length s))
      (number filters buf s) := by
  by_cases hexp : s.mExpectValue = 0
  · left
    rw [number, number, expectValue_shift, if_pos hexp, if_pos hexp]
    rfl
  have hview : peek buf (s.mPos + numEnd buf s.mPos) ≠ 0 ∨ post = [] →
      numEnd (pre ++ buf ++ post) (shift pre.length s).mPos = numEnd buf s.mPos ∧
        peek (pre ++ buf ++ post) ((shift pre.length s).mPos + numEnd buf s.mPos) =
          peek buf (s.mPos + numEnd buf s.mPos) := by
    exact fun h => ⟨numEnd_view (Nat.le_of_lt hpos) h, peek_view (h.imp lt_of_peek id)⟩
  by_cases hz : peek buf (s.mPos + numEnd buf s.mPos) = 0
  · right
    refine ⟨?_, fun hpost => ?_⟩
    · unfold number
      rw [if_neg hexp]
      exact if_pos (.inr hz)
    obtain ⟨hnum, hat⟩ := hview (.inr hpost)
    rw [number, expectValue_shift, if_neg hexp, hnum]
    exact if_pos (.inr (hat.trans hz))
  left
  obtain ⟨hnum, hat⟩ := hview (.inl hz)
  rw [number, number, expectValue_shift, if_neg hexp, if_neg hexp, hnum]
  generalize numEnd buf s.mPos = j at hat hz
  simp only [hat]
  split
  · rfl
  have hj' : s.mPos + j ≤ buf.length := Nat.le_of_lt (lt_of_peek hz)
  have hsum : s.mPos + pre.length + j = s.mPos + j + pre.length := Nat.add_right_comm _ _ _
  have hcond : s.mLastPos + pre.length + j = s.mPos + j + pre.length ↔
      s.mLastPos + j = s.mPos + j := by omega
  have hslice : slice (pre ++ buf ++ post) (s.mLastPos + pre.length)
      (s.mPos + j + pre.length) = slice buf s.mLastPos (s.mPos + j) := slice_view rfl rfl hj'
  by_cases hst : s.mStack = []
  · simp only [shift, hst, if_true, hsum, hslice]
    by_cases hlast : s.mLastPos + j = s.mPos + j
    · rw [if_pos hlast, if_pos (hcond.2 hlast)]
      exact callFilter_shift
        (s := { s with mPos := s.mPos + j, mExpectValue := 0, mStack := [] })
        pre.length _ _ fun log b => rfl
    · rw [if_neg hlast, if_neg (fun h => hlast (hcond.1 h))]
      rfl
  · simp only [shift, hst, if_false, hsum, Next.shift]

/-- Whether the start of the buffer reads as an error response, for the part as for the whole:
    before bytes are dropped it is the same start, and a buffer that ends inside the pattern has
    no bracket to close; after bytes were dropped the part must not start with it. -/
theorem err_view {c : UInt8} (hc : peek buf s.mPos = c) (hpos : s.mPos < buf.length)
    (hclean : pre = [] ∨ isErr buf = false) :
    (s.mStack.length = 1 ∧ c = ch '}' ∧ s.mLastPos + pre.length = 0 ∧
        isErr (pre ++ buf ++ post) = true) ↔
      (s.mStack.length = 1 ∧ c = ch '}' ∧ s.mLastPos = 0 ∧ isErr buf = true) := by
  constructor
  · rintro ⟨h1, h2, h3, h4⟩
    obtain rfl : pre = [] := eq_nil_of_length_eq_zero (by omega)
    refine ⟨h1, h2, by omega, ?_⟩
    rw [nil_append] at h4
    unfold isErr at h4 ⊢
    rw [List.isPrefixOf_iff_prefix] at h4 ⊢
    by_cases hlen : 7 ≤ buf.length
    · exact prefix_of_prefix_length_le h4 (prefix_append _ _) hlen
    -- the closing bracket would be one of the pattern's seven bytes
    have hget : errPattern.getD s.mPos 0 = ch '}' := by
      obtain ⟨rest, hrest⟩ := h4
      have hp : peek (buf ++ post) s.mPos = ch '}' := by
        unfold peek at hc ⊢
        rw [getD_append _ _ _ _ hpos, hc, h2]
      rw [← hrest] at hp
      unfold peek at hp
      rwa [getD_append _ _ _ _ (show s.mPos < 7 by omega)] at hp
    have hnone : ∀ i < 7, errPattern.getD i 0 ≠ ch '}' := by decide
    exact absurd hget (hnone _ (by omega))
  rintro ⟨h1, h2, h3, h4⟩
  rcases hclean with rfl | hno
  · refine ⟨h1, h2, by simpa using h3, ?_⟩
    unfold isErr at h4 ⊢
    rw [List.isPrefixOf_iff_prefix] at h4 ⊢
    exact h4.trans (prefix_append _ _)
  · rw [hno] at h4
    cases h4

variable (filters post pause s) in
/-- **One round on a part of the text**: the round of the whole text at that place, or nothing
    happens because the part ends there (then, at the end of the text, nothing happens in the whole
    either) or because a callback pauses. -/
theorem step_view (hclean : pre = [] ∨ isErr buf = false) :
    Agree pre.length post s (step filters (pre ++ buf ++ post) noPause (shift pre.length s))
        (step filters buf pause s) ∨ step filters buf pause s = .paused s := by
  have hpeek : s.mPos < buf.length ∨ post = [] →
      peek (pre ++ buf ++ post) (shift pre.length s).mPos = peek buf s.mPos := peek_view (j := 0)
  by_cases hz : peek buf s.mPos = 0
  · refine .inl (.inr ⟨by simp only [step, hz, if_true], fun hpost => ?_⟩)
    simp only [step, hpeek (.inr hpost), hz, if_true]
  have hpos := lt_of_peek hz
  have hpeek := hpeek (.inl hpos)
  unfold step
  rw [hpeek]
  simp only [if_neg hz]
  split
  · exact .inl (.inl (openBracket_shift _ _))
  split
  · exact .inl (.inl (closeBracket_shift _ hpos (err_view rfl hpos hclean)))
  split
  · exact .inl (.inl (comma_shift _))
  split
  · have hview : strEnd buf s.mPos ≠ none ∨ post = [] →
        strEnd (pre ++ buf ++ post) (shift pre.length s).mPos = strEnd buf s.mPos := strEnd_view hpos
    cases hstr : strEnd buf s.mPos with
    | none =>
      refine .inl (.inr ⟨rfl, fun hpost => ?_⟩)
      rw [hview (.inr hpost), hstr]
    | some t =>
      obtain ⟨hlen, ht⟩ := strEnd_le hpos hstr
      rw [hview (.inl (by simp [hstr])), hstr, expectValue_shift]
      simp only
      split
      · exact (stringValue_shift hlen).imp_left .inl
      · exact .inl (propertyName_shift hlen ht)
  split
  · exact .inl (number_shift hpos)
  refine .inl (.inl ?_)
  split
  · simp only [Next.shift, shift, Nat.add_right_comm _ pre.length 1]
  · rw [parseError_shift]

/-! ## 3. Rounds that go on -/

structure Running (buf : List UInt8) (s : JSONSplitter) : Prop where
  last : s.mLastPos ≤ s.mPos
  inside : s.mPos ≤ buf.length
  unfinished : s.mFinished = false
  unfailed : s.mFailed = false
  unpaused : s.mPaused = false
  processed : s.mProcessedBytes = 0
  started : s.mStarting = false

/-- How a round ends, as far as the loop is concerned: it goes on further down the buffer, or the
    document is finished, or nothing happens, or it fails. -/
def Round (buf : List UInt8) (s : JSONSplitter) : Next → Prop
  | .go s' => Running buf s' ∧ s.mPos < s'.mPos
  | .stop s' => s'.mFinished = true ∨ s' = s
  | .paused s' => s' = s
  | .failed s' => s'.mFailed = true

theorem callFilter_round {path element : List UInt8} {k : JSONSplitter → Bool → Next}
    (hk : ∀ log b, Round buf s₀ (k { s with log := log } b)) :
    Round buf s₀ (callFilter filters path element s k) := by
  unfold callFilter
  cases findCallback filters path with
  | none => exact hk s.log false
  | some callback =>
    simp only
    split
    · exact hk _ true
    · exact rfl

section

variable (h : Running buf s)
include h

section

variable (hpos : s.mPos < buf.length)
include hpos

theorem openBracket_round (c : UInt8) :
    Round buf s (openBracket filters c s) := by
  unfold openBracket
  split
  · exact rfl
  refine ⟨{ h with last := ?_, inside := hpos }, Nat.lt_succ_self _⟩
  have := h.last
  dsimp only
  split <;> omega

theorem closeBracket_round (c : UInt8) :
    Round buf s (closeBracket filters buf c s) := by
  have hlast := h.last
  unfold closeBracket
  split
  · exact rfl
  split
  · exact rfl
  simp only
  split
  · exact rfl
  refine callFilter_round fun log b => ?_
  split
  · exact .inl rfl
  refine ⟨{ h with last := ?_, inside := hpos }, Nat.lt_succ_self _⟩
  dsimp only
  split <;> omega

theorem comma_round : Round buf s (comma s) := by
  have hlast := h.last
  unfold comma
  split
  · exact rfl
  simp only
  split
  · exact rfl
  refine ⟨{ h with last := ?_, inside := hpos }, Nat.lt_succ_self _⟩
  dsimp only
  split <;> omega

end

theorem stringValue_round (ht : s.mPos + t ≤ buf.length) (h0 : 0 < t) :
    Round buf s (stringValue filters buf pause t s) := by
  have hlast := h.last
  unfold stringValue
  simp only
  split
  · exact rfl
  refine callFilter_round fun log b => ?_
  refine ⟨{ h with last := ?_, inside := ht }, Nat.lt_add_of_pos_right h0⟩
  dsimp only
  split <;> omega

theorem propertyName_round (t : Nat) : Round buf s (propertyName buf t s) := by
  have hlast := h.last
  unfold propertyName
  split
  · exact .inr rfl
  rename_i hz
  have hpos := lt_of_peek hz
  split
  · exact rfl
  refine ⟨{ h with last := ?_, inside := hpos }, ?_⟩
  · show s.mLastPos ≤ s.mPos + t + 1
    omega
  · show s.mPos < s.mPos + t + 1
    omega

theorem number_round : Round buf s (number filters buf s) := by
  have hlast := h.last
  unfold number
  split
  · exact rfl
  simp only
  split
  · exact .inr rfl
  rename_i hj
  have hpos := lt_of_peek fun hz => hj (.inr hz)
  split
  · split
    · exact callFilter_round fun log b => .inl rfl
    · exact .inl rfl
  refine ⟨{ h with last := ?_, inside := Nat.le_of_lt hpos }, ?_⟩
  · dsimp only
    omega
  · dsimp only
    omega

end

variable (filters pause) in
theorem step_round (h : Running buf s) : Round buf s (step filters buf pause s) := by
  unfold step
  simp only
  split
  · exact .inr rfl
  rename_i hz
  have hpos := lt_of_peek hz
  split
  · exact openBracket_round h hpos _
  split
  · exact closeBracket_round h hpos _
  split
  · exact comma_round h hpos
  split
  · split
    · exact .inr rfl
    · rename_i t hstr
      obtain ⟨hlen, ht⟩ := strEnd_le hpos hstr
      split
      · exact stringValue_round h hlen ht
      · exact propertyName_round h t
  split
  · exact number_round h
  split
  · refine ⟨{ h with last := ?_, inside := hpos }, Nat.lt_succ_self _⟩
    have := h.last
    show s.mLastPos ≤ s.mPos + 1
    omega
  · exact rfl

end Round

/-! ## 4. A call on a part of the text -/

section Call

variable {filters : FiltersChain} {pre buf post : List UInt8} {pause : Nat → Bool}

/-- Rounds of the single call on the whole text that go on. -/
def Goes (filters : FiltersChain) (text : List UInt8) : JSONSplitter → JSONSplitter → Prop :=
  Relation.ReflTransGen fun a b => step filters text noPause a = .go b

def Ends (filters : FiltersChain) (text : List UInt8) (s : JSONSplitter) (r : Next) : Prop :=
  ∃ a, Goes filters text s a ∧ step filters text noPause a = r

/-- Where a call on a part of the text leaves the single call on the whole. -/
def Follows (filters : FiltersChain) (pre buf post : List UInt8) (s : JSONSplitter) : Next → Prop
  | .go _ => False
  | .failed s' => s'.mFailed = true ∧
      Ends filters (pre ++ buf ++ post) (shift pre.length s) (.failed (shift pre.length s'))
  | .paused s' => Running buf s' ∧
      Goes filters (pre ++ buf ++ post) (shift pre.length s) (shift pre.length s')
  | .stop s' =>
    (s'.mFinished = true ∧
      Ends filters (pre ++ buf ++ post) (shift pre.length s) (.stop (shift pre.length s'))) ∨
    (Running buf s' ∧
      Goes filters (pre ++ buf ++ post) (shift pre.length s) (shift pre.length s') ∧
      (post = [] → step filters (pre ++ buf ++ post) noPause (shift pre.length s') =
        .stop (shift pre.length s')))

theorem Follows.head {s₁ : JSONSplitter}
    (hgo : step filters (pre ++ buf ++ post) noPause (shift pre.length s) =
      .go (shift pre.length s₁)) (h : Follows filters pre buf post s₁ r) :
    Follows filters pre buf post s r := by
  have hends : ∀ r', Ends filters (pre ++ buf ++ post) (shift pre.length s₁) r' →
      Ends filters (pre ++ buf ++ post) (shift pre.length s) r' :=
    fun r' ⟨a, ha, hr⟩ => ⟨a, .head hgo ha, hr⟩
  cases r with
  | go s' => exact h
  | failed s' => exact ⟨h.1, hends _ h.2⟩
  | paused s' => exact ⟨h.1, .head hgo h.2⟩
  | stop s' =>
    rcases h with ⟨hf, he⟩ | ⟨hr, hg, hp⟩
    · exact .inl ⟨hf, hends _ he⟩
    · exact .inr ⟨hr, .head hgo hg, hp⟩

/-- **A call on a part of the text follows the single call on the whole.** -/
theorem loop_view (hclean : pre = [] ∨ isErr buf = false) : ∀ (n : Nat) (s : JSONSplitter),
    Running buf s → buf.length < n + s.mPos →
      Follows filters pre buf post s (loop filters buf pause n s)
  | 0, s, h, hn => by
      have := h.inside
      omega
  | n + 1, s, h, hn => by
      have hview := step_view filters post pause s hclean
      have hround := step_round filters pause h
      rw [loop]
      generalize step filters buf pause s = r at hview hround ⊢
      cases r with
      | go s₁ =>
        have hgo := (hview.resolve_right nofun).resolve_right nofun
        exact (loop_view hclean n s₁ hround.1 (by have := hround.2; omega)).head hgo
      | failed s' => exact ⟨hround, _, .refl, (hview.resolve_right nofun).resolve_right nofun⟩
      | paused s' =>
        obtain rfl : s' = s := hround
        exact ⟨h, .refl⟩
      | stop s' =>
        have hview := hview.resolve_right nofun
        rcases hround with hfin | rfl
        · refine .inl ⟨hfin, _, .refl, hview.resolve_right fun hv => ?_⟩
          cases hv.1
          rw [h.unfinished] at hfin
          cases hfin
        exact .inr ⟨h, .refl, fun hpost => hview.elim id fun hv => hv.2 hpost⟩

/-! ## 5. Between the calls -/

def Next.state : Next → JSONSplitter
  | .go s | .stop s | .paused s | .failed s => s

theorem leave_result (r : Next) : (leave r).1.result = r.state.result := by
  cases r <;> rfl

theorem loop_of_goes {a b : JSONSplitter} (hg : Goes filters text a b)
    (hr : step filters text noPause b = r) (hstop : ∀ s, r ≠ .go s) :
    ∀ n, (∀ s, loop filters text noPause n a ≠ .go s) →
      loop filters text noPause n a = r := by
  induction hg using Relation.ReflTransGen.head_induction_on with
  | refl =>
    intro n hn
    cases n with
    | zero => exact absurd rfl (hn b)
    | succ n =>
      rw [loop, hr]
      cases r with
      | go s => exact absurd rfl (hstop s)
      | _ => rfl
  | head hstep _ ih =>
    rename_i a c _
    intro n hn
    cases n with
    | zero => exact absurd rfl (hn a)
    | succ n =>
      have hloop : loop filters text noPause (n + 1) a = loop filters text noPause n c := by
        rw [loop, hstep]
      rw [hloop]
      exact ih n fun s hs => hn s (hloop.trans hs)

theorem start_cases (filters : FiltersChain) :
    (∃ log, start filters {} = .go { log := log, mStarting := false }) ∨
      ∃ s, start filters {} = .failed s ∧ s.mFailed = true := by
  unfold start callFilter
  simp only [if_true]
  split
  · exact .inl ⟨_, rfl⟩
  split
  · exact .inl ⟨_, rfl⟩
  · exact .inr ⟨_, rfl, rfl⟩

theorem running_of_start (h : start filters {} = .go s₀) (text : List UInt8) :
    Running text s₀ ∧ s₀.mPos = 0 ∧ s₀.mLastPos = 0 := by
  rcases start_cases filters with ⟨log, hs⟩ | ⟨s, hs, -⟩ <;> rw [hs] at h <;> cases h
  exact ⟨⟨Nat.le_refl _, Nat.zero_le _, rfl, rfl, rfl, rfl, rfl⟩, rfl, rfl⟩

theorem processChunk_of_go {s₁ : JSONSplitter} (hend : (s.mFailed || s.mFinished) = false)
    (hs : start filters
      { s with mPaused := false, mPos := s.mProcessedBytes, mLastPos := 0, mProcessedBytes := 0 } =
        .go s₁) :
    processChunk filters buf pause s = leave (loop filters buf pause (buf.length + 1) s₁) := by
  unfold processChunk
  rw [if_neg (by rw [hend]; decide)]
  simp [hs]

theorem oneChunk_of_ends (h₀ : start filters {} = .go s₀) (he : Ends filters text s₀ r)
    (hstop : ∀ s, r ≠ .go s) : (oneChunk filters text).result = r.state.result := by
  obtain ⟨hrun, -, -⟩ := running_of_start h₀ text
  obtain ⟨a, hg, hr⟩ := he
  have hfollow : Follows filters [] text [] s₀ (loop filters text noPause (text.length + 1) s₀) :=
    loop_view (.inl rfl) _ _ hrun (by omega)
  have hend : ∀ s, loop filters text noPause (text.length + 1) s₀ ≠ .go s := by
    intro s hs
    rwa [hs] at hfollow
  have hloop := loop_of_goes hg hr hstop _ hend
  have hone : oneChunk filters text =
      (leave (loop filters text noPause (text.length + 1) s₀)).1 := by
    exact congrArg Prod.fst (processChunk_of_go rfl h₀)
  rw [hone, leave_result, hloop]

/-- The parser between two calls, at its place in the whole text. -/
def Stream.place (s : Stream) : JSONSplitter :=
  { s.splitter with
    mPos := s.splitter.mProcessedBytes + s.dropped
    mLastPos := s.dropped
    mPaused := false
    mProcessedBytes := 0 }

/-- What holds after every call, `text` having been delivered: either the document goes on, and
    whatever follows, the single call comes through the place where the parser is; or it has
    ended, as the single call ends it. -/
inductive StreamInv (filters : FiltersChain) (text : List UInt8) (s : Stream) : Prop
  | running (pre : List UInt8) (s₀ : JSONSplitter) (h₀ : start filters {} = .go s₀)
      (htext : text = pre ++ s.buf) (hpre : pre.length = s.dropped)
      (hproc : s.splitter.mProcessedBytes ≤ s.buf.length)
      (hfin : s.splitter.mFinished = false) (hfail : s.splitter.mFailed = false)
      (hstart : s.splitter.mStarting = false)
      (hgoes : ∀ post, Goes filters (text ++ post) s₀ s.place)
      (hidle : s.splitter.mPaused = false →
        step filters text noPause s.place = .stop s.place) : StreamInv filters text s
  | ended (hend : (s.splitter.mFailed || s.splitter.mFinished) = true)
      (hone : ∀ post, (oneChunk filters (text ++ post)).result = s.splitter.result) :
      StreamInv filters text s

/-- After a call that was not paused, the single call on what was delivered agrees. -/
theorem StreamInv.result {s : Stream} (h : StreamInv filters text s)
    (hp : s.splitter.mPaused = false) : (oneChunk filters text).result = s.splitter.result := by
  cases h with
  | running pre s₀ h₀ _ _ _ _ _ _ hgoes hidle =>
    have hg : Goes filters text s₀ s.place := by
      have := hgoes []
      rwa [append_nil] at this
    exact oneChunk_of_ends h₀ ⟨_, hg, hidle hp⟩ nofun
  | ended _ hone =>
    have := hone []
    rwa [append_nil] at this

def left (pre buf : List UInt8) (s : JSONSplitter) (paused : Bool) : Stream where
  splitter := { s with mProcessedBytes := s.mPos - s.mLastPos, mPaused := paused }
  buf := buf.drop s.mLastPos
  dropped := pre.length + s.mLastPos

theorem left_place (h : Running buf s) (paused : Bool) :
    (left pre buf s paused).place = shift pre.length s := by
  have hlast := h.last
  have hpos : s.mPos - s.mLastPos + (s.mLastPos + pre.length) = s.mPos + pre.length := by omega
  simp only [Stream.place, left, shift, hpos, Nat.add_comm pre.length, h.unpaused, h.processed]

theorem StreamInv.of_left {paused : Bool} (h : Running buf s) (h₀ : start filters {} = .go s₀)
    (hgoes : ∀ post, Goes filters (pre ++ buf ++ post) s₀ (shift pre.length s))
    (hidle : paused = false → step filters (pre ++ buf) noPause (shift pre.length s) =
      .stop (shift pre.length s)) : StreamInv filters (pre ++ buf) (left pre buf s paused) := by
  have hlast := h.last
  have hin := h.inside
  refine .running (pre ++ buf.take s.mLastPos) s₀ h₀ ?_ ?_ ?_ h.unfinished h.unfailed h.started
    ?_ ?_
  · show pre ++ buf = pre ++ buf.take s.mLastPos ++ buf.drop s.mLastPos
    rw [append_assoc, take_append_drop]
  · show (pre ++ buf.take s.mLastPos).length = pre.length + s.mLastPos
    rw [length_append, length_take]
    omega
  · show s.mPos - s.mLastPos ≤ (buf.drop s.mLastPos).length
    rw [length_drop]
    omega
  · rwa [left_place h]
  · rwa [left_place h]

/-- **A call that goes on from a place of the single call** leaves the parser at one, or ends as
    the single call does. -/
theorem StreamInv.of_loop (h₀ : start filters {} = .go s₀)
    (hplace : ∀ post, Goes filters (pre ++ buf ++ post) s₀ (shift pre.length s))
    (hfollow : ∀ post, Follows filters pre buf post s r) :
    StreamInv filters (pre ++ buf)
      { splitter := (leave r).1
        buf := buf.drop (leave r).2
        dropped := pre.length + (leave r).2 } := by
  have hends : ∀ {post : List UInt8} {r' : Next}, (∀ s, r' ≠ .go s) →
      Ends filters (pre ++ buf ++ post) (shift pre.length s) r' →
      (oneChunk filters (pre ++ buf ++ post)).result = r'.state.result :=
    fun hr ⟨a, hg, hs⟩ => oneChunk_of_ends h₀ ⟨a, (hplace _).trans hg, hs⟩ hr
  cases r with
  | go s' => exact (hfollow []).elim
  | failed s' =>
    refine .ended ?_ fun post => hends (fun s hs => by cases hs) (hfollow post).2
    show (s'.mFailed || s'.mFinished) = true
    rw [(hfollow []).1]
    rfl
  | paused s' =>
    exact StreamInv.of_left (hfollow []).1 h₀ (fun post => (hplace post).trans (hfollow post).2)
      nofun
  | stop s' =>
    by_cases hfin : s'.mFinished = true
    · refine .ended ?_ fun post => ?_
      · show (s'.mFailed || s'.mFinished) = true
        rw [hfin, Bool.or_true]
      · rcases hfollow post with ⟨-, he⟩ | ⟨hr, -⟩
        · exact hends (fun s hs => by cases hs) he
        · rw [hr.unfinished] at hfin
          cases hfin
    have hrun : ∀ post, Running buf s' ∧
        Goes filters (pre ++ buf ++ post) (shift pre.length s) (shift pre.length s') ∧
        (post = [] → step filters (pre ++ buf ++ post) noPause (shift pre.length s') =
          .stop (shift pre.length s')) :=
      fun post => (hfollow post).resolve_left fun h => hfin h.1
    exact StreamInv.of_left (hrun []).1 h₀ (fun post => (hplace post).trans (hrun post).2.1) fun _ => by
      have := (hrun []).2.2 rfl
      rwa [append_nil] at this

theorem StreamInv.of_go {s : Stream} {s₁ : JSONSplitter} {chunk : List UInt8 × (Nat → Bool)}
    (h₀ : start filters {} = .go s₀) (hpre : pre.length = s.dropped)
    (hend : (s.splitter.mFailed || s.splitter.mFinished) = false)
    (hs : start filters { s.splitter with
      mPaused := false, mPos := s.splitter.mProcessedBytes, mLastPos := 0, mProcessedBytes := 0 } =
        .go s₁)
    (hrun : Running (s.buf ++ chunk.1) s₁) (hclean : pre = [] ∨ isErr (s.buf ++ chunk.1) = false)
    (hgoes : ∀ post, Goes filters (pre ++ (s.buf ++ chunk.1) ++ post) s₀ (shift pre.length s₁)) :
    StreamInv filters (pre ++ (s.buf ++ chunk.1)) (deliver filters s chunk) := by
  have hfollow : ∀ post, Follows filters pre (s.buf ++ chunk.1) post s₁
      (loop filters (s.buf ++ chunk.1) chunk.2 ((s.buf ++ chunk.1).length + 1) s₁) :=
    fun post => loop_view hclean _ _ hrun (by omega)
  have hinv := StreamInv.of_loop h₀ hgoes hfollow
  rwa [← processChunk_of_go hend hs, hpre] at hinv

theorem deliver_first (chunk : List UInt8 × (Nat → Bool)) :
    StreamInv filters chunk.1 (deliver filters {} chunk) := by
  rcases start_cases filters with ⟨log, h₀⟩ | ⟨s, h₀, hfail⟩
  · have hpre : ([] : List UInt8).length = ({} : Stream).dropped := rfl
    exact StreamInv.of_go h₀ hpre rfl h₀ (running_of_start h₀ chunk.1).1 (.inl rfl) fun post => .refl
  -- the start callback fails, whatever the text is
  have hcall : ∀ buf pause, processChunk filters buf pause {} = (s, 0) := by
    intro buf pause
    unfold processChunk
    rw [if_neg (by decide)]
    simp [h₀]
  have hdel : ∀ c, (deliver filters {} c).splitter = s := by
    intro c
    show (processChunk filters ([] ++ c.1) c.2 {}).1 = s
    rw [hcall]
  refine .ended ?_ fun post => ?_
  · rw [hdel, hfail]
    rfl
  · rw [oneChunk, hdel, hdel]

/-- **A later call**, on a buffer that is the start of the text or does not look like an error
    response. -/
theorem StreamInv.call {s : Stream} (h : StreamInv filters text s)
    (chunk : List UInt8 × (Nat → Bool)) (hclean : s.dropped = 0 ∨ isErr (s.buf ++ chunk.1) = false) :
    StreamInv filters (text ++ chunk.1) (deliver filters s chunk) := by
  cases h with
  | ended hend hone =>
    have hcall : processChunk filters (s.buf ++ chunk.1) chunk.2 s.splitter = (s.splitter, 0) :=
      if_pos hend
    have hdel : (deliver filters s chunk).splitter = s.splitter := by
      show (processChunk filters (s.buf ++ chunk.1) chunk.2 s.splitter).1 = _
      rw [hcall]
    refine .ended (hdel ▸ hend) fun post => ?_
    rw [hdel, append_assoc]
    exact hone _
  | running pre s₀ h₀ htext hpre hproc hfin hfail hstart hgoes hidle =>
    let s₁ : JSONSplitter :=
      { s.splitter with
        mPaused := false, mPos := s.splitter.mProcessedBytes, mLastPos := 0, mProcessedBytes := 0 }
    have hs₁ : start filters s₁ = .go s₁ := by
      unfold start
      rw [if_neg (by rw [show s₁.mStarting = false from hstart]; decide)]
    have hrun : Running (s.buf ++ chunk.1) s₁ := by
      refine ⟨Nat.zero_le _, ?_, hfin, hfail, rfl, rfl, hstart⟩
      show s.splitter.mProcessedBytes ≤ _
      rw [length_append]
      omega
    have hplace : s.place = shift pre.length s₁ := by
      simp only [Stream.place, shift, s₁, hpre, Nat.zero_add]
    have hclean' : pre = [] ∨ isErr (s.buf ++ chunk.1) = false :=
      hclean.imp (fun h => eq_nil_of_length_eq_zero (hpre.trans h)) id
    rw [htext, append_assoc]
    refine .of_go h₀ hpre (by rw [hfin, hfail]; rfl) hs₁ hrun hclean' fun post => ?_
    have hg := hgoes (chunk.1 ++ post)
    rw [hplace, htext] at hg
    simpa only [append_assoc] using hg

end Call

/-! ## 6. Deliveries -/

/-- Every later call of the delivery that follows dropped bytes is handed a buffer that does not
    start with `{"err":`. -/
def NoLateErr (filters : FiltersChain) : Stream → List (List UInt8 × (Nat → Bool)) → Prop
  | _, [] => True
  | s, chunk :: chunks =>
    (s.dropped = 0 ∨ isErr (s.buf ++ chunk.1) = false) ∧
      NoLateErr filters (deliver filters s chunk) chunks

/-- **Every delivery keeps the invariant.** -/
theorem StreamInv.foldl {filters : FiltersChain} : ∀ (chunks : List (List UInt8 × (Nat → Bool)))
    {text : List UInt8} {s : Stream}, StreamInv filters text s → NoLateErr filters s chunks →
      StreamInv filters (text ++ (chunks.map Prod.fst).flatten) (chunks.foldl (deliver filters) s)
  | [], _, _, h, _ => by simpa using h
  | chunk :: chunks, text, s, h, hno => by
      have hnext := StreamInv.foldl chunks (h.call chunk hno.1) hno.2
      rwa [append_assoc] at hnext

/-- **Parsing in chunks.** For every text (a document and whatever follows it), every filters and
    every delivery of the text in one or more calls, string callbacks pausing anywhere but in the
    last call: if no call after bytes were dropped is handed a buffer that starts with `{"err":`, the
    callbacks made, the bytes handed to them and the final status are those of a single call with
    the whole text. -/
theorem chunks_eq_oneChunk (filters : FiltersChain) (chunks : List (List UInt8 × (Nat → Bool)))
    (hne : chunks ≠ []) (hno : NoLateErr filters {} chunks)
    (hp : (chunks.foldl (deliver filters) {}).splitter.mPaused = false) :
    (chunks.foldl (deliver filters) {}).splitter.result =
      (oneChunk filters (chunks.map Prod.fst).flatten).result := by
  cases chunks with
  | nil => exact absurd rfl hne
  | cons chunk chunks =>
    have hinv := StreamInv.foldl chunks (deliver_first chunk) hno.2
    exact (hinv.result hp).symm

def succeedOn (paths : List String) : FiltersChain :=
  [fun path => if paths.any (fun p => p.toList.map ch == path) then some fun _ => .success else none]

def callsOf (chunks : List (String × Bool)) : List (List UInt8 × (Nat → Bool)) :=
  chunks.map fun c => (c.1.toList.map ch, fun _ => c.2)

/-- A document cut inside a name, inside an escaped string and inside a number, with a call in
    which the string callback pauses. -/
theorem chunks_eq_oneChunk_cut :
    let chunks := callsOf [("\x7b\"na", false), ("me\":\"x\\", false), ("\"y\",", true),
      ("\"b\":[1", false), ("2,\x7b\x7d]\x7d", false)]
    (chunks.foldl (deliver (succeedOn ["\x7b\"name", "\x7b[b", "\x7b"])) {}).splitter.result =
      (oneChunk (succeedOn ["\x7b\"name", "\x7b[b", "\x7b"])
        (chunks.map Prod.fst).flatten).result := by
  intro chunks
  refine chunks_eq_oneChunk _ chunks (by decide) ?_ (by decide +kernel)
  refine ⟨.inl rfl, .inr ?_, .inr ?_, .inr ?_, .inr ?_, trivial⟩ <;> decide +kernel

/-- The document `{"a":["s",{"err":1}]}`, cut after the comma: the second call's buffer
    starts like an error response, and the closing bracket of the document is taken for the end of
    one. -/
theorem chunks_ne_oneChunk_late_err :
    let chunks := callsOf [("\x7b\"a\":[\"s\",", false), ("\x7b\"err\":1\x7d]\x7d", false)]
    (chunks.foldl (deliver (succeedOn ["\x7b[a\"", "\x7b", "#"])) {}).splitter.result ≠
      (oneChunk (succeedOn ["\x7b[a\"", "\x7b", "#"]) (chunks.map Prod.fst).flatten).result := by
  decide +kernel

end MegaSdk.Json
