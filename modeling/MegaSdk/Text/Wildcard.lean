/-
  File:      MegaSdk/Text/Wildcard.lean
  Subject:   `wildcardMatch` (utils.cpp) AND THE GLOB MATCHER of the sync filters (syncfilter.cpp).

  A C string is the list of the bytes from a pointer on: `*p` is its first byte, the terminator at
  its end, and `p + 1` its tail. The matcher saves two positions when it meets a star and comes back
  to the last star only.

  * `ScanInv` -- what the second loop keeps: the items since the last star have matched the bytes
    since then, and nothing but that star has to be tried again;
  * `wildcardMatch_spec` -- the loops end, and the result is the splitting of the text;
  * `GlobMatcher.match_create` -- the matcher built on it, with and without case;
  * `wildcard_exact` -- both together.
-/
import MegaSdk.Base.Bytes
import MegaSdk.Base.Glob
import MegaSdk.Base.Loop

namespace MegaSdk.Wildcard

open Base Base.Glob List

/-! ## 1. The code -/

def deref (p : List UInt8) : UInt8 := p.headD 0

def cstr (p : List UInt8) : List UInt8 := p.takeWhile (· != 0)

abbrev star : UInt8 := 42

abbrev question : UInt8 := 63

/-- The first loop, up to the first star; `none` for its `return false`. -/
def literalLoop : List UInt8 → List UInt8 → Option (List UInt8 × List UInt8)
  | [], pszMatch => some ([], pszMatch)
  | c :: pszString, pszMatch =>
    if c ≠ 0 ∧ deref pszMatch ≠ star then
      if deref pszMatch ≠ c ∧ deref pszMatch ≠ question then none
      else literalLoop pszString pszMatch.tail
    else some (c :: pszString, pszMatch)

/-- How the second loop stands: still running, left by `return true`, or at a null pointer. -/
inductive ScanState
  | running
  | found
  | null
  deriving DecidableEq

/-- The variables of the second loop. `saved` is `(cp, mp)`; the two are null together. -/
structure Scan where
  pszString : List UInt8
  pszMatch : List UInt8
  saved : Option (List UInt8 × List UInt8)
  state : ScanState

def scanning (s : Scan) : Bool := s.state == .running && deref s.pszString != 0

def scanRound (s : Scan) : Scan :=
  if deref s.pszMatch = star then
    if deref s.pszMatch.tail = 0 then { s with pszMatch := s.pszMatch.tail, state := .found }
    else { s with pszMatch := s.pszMatch.tail, saved := some (s.pszString.tail, s.pszMatch.tail) }
  else if deref s.pszMatch = deref s.pszString ∨ deref s.pszMatch = question then
    { s with pszMatch := s.pszMatch.tail, pszString := s.pszString.tail }
  else
    match s.saved with
    | none => { s with state := .null }
    | some (cp, mp) => { s with pszMatch := mp, pszString := cp, saved := some (cp.tail, mp) }

def scanFuel (pszString pszMatch : List UInt8) : Nat :=
  (pszString.length + pszMatch.length) * (pszString.length + 1) + pszString.length + 2

/-- `wildcardMatch(pszString, pszMatch)`; `none` if the second loop did not end or met a null
    pointer. -/
def wildcardMatch (pszString pszMatch : List UInt8) : Option Bool :=
  match literalLoop pszString pszMatch with
  | none => some false
  | some (s, m) =>
    match whileFuel scanning scanRound (scanFuel s m) ⟨s, m, none, .running⟩ with
    | none => none
    | some t =>
      match t.state with
      | .found => some true
      | .null => none
      | .running => some (deref (t.pszMatch.dropWhile (· == star)) == 0)

/-! ## 2. Patterns -/

def item (c : UInt8) : Item UInt8 :=
  if c = star then .star else if c = question then .one else .lit c

def items (p : List UInt8) : List (Item UInt8) := (cstr p).map item

variable {s m p : List UInt8} {c : UInt8}

theorem cstr_of_zero (h : deref p = 0) : cstr p = [] := by
  cases p with
  | nil => rfl
  | cons c p =>
    have hc : c = 0 := h
    rw [hc]
    rfl

theorem cstr_of_ne (h : deref p ≠ 0) : cstr p = deref p :: cstr p.tail := by
  cases p with
  | nil => exact absurd rfl h
  | cons c p =>
    have hc : c ≠ 0 := h
    rw [cstr, takeWhile_cons_of_pos (by simpa using hc)]
    rfl

theorem items_of_zero (h : deref p = 0) : items p = [] := by
  rw [items, cstr_of_zero h]
  rfl

theorem items_of_ne (h : deref p ≠ 0) : items p = item (deref p) :: items p.tail := by
  rw [items, cstr_of_ne h]
  rfl

theorem items_of_star (h : deref p = star) : items p = .star :: items p.tail := by
  rw [items_of_ne (by rw [h]; decide), h]
  rfl

theorem item_ne_star (h : c ≠ star) : item c ≠ .star := by
  rw [item, if_neg h]
  split <;> exact nofun

theorem item_takes (h : c ≠ star) {b : UInt8} : (item c).Takes Eq b ↔ c = b ∨ c = question := by
  rw [item, if_neg h]
  split_ifs with hq
  · simp [Item.Takes, hq]
  · simp [Item.Takes, hq, eq_comm]

theorem matches_deref (hs : deref s ≠ 0) (hm : deref m ≠ star) (t : List UInt8) :
    Matches Eq (items m) (deref s :: t) ↔
      (deref m = deref s ∨ deref m = question) ∧ Matches Eq (items m.tail) t := by
  by_cases h0 : deref m = 0
  · rw [items_of_zero h0, h0]
    constructor
    · exact nofun
    intro ⟨h, _⟩
    rcases h with h | h
    · exact absurd h.symm hs
    · exact absurd h (by decide)
  · rw [items_of_ne h0, matches_item_cons (item_ne_star hm), item_takes hm]

/-! ## 3. The first loop -/

theorem literalLoop_spec (s m) :
    match literalLoop s m with
    | none => ¬ Matches Eq (items m) (cstr s)
    | some r => (Matches Eq (items m) (cstr s) ↔ Matches Eq (items r.2) (cstr r.1)) ∧
        (deref r.1 ≠ 0 → deref r.2 = star) := by
  induction s generalizing m with
  | nil => exact ⟨.rfl, absurd rfl⟩
  | cons c s ih =>
    rw [literalLoop]
    split_ifs with hc hne
    · have hs : deref (c :: s) ≠ 0 := hc.1
      rw [cstr_of_ne hs, matches_deref hs hc.2]
      exact fun hm => hm.1.elim hne.1 hne.2
    · have hs : deref (c :: s) ≠ 0 := hc.1
      have htakes : deref m = deref (c :: s) ∨ deref m = question := by
        by_contra hno
        exact hne (not_or.1 hno)
      rw [cstr_of_ne hs, matches_deref hs hc.2, and_iff_right htakes]
      exact ih _
    · exact ⟨.rfl, fun hs => by_contra fun hm => hc ⟨hs, hm⟩⟩

/-! ## 4. The second loop -/

/-- What has happened since the last star: the bytes `u` were matched by the items `w`. -/
structure SinceStar (s m cp mp : List UInt8) (u : List UInt8) (w : List (Item UInt8)) : Prop where
  fixed : Fixed w
  fits : Matches Eq w u
  pattern : items mp = w ++ items m
  text : cp = (u ++ s).tail
  nonzero : ∀ c ∈ u, c ≠ 0

/-- **The invariant of the second loop** for the question `G`. -/
def ScanInv (G : Prop) (s : Scan) : Prop :=
  match s.state, s.saved with
  | .found, _ => G
  | .null, _ => False
  | .running, none =>
    (G ↔ Matches Eq (items s.pszMatch) (cstr s.pszString)) ∧
      (deref s.pszString ≠ 0 → deref s.pszMatch = star)
  | .running, some (cp, mp) => ∃ u w, SinceStar s.pszString s.pszMatch cp mp u w ∧
      (G ↔ Matches Eq (.star :: items mp) (u ++ cstr s.pszString))

theorem cstr_append {u : List UInt8} (hu : ∀ c ∈ u, c ≠ 0) (s) : cstr (u ++ s) = u ++ cstr s := by
  rw [cstr, takeWhile_append_of_pos fun c hc => by simpa using hu c hc]
  rfl

variable {G : Prop} {cp mp u : List UInt8} {w : List (Item UInt8)}

theorem SinceStar.start (s m) : SinceStar s m s.tail m [] [] :=
  ⟨nofun, .nil, rfl, rfl, nofun⟩

theorem SinceStar.advance (h : SinceStar s m cp mp u w) (hs : deref s ≠ 0) (hm : deref m ≠ star)
    (htakes : deref m = deref s ∨ deref m = question) :
    SinceStar s.tail m.tail cp mp (u ++ [deref s]) (w ++ [item (deref m)]) := by
  have hm0 : deref m ≠ 0 := by
    rcases htakes with he | he
    · rwa [he]
    · rw [he]
      decide
  refine ⟨fun i hi => ?_, ?_, ?_, ?_, fun c hc => ?_⟩
  · rcases mem_append.1 hi with hi | hi
    · exact h.fixed i hi
    · rw [mem_singleton.1 hi]
      exact item_ne_star hm
  · exact matches_append.2 ⟨u, [deref s], rfl, h.fits,
      (matches_item_cons (item_ne_star hm)).2 ⟨(item_takes hm).2 htakes, .nil⟩⟩
  · rw [h.pattern, items_of_ne hm0, append_assoc]
    rfl
  · rw [h.text, append_assoc]
    cases s with
    | nil => exact absurd rfl hs
    | cons c s => rfl
  rcases mem_append.1 hc with hc | hc
  · exact h.nonzero c hc
  · rwa [mem_singleton.1 hc]

/-- The next byte is not matched: the star takes one byte more. -/
theorem SinceStar.fall_back (h : SinceStar s m cp mp u w) (hs : deref s ≠ 0) (hm : deref m ≠ star)
    (hno : ¬ (deref m = deref s ∨ deref m = question)) :
    Matches Eq (.star :: items mp) (u ++ cstr s) ↔ Matches Eq (.star :: items mp) (cstr cp) := by
  have hfail : ¬ Matches Eq (items mp) (u ++ cstr s) := by
    rw [h.pattern, matches_fixed_append h.fixed (length_of_fixed h.fixed h.fits), cstr_of_ne hs,
      matches_deref hs hm]
    exact fun hm => hno hm.2.1
  rw [h.text]
  cases u with
  | nil =>
    rw [cstr_of_ne hs] at *
    exact backtrack hfail
  | cons b u =>
    have htail : cstr (u ++ s) = u ++ cstr s :=
      cstr_append (fun c hc => h.nonzero c (mem_cons_of_mem _ hc)) s
    rw [cons_append, cons_append, tail_cons, htail]
    exact backtrack hfail

/-- **The step lemma of the second loop.** -/
theorem scanInv_round {t : Scan} (h : ScanInv G t) (hc : scanning t = true) :
    ScanInv G (scanRound t) := by
  obtain ⟨s, m, saved, state⟩ := t
  obtain ⟨hstate, hs⟩ : state = .running ∧ deref s ≠ 0 := by simpa [scanning] using hc
  subst hstate
  -- at a star the question is left to that star and the rest of the pattern
  have hstar : deref m = star → (G ↔ Matches Eq (.star :: items m.tail) (cstr s)) := by
    intro hm
    cases saved with
    | none => exact items_of_star hm ▸ h.1
    | some r =>
      obtain ⟨u, w, hw, hG⟩ := h
      rw [hG, hw.pattern, items_of_star hm]
      exact commit hw.fixed hw.fits
  simp only [scanRound]
  split
  · rename_i hm
    split_ifs with h0
    · have hall := (hstar hm).2 (by
        rw [items_of_zero h0, ← append_nil (cstr s)]
        exact .star _ .nil)
      exact hall
    · exact ⟨[], [], .start s m.tail, hstar hm⟩
  rename_i hm
  cases saved with
  | none => exact absurd (h.2 hs) hm
  | some r =>
    obtain ⟨cp, mp⟩ := r
    obtain ⟨u, w, hw, hG⟩ := h
    split_ifs with htakes
    · refine ⟨_, _, hw.advance hs hm htakes, ?_⟩
      rw [hG]
      simp only [append_assoc, singleton_append]
      rw [← cstr_of_ne hs]
    · exact ⟨[], [], .start cp mp, hG.trans (hw.fall_back hs hm htakes)⟩

/-! ## 5. The second loop ends -/

/-- The two saved lengths bound where the loop can still go. -/
def ScanBound (n : Nat) (t : Scan) : Prop :=
  t.pszString.length ≤ n ∧
    ∀ cp mp, t.saved = some (cp, mp) →
      t.pszMatch.length ≤ mp.length ∧ t.pszString.length ≤ cp.length + 1 ∧ cp.length ≤ n

/-- What lies ahead of the last star, and behind it the bytes not yet compared. -/
def scanMeasure (n : Nat) (t : Scan) : Nat :=
  if t.state = .running then
    1 + t.pszString.length + (n + 1) *
      match t.saved with
      | none => t.pszString.length + t.pszMatch.length
      | some (cp, mp) => cp.length + mp.length
  else 0

theorem length_tail_lt (h : deref p ≠ 0) : p.tail.length < p.length := by
  cases p with
  | nil => exact absurd rfl h
  | cons c p => exact lt_add_one _

theorem lex_lt {n a b x y : Nat} (hab : a < b) (hx : x ≤ n) :
    1 + x + (n + 1) * a < 1 + y + (n + 1) * b := by
  have hmul : (n + 1) * (a + 1) ≤ (n + 1) * b := Nat.mul_le_mul_left _ hab
  rw [mul_add] at hmul
  omega

theorem scanRound_measure {n : Nat} {t : Scan} (h : ScanBound n t) (hc : scanning t = true) :
    ScanBound n (scanRound t) ∧ scanMeasure n (scanRound t) < scanMeasure n t := by
  obtain ⟨s, m, saved, state⟩ := t
  obtain ⟨hstate, hs⟩ : state = .running ∧ deref s ≠ 0 := by simpa [scanning] using hc
  subst hstate
  obtain ⟨hn, hsaved⟩ : s.length ≤ n ∧ ∀ cp mp, saved = some (cp, mp) →
    m.length ≤ mp.length ∧ s.length ≤ cp.length + 1 ∧ cp.length ≤ n := h
  have hst := length_tail_lt hs
  have hmt : m.tail.length ≤ m.length := by simp
  simp only [scanRound]
  split
  · rename_i hm
    have hmt : m.tail.length < m.length := length_tail_lt (by rw [hm]; decide)
    split
    · refine ⟨⟨hn, fun cp mp he => ?_⟩, by simp [scanMeasure]⟩
      have hb := hsaved cp mp he
      exact ⟨hmt.le.trans hb.1, hb.2⟩
    refine ⟨⟨hn, fun cp mp he => ?_⟩, ?_⟩
    · cases he
      exact ⟨le_rfl, show s.length ≤ s.tail.length + 1 by simp; omega, by omega⟩
    -- the pattern behind a later star is shorter
    refine lex_lt ?_ hn
    cases saved with
    | none => exact add_lt_add hst hmt
    | some r =>
      have hb := hsaved r.1 r.2 rfl
      simp only
      omega
  split
  · refine ⟨⟨hst.le.trans hn, fun cp mp he => ?_⟩, ?_⟩
    · have hb := hsaved cp mp he
      exact ⟨hmt.trans hb.1, hst.le.trans hb.2.1, hb.2.2⟩
    · simp only [scanMeasure]
      cases saved with
      | none => exact lex_lt (Nat.add_lt_add_of_lt_of_le hst hmt) (hst.le.trans hn)
      | some r => exact Nat.add_lt_add_right (Nat.add_lt_add_left hst 1) _
  · cases saved with
    | none => exact ⟨⟨hn, nofun⟩, by simp [scanMeasure]⟩
    | some r =>
      obtain ⟨cp, mp⟩ := r
      have hb := hsaved cp mp rfl
      refine ⟨⟨hb.2.2, fun cp' mp' he => ?_⟩, ?_⟩
      · cases he
        simp only [length_tail]
        omega
      simp only [scanMeasure, if_true]
      -- the star takes one byte more, unless none is left
      cases cp with
      | nil =>
        simp only [tail_nil, length_nil]
        omega
      | cons b cp => exact lex_lt (Nat.add_lt_add_right (lt_add_one _) _) hb.2.2

theorem scan_ends (s m) :
    ∃ t, whileFuel scanning scanRound (scanFuel s m) ⟨s, m, none, .running⟩ = some t := by
  refine whileFuel_ends (ScanBound s.length) (scanMeasure s.length)
    (fun t => scanRound_measure) ⟨le_rfl, nofun⟩ ?_
  simp only [scanMeasure, if_true, scanFuel]
  rw [mul_comm]
  omega

/-! ## 6. The result -/

/-- The third loop: only stars may be left of the pattern. -/
theorem matches_stars (m) : Matches Eq (items m) [] ↔ deref (m.dropWhile (· == star)) = 0 := by
  induction m with
  | nil => exact ⟨fun _ => rfl, fun _ => .nil⟩
  | cons c m ih =>
    by_cases hc : c = star
    · rw [items_of_star (show deref (c :: m) = star from hc), matches_star_nil, tail_cons, ih,
        dropWhile_cons_of_pos (by simpa using hc)]
    rw [dropWhile_cons_of_neg (by simpa using hc)]
    by_cases h0 : deref (c :: m) = 0
    · exact ⟨fun _ => h0, fun _ => items_of_zero h0 ▸ .nil⟩
    rw [items_of_ne h0, matches_nil_right]
    constructor
    · intro hall
      exact absurd (hall _ mem_cons_self) (item_ne_star hc)
    · exact fun h => absurd h h0

/-- The second loop has run to the end of the text. -/
theorem scanInv_end {s m} {saved : Option (List UInt8 × List UInt8)}
    (h : ScanInv G ⟨s, m, saved, .running⟩) (hs : deref s = 0) : G ↔ Matches Eq (items m) [] := by
  cases saved with
  | none =>
    have hG : G ↔ Matches Eq (items m) (cstr s) := h.1
    rwa [cstr_of_zero hs] at hG
  | some r =>
    obtain ⟨u, w, hw, hG⟩ := h
    simp only [cstr_of_zero hs, append_nil] at hG
    rw [hG, hw.pattern]
    exact finish hw.fixed hw.fits

/-- **Every text and pattern**: `wildcardMatch` ends without a null pointer, and returns true exactly
    when the text can be split along the pattern. -/
theorem wildcardMatch_spec (pszString pszMatch : List UInt8) :
    ∃ b, wildcardMatch pszString pszMatch = some b ∧
      (b = true ↔ Matches Eq (items pszMatch) (cstr pszString)) := by
  have hl := literalLoop_spec pszString pszMatch
  rw [wildcardMatch]
  generalize literalLoop pszString pszMatch = r at hl
  match r with
  | none => exact ⟨false, rfl, by simpa using hl⟩
  | some (s, m) =>
    obtain ⟨hiff, hstar⟩ := hl
    obtain ⟨t, ht⟩ := scan_ends s m
    have hend := whileFuel_inv (ScanInv (Matches Eq (items pszMatch) (cstr pszString)))
      (fun _ => scanInv_round) (show ScanInv _ ⟨s, m, none, .running⟩ from ⟨hiff, hstar⟩) ht
    simp only [ht]
    obtain ⟨s', m', saved, state⟩ := t
    obtain ⟨hinv, hdone⟩ := hend
    cases state with
    | found => exact ⟨true, rfl, by simpa using (show Matches Eq _ _ from hinv)⟩
    | null => exact absurd hinv id
    | running =>
      have hs : deref s' = 0 := by simpa [scanning] using hdone
      exact ⟨_, rfl, by rw [scanInv_end hinv hs, matches_stars]; simp⟩

/-! ## 7. The glob matcher -/

/-- `std::toupper` of the "C" locale on a byte. -/
def toupper (c : UInt8) : UInt8 := if 97 ≤ c ∧ c ≤ 122 then c - 32 else c

def toUpper (text : List UInt8) : List UInt8 := text.map toupper

structure GlobMatcher where
  mPattern : List UInt8
  mCaseSensitive : Bool

def GlobMatcher.create (pattern : List UInt8) (caseSensitive : Bool) : GlobMatcher :=
  ⟨if caseSensitive then pattern else toUpper pattern, caseSensitive⟩

def GlobMatcher.match (g : GlobMatcher) (s : List UInt8) : Option Bool :=
  if g.mCaseSensitive then wildcardMatch s g.mPattern else wildcardMatch (toUpper s) g.mPattern

/-- `toupper` keeps the characters that mean something, and makes no new ones. -/
theorem toupper_facts (c) : (toupper c = 0 ↔ c = 0) ∧
    item (toupper c) = (item c).map toupper :=
  forall_byte (P := fun c => (toupper c = 0 ↔ c = 0) ∧ item (toupper c) = (item c).map toupper)
    (by decide +kernel) c

theorem cstr_toUpper (p) : cstr (toUpper p) = (cstr p).map toupper := by
  induction p with
  | nil => rfl
  | cons c p ih =>
    by_cases hc : c = 0
    · subst hc
      rfl
    have hup : toupper c ≠ 0 := fun h => hc ((toupper_facts c).1.1 h)
    have h1 := cstr_of_ne (show deref (toUpper (c :: p)) ≠ 0 from hup)
    have h2 := cstr_of_ne (show deref (c :: p) ≠ 0 from hc)
    rw [h1, h2]
    exact congrArg _ ih

theorem items_toUpper (p) : items (toUpper p) = (items p).map (Item.map toupper) := by
  rw [items, cstr_toUpper, items, map_map, map_map]
  exact map_congr_left fun c _ => (toupper_facts c).2

/-- How a matcher compares a text byte with a pattern byte. -/
def GlobMatcher.same (caseSensitive : Bool) (b a : UInt8) : Prop :=
  if caseSensitive then b = a else toupper b = toupper a

/-- **A glob matcher accepts the texts that split along its pattern**, up to case if it was asked
    to. -/
theorem GlobMatcher.match_create (pattern s : List UInt8) (caseSensitive : Bool) :
    ∃ b, (GlobMatcher.create pattern caseSensitive).match s = some b ∧
      (b = true ↔ Matches (GlobMatcher.same caseSensitive) (items pattern) (cstr s)) := by
  cases caseSensitive with
  | true => exact wildcardMatch_spec s pattern
  | false =>
    obtain ⟨b, hb, hiff⟩ := wildcardMatch_spec (toUpper s) (toUpper pattern)
    rw [items_toUpper, cstr_toUpper, matches_map] at hiff
    exact ⟨b, hb, hiff⟩

/-- **`wildcardMatch` is exact**, and so is the matcher of the sync filters that is built on it. -/
theorem wildcard_exact (pszString pszMatch : List UInt8) :
    (∃ b, wildcardMatch pszString pszMatch = some b ∧
        (b = true ↔ Matches Eq (items pszMatch) (cstr pszString))) ∧
      ∀ caseSensitive, ∃ b, (GlobMatcher.create pszMatch caseSensitive).match pszString = some b ∧
        (b = true ↔ Matches (GlobMatcher.same caseSensitive) (items pszMatch) (cstr pszString)) :=
  ⟨wildcardMatch_spec pszString pszMatch, GlobMatcher.match_create pszMatch pszString⟩

end MegaSdk.Wildcard
