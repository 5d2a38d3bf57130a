/-
  File:      MegaSdk/FileService/Ranges.lean
  Subject:   FILE RANGES AND TREES OF THEM (file_range.cpp, file_range_tree.h,
             file_range_tree_utilities.h).

  A `FileRangeTree` holds its nodes in two indexes, by the beginning and by the end of their
  ranges. The ranges do not overlap, so both indexes have the nodes in one order: a tree is the
  list of its values in that order, and an iterator is the rest of the list from its node on
  (`[]` is `end()`).

  * `Apart g t` -- the ranges are not empty, in order, and at least `g` bytes apart;
  * `cover t` -- the byte positions the ranges hold, what the tree is for;
  * `split_at`, `find_split`, `remove_split`, `tryAdd_fit` -- the operations on `a ++ m ++ z`,
    where `m` are the ranges an interval touches.
-/
import Mathlib

namespace MegaSdk.FileService

open List

/-! ## 1. Ranges -/

/-- `FileRange`: the bytes from `mBegin` up to `mEnd`. -/
structure FileRange where
  mBegin : Nat := 0
  mEnd : Nat := 0
  deriving DecidableEq, Repr

/-- What a `std::uint64_t` keeps of a sum or a product. -/
def u64 (n : Nat) : Nat := n % 2 ^ 64

namespace FileRange

/-- The constructor puts its arguments in order. -/
def ofEnds (b e : Nat) : FileRange := ⟨min b e, max b e⟩

theorem ofEnds_of_le {b e : Nat} (h : b ≤ e) : ofEnds b e = ⟨b, e⟩ := by
  rw [ofEnds, min_eq_left h, max_eq_right h]

variable (r : FileRange)

def contains (p : Nat) : Prop := r.mBegin ≤ p ∧ p < r.mEnd

instance (p : Nat) : Decidable (r.contains p) :=
  inferInstanceAs (Decidable (_ ∧ _))

def empty : Prop := r.mBegin = r.mEnd

instance : Decidable r.empty := inferInstanceAs (Decidable (_ = _))

def length : Nat := r.mEnd - r.mBegin

def clamp (b e : Nat) : FileRange :=
  ofEnds (max (min r.mBegin e) b) (max (min r.mEnd e) b)

def extend (adjustment : Nat) : FileRange :=
  ofEnds (r.mBegin - min adjustment r.mBegin) (u64 (r.mEnd + adjustment))

theorem extend_one {r : FileRange} (hr : r.mBegin ≤ r.mEnd) (h : r.mEnd + 1 < 2 ^ 64) :
    r.extend 1 = ⟨r.mBegin - 1, r.mEnd + 1⟩ := by
  unfold extend ofEnds u64
  simp only [mk.injEq]
  omega

end FileRange

/-! ## 2. Trees -/

/-- `KeyFunctionType`: where a tree's value has its range. -/
class KeyFunction (V : Type) where
  key : V → FileRange

export KeyFunction (key)

instance : KeyFunction FileRange := ⟨id⟩

namespace FileRangeTree

variable {V : Type} [KeyFunction V] {a t z : List V} {g p : Nat} {v : V} {f : V → Bool}

def endsAfter (t : List V) (p : Nat) : List V := t.dropWhile fun v => decide ((key v).mEnd ≤ p)

def endsAtOrAfter (t : List V) (p : Nat) : List V := t.dropWhile fun v => decide ((key v).mEnd < p)

def beginsAfter (t : List V) (p : Nat) : List V :=
  t.dropWhile fun v => decide ((key v).mBegin ≤ p)

def beginsAtOrAfter (t : List V) (p : Nat) : List V :=
  t.dropWhile fun v => decide ((key v).mBegin < p)

def contains (t : List V) (p : Nat) : List V :=
  match endsAfter t p with
  | [] => []
  | v :: rest => if (key v).mBegin > p then [] else v :: rest

def find (t : List V) (r : FileRange) : List V × List V :=
  match endsAfter t r.mBegin with
  | [] => ([], [])
  | v :: rest => if (key v).mBegin ≥ r.mEnd then ([], []) else (v :: rest, beginsAtOrAfter t r.mEnd)

def remove (t : List V) (b e : List V) : List V := t.take (t.length - b.length) ++ e

/-- A new node goes into both indexes: its range is not empty and neither index has its key, or
    an assertion fails. -/
def link (mk : FileRange → V) (t : List V) (r : FileRange) : Option (List V × V × Bool) :=
  if r.mBegin < r.mEnd ∧ ∀ v ∈ t, (key v).mBegin ≠ r.mBegin ∧ (key v).mEnd ≠ r.mEnd then
    some (t.takeWhile (fun v => decide ((key v).mBegin < r.mBegin)) ++
      mk r :: beginsAtOrAfter t r.mBegin, mk r, true)
  else none

/-- `tryAdd(range, arguments...)`, and `add` of a range: the new tree, the node that has the
    beginning of `range`, and whether it was added. The end of a new range is cut off where the
    next range begins. -/
def tryAdd (mk : FileRange → V) (t : List V) (r : FileRange) : Option (List V × V × Bool) :=
  match endsAfter t r.mBegin with
  | [] => link mk t r
  | other :: _ =>
    if (key other).mBegin ≤ r.mBegin then some (t, other, false)
    else link mk t { r with mEnd := min r.mEnd (key other).mBegin }

/-- The ranges of a tree: none empty, in order, and `g` bytes or more between two. -/
structure Apart (g : Nat) (t : List V) : Prop where
  nonempty : ∀ v ∈ t, (key v).mBegin < (key v).mEnd
  apart : t.Pairwise fun v w => (key v).mEnd + g ≤ (key w).mBegin

/-- The byte positions that a tree's ranges hold. -/
def cover (t : List V) : Set Nat := {p | ∃ v ∈ t, (key v).contains p}

theorem mem_cover : p ∈ cover t ↔ ∃ v ∈ t, (key v).contains p := .rfl

@[simp]
theorem mem_cover_append {u : List V} : p ∈ cover (t ++ u) ↔ p ∈ cover t ∨ p ∈ cover u := by
  simp [mem_cover, or_and_right, exists_or]

@[simp]
theorem mem_cover_cons : p ∈ cover (v :: t) ↔ (key v).contains p ∨ p ∈ cover t := by
  simp [mem_cover]

@[simp]
theorem not_mem_cover_nil : ¬ p ∈ cover ([] : List V) := by
  simp [mem_cover]

namespace Apart

theorem nil (g) : Apart g ([] : List V) := ⟨by simp, .nil⟩

theorem sublist {u : List V} (h : Apart g t) (hu : u.Sublist t) : Apart g u :=
  ⟨fun v hv => h.nonempty v (hu.subset hv), h.apart.sublist hu⟩

theorem insert (h : Apart g (a ++ z)) (hv : (key v).mBegin < (key v).mEnd)
    (ha : ∀ w ∈ a, (key w).mEnd + g ≤ (key v).mBegin)
    (hz : ∀ w ∈ z, (key v).mEnd + g ≤ (key w).mBegin) : Apart g (a ++ v :: z) := by
  obtain ⟨hpa, hpz, haz⟩ := pairwise_append.1 h.apart
  refine ⟨fun w hw => ?_, pairwise_append.2 ⟨hpa, pairwise_cons.2 ⟨hz, hpz⟩, ?_⟩⟩
  · rcases mem_append.1 hw with hw | hw
    · exact h.nonempty w (mem_append_left _ hw)
    rcases mem_cons.1 hw with rfl | hw
    · exact hv
    · exact h.nonempty w (mem_append_right _ hw)
  intro x hx w hw
  rcases mem_cons.1 hw with rfl | hw
  · exact ha x hx
  · exact haz x hx w hw

theorem increasing (h : Apart g t) :
    t.Pairwise fun v w => (key v).mBegin < (key w).mBegin ∧ (key v).mEnd < (key w).mEnd :=
  h.apart.imp_of_mem fun {v w} hv hw hvw => by
    have h1 := h.nonempty v hv
    have h2 := h.nonempty w hw
    omega

theorem head_le (h : Apart g (v :: t)) : ∀ w ∈ v :: t, (key v).mBegin ≤ (key w).mBegin := by
  intro w hw
  rcases mem_cons.1 hw with rfl | hw
  · exact le_rfl
  · exact le_of_lt ((pairwise_cons.1 h.increasing).1 w hw).1

theorem around (h : Apart g (a ++ v :: z)) :
    (∀ w ∈ a, (key w).mEnd + g ≤ (key v).mBegin) ∧ ∀ w ∈ z, (key v).mEnd + g ≤ (key w).mBegin := by
  obtain ⟨_, hpz, haz⟩ := pairwise_append.1 h.apart
  exact ⟨fun w hw => haz w hw v mem_cons_self, (pairwise_cons.1 hpz).1⟩

end Apart

/-! ## 3. The operations, where an interval touches `m` -/

/-- `t` is cut at an interval from `p` to `q`: `a` ends before it, `m` overlaps it and `z` begins
    behind it. -/
structure Split (t : List V) (p q : Nat) (a m z : List V) : Prop where
  eq : t = a ++ (m ++ z)
  before : ∀ v ∈ a, (key v).mEnd ≤ p
  overlap : ∀ v ∈ m, p < (key v).mEnd ∧ (key v).mBegin < q
  behind : ∀ v ∈ z, q ≤ (key v).mBegin

omit [KeyFunction V] in
theorem dropWhile_append_eq (ha : ∀ v ∈ a, f v = true) (hz : ∀ v ∈ z, f v = false) :
    (a ++ z).dropWhile f = z := by
  rw [dropWhile_append_of_pos ha]
  cases z with
  | nil => rfl
  | cons v z => rw [dropWhile_cons_of_neg (by simp [hz v mem_cons_self])]

omit [KeyFunction V] in
theorem takeWhile_append_eq (ha : ∀ v ∈ a, f v = true) (hz : ∀ v ∈ z, f v = false) :
    (a ++ z).takeWhile f = a := by
  rw [takeWhile_append_of_pos ha]
  cases z with
  | nil => simp
  | cons v z => rw [takeWhile_cons_of_neg (by simp [hz v mem_cons_self])]; simp

omit [KeyFunction V] in
/-- Where `f` holds of everything before what it holds of, `dropWhile` drops all it holds of. -/
theorem not_of_mem_dropWhile :
    ∀ {t : List V}, t.Pairwise (fun v w => f w = true → f v = true) →
      ∀ w ∈ t.dropWhile f, f w = false
  | [], _, w, hw => by cases hw
  | v :: t, ht, w, hw => by
      obtain ⟨hv, ht'⟩ := pairwise_cons.1 ht
      rw [dropWhile_cons] at hw
      split_ifs at hw with hfv
      · exact not_of_mem_dropWhile ht' w hw
      rcases mem_cons.1 hw with rfl | hw
      · simpa using hfv
      cases hfw : f w with
      | false => rfl
      | true => exact absurd (hv w hw hfw) hfv

theorem mem_endsAfter (ht : Apart g t) (hv : v ∈ endsAfter t p) : p < (key v).mEnd := by
  simpa using not_of_mem_dropWhile (ht.increasing.imp fun h => by
    simp only [decide_eq_true_eq]
    omega) v hv

theorem mem_beginsAfter (ht : Apart g t) (hv : v ∈ beginsAfter t p) : p < (key v).mBegin := by
  simpa using not_of_mem_dropWhile (ht.increasing.imp fun h => by
    simp only [decide_eq_true_eq]
    omega) v hv

theorem mem_beginsAtOrAfter (ht : Apart g t) (hv : v ∈ beginsAtOrAfter t p) :
    p ≤ (key v).mBegin := by
  simpa using not_of_mem_dropWhile (ht.increasing.imp fun h => by
    simp only [decide_eq_true_eq]
    omega) v hv

theorem exists_append_endsAfter (t : List V) (p) :
    ∃ a, t = a ++ endsAfter t p ∧ ∀ v ∈ a, (key v).mEnd ≤ p :=
  ⟨t.takeWhile fun v => decide ((key v).mEnd ≤ p), takeWhile_append_dropWhile.symm,
    fun v hv => by simpa using mem_takeWhile_imp hv⟩

/-- **Every interval cuts an ordered tree in three.** -/
theorem split_at (ht : Apart g t) (p q : Nat) : ∃ a m z, Split t p q a m z := by
  have hsub : (endsAfter t p).Sublist t := dropWhile_sublist _
  refine ⟨t.takeWhile fun v => decide ((key v).mEnd ≤ p),
    (endsAfter t p).takeWhile fun v => decide ((key v).mBegin < q),
    beginsAtOrAfter (endsAfter t p) q, ?_, ?_, ?_, ?_⟩
  · rw [beginsAtOrAfter, takeWhile_append_dropWhile]
    exact (takeWhile_append_dropWhile).symm
  · intro v hv
    simpa using mem_takeWhile_imp hv
  · intro v hv
    have hq := mem_takeWhile_imp hv
    exact ⟨mem_endsAfter ht ((takeWhile_sublist _).subset hv), by simpa using hq⟩
  · intro v hv
    exact mem_beginsAtOrAfter (ht.sublist hsub) hv

section Split

variable {g p q : Nat} {t a m z : List V} (ht : Apart g t) (h : Split t p q a m z)

include ht h

section

variable (hpq : p ≤ q)
include hpq

theorem Split.ends_behind : ∀ v ∈ z, p < (key v).mEnd := fun v hv => by
  have h1 := h.behind v hv
  have h2 := ht.nonempty v (by rw [h.eq]; simp [hv])
  omega

theorem Split.begins_before : ∀ v ∈ a, (key v).mBegin < q := fun v hv => by
  have h1 := h.before v hv
  have h2 := ht.nonempty v (by rw [h.eq]; simp [hv])
  omega

theorem Split.endsAfter_eq : endsAfter t p = m ++ z := by
  rw [h.eq]
  refine dropWhile_append_eq (fun v hv => by simpa using h.before v hv) fun v hv => ?_
  rcases mem_append.1 hv with hv | hv
  · simpa using (h.overlap v hv).1
  · simpa using h.ends_behind ht hpq v hv

theorem Split.beginsAtOrAfter_eq : beginsAtOrAfter t q = z := by
  rw [h.eq, ← append_assoc]
  refine dropWhile_append_eq (fun v hv => ?_) fun v hv => by simpa using h.behind v hv
  rcases mem_append.1 hv with hv | hv
  · simpa using h.begins_before ht hpq v hv
  · simpa using (h.overlap v hv).2

/-- `find` gives the ranges that overlap, or two times `end()`. -/
theorem find_split : find t ⟨p, q⟩ = if m = [] then ([], []) else (m ++ z, z) := by
  unfold find
  rw [h.endsAfter_eq ht hpq, h.beginsAtOrAfter_eq ht hpq]
  cases m with
  | cons v m =>
    have := (h.overlap v mem_cons_self).2
    simp only [cons_append]
    rw [if_neg (by omega)]
    simp
  | nil =>
    cases z with
    | nil => rfl
    | cons v z =>
      have := h.behind v mem_cons_self
      simp only [nil_append]
      rw [if_pos this, if_pos trivial]

theorem remove_split : remove t (find t ⟨p, q⟩).1 (find t ⟨p, q⟩).2 = a ++ z := by
  rw [find_split ht h hpq, h.eq]
  split
  · rename_i hm
    simp only [remove, hm, nil_append, length_nil, Nat.sub_zero, take_length,
      append_nil]
  · simp [remove]

end

end Split

/-- `contains` gives the range that holds a position, or `end()` when none does. -/
theorem contains_cases (ht : Apart g t) (p) :
    (contains t p = [] ∧ p ∉ cover t) ∨
    ∃ v rest, contains t p = v :: rest ∧ v ∈ t ∧ (key v).contains p := by
  obtain ⟨a, m, z, hs⟩ := split_at ht p (p + 1)
  unfold contains
  rw [hs.endsAfter_eq ht (Nat.le_succ p)]
  cases m with
  | cons v m =>
    have hv := hs.overlap v mem_cons_self
    refine .inr ⟨v, m ++ z, ?_, by rw [hs.eq]; simp, by omega, hv.1⟩
    simp only [cons_append]
    rw [if_neg (by omega)]
  | nil =>
    refine .inl ⟨?_, ?_⟩
    · cases z with
      | nil => rfl
      | cons v z =>
        have := hs.behind v mem_cons_self
        simp only [nil_append]
        rw [if_pos (by omega)]
    rintro ⟨v, hv, hb, he⟩
    rw [hs.eq, mem_append] at hv
    rcases hv with hv | hv
    · have := hs.before v hv
      omega
    · have := hs.behind v hv
      omega

theorem contains_eq_nil_iff (ht : Apart g t) : contains t p = [] ↔ p ∉ cover t := by
  rcases contains_cases ht p with ⟨hnil, hnot⟩ | ⟨v, rest, hcons, hv, hp⟩
  · exact ⟨fun _ => hnot, fun _ => hnil⟩
  · rw [hcons]
    exact ⟨fun h => absurd h (by simp), fun h => absurd ⟨v, hv, hp⟩ h⟩

/-- **A range that fits between two parts of a tree is added there**, whole. -/
theorem tryAdd_fit {mk : FileRange → V} {r : FileRange} (ht : Apart g (a ++ z))
    (hr : r.mBegin < r.mEnd) (ha : ∀ v ∈ a, (key v).mEnd ≤ r.mBegin)
    (hz : ∀ v ∈ z, r.mEnd ≤ (key v).mBegin) :
    tryAdd mk (a ++ z) r = some (a ++ mk r :: z, mk r, true) := by
  have hna : ∀ v ∈ a, (key v).mBegin < (key v).mEnd := fun v hv =>
    ht.nonempty v (mem_append_left _ hv)
  have hnz : ∀ v ∈ z, (key v).mBegin < (key v).mEnd := fun v hv =>
    ht.nonempty v (mem_append_right _ hv)
  have hends : endsAfter (a ++ z) r.mBegin = z :=
    dropWhile_append_eq (fun v hv => by simpa using ha v hv) fun v hv => by
      have h1 := hz v hv
      have h2 := hnz v hv
      simp only [decide_eq_false_iff_not]
      omega
  have hbegins : ∀ v ∈ z, decide ((key v).mBegin < r.mBegin) = false := fun v hv => by
    have := hz v hv
    simp only [decide_eq_false_iff_not]
    omega
  have hbefore : ∀ v ∈ a, decide ((key v).mBegin < r.mBegin) = true := fun v hv => by
    have h1 := ha v hv
    have h2 := hna v hv
    simp only [decide_eq_true_eq]
    omega
  have hfresh : ∀ v ∈ a ++ z, (key v).mBegin ≠ r.mBegin ∧ (key v).mEnd ≠ r.mEnd := fun v hv => by
    rcases mem_append.1 hv with hv | hv
    · have h1 := ha v hv
      have h2 := hna v hv
      omega
    have h1 := hz v hv
    have h2 := hnz v hv
    omega
  have hlink : link mk (a ++ z) r = some (a ++ mk r :: z, mk r, true) := by
    unfold link beginsAtOrAfter
    rw [if_pos ⟨hr, hfresh⟩, takeWhile_append_eq hbefore hbegins, dropWhile_append_eq hbefore hbegins]
  unfold tryAdd
  rw [hends]
  cases z with
  | nil => exact hlink
  | cons v z =>
    have := hz v mem_cons_self
    simp only
    rwa [if_neg (by omega), min_eq_left this]

/-! ## 4. Gaps -/

/-- `FileRangeGapIterator`. -/
structure GapIterator (V : Type) where
  mIterator : List V
  mGap : FileRange := {}
  mRange : FileRange

/-- Where a gap before the ranges `rest` ends, `e` at the latest. -/
def upTo (rest : List V) (e : Nat) : Nat :=
  match rest with
  | [] => e
  | w :: _ => min e (key w).mBegin

namespace GapIterator

def detect (i : GapIterator V) : GapIterator V :=
  match i.mIterator with
  | [] => { i with mGap := i.mRange, mRange := {} }
  | v :: rest =>
    if (key v).mBegin > i.mRange.mBegin then
      let mEnd := min i.mRange.mEnd (key v).mBegin
      { i with
        mGap := ⟨i.mRange.mBegin, mEnd⟩
        mRange := { i.mRange with mBegin := mEnd } }
    else if (key v).mEnd ≥ i.mRange.mEnd then
      { i with mGap := {}, mRange := {} }
    else
      -- the gap up to the next range, or to the end of `mRange`
      let mEnd := upTo rest i.mRange.mEnd
      { mIterator := rest
        mGap := ⟨(key v).mEnd, mEnd⟩
        mRange := { i.mRange with mBegin := mEnd } }

def toList : Nat → GapIterator V → List FileRange
  | 0, _ => []
  | n + 1, i => if i.mGap.mBegin = i.mGap.mEnd then [] else i.mGap :: toList n i.detect

end GapIterator

open GapIterator

def gaps (t : List V) (r : FileRange) : List FileRange :=
  if r.mBegin ≥ r.mEnd then [] else toList (t.length + 2) (detect ⟨endsAfter t r.mBegin, {}, r⟩)

section Gaps

variable {g : Nat} {v : V} {rest it : List V} {gap r : FileRange}

theorem detect_nil : detect (V := V) ⟨[], gap, r⟩ = ⟨[], r, {}⟩ := rfl

theorem detect_gap (hb : r.mBegin < (key v).mBegin) :
    detect ⟨v :: rest, gap, r⟩ = ⟨v :: rest, ⟨r.mBegin, min r.mEnd (key v).mBegin⟩,
      ⟨min r.mEnd (key v).mBegin, r.mEnd⟩⟩ := by
  simp [detect, if_pos hb]

theorem detect_end (hb : (key v).mBegin ≤ r.mBegin) (he : r.mEnd ≤ (key v).mEnd) :
    detect ⟨v :: rest, gap, r⟩ = ⟨v :: rest, {}, {}⟩ := by
  simp [detect, if_neg hb.not_gt, if_pos he]

theorem detect_next (hb : (key v).mBegin ≤ r.mBegin) (he : (key v).mEnd < r.mEnd) :
    detect ⟨v :: rest, gap, r⟩ =
      ⟨rest, ⟨(key v).mEnd, upTo rest r.mEnd⟩, ⟨upTo rest r.mEnd, r.mEnd⟩⟩ := by
  simp [detect, if_neg hb.not_gt, if_neg he.not_ge]

theorem upTo_le (rest : List V) (e : Nat) : upTo rest e ≤ e := by
  unfold upTo
  split <;> omega

/-- The ranges an iterator has before it, while it is at `r`. -/
structure Ahead (g : Nat) (it : List V) (r : FileRange) : Prop where
  apart : Apart g it
  ends : ∀ v ∈ it, r.mBegin < (key v).mEnd
  le : r.mBegin ≤ r.mEnd

section

variable (h : Ahead g (v :: rest) r)
include h

theorem Ahead.upTo (he : (key v).mEnd < r.mEnd) :
    (key v).mEnd ≤ upTo rest r.mEnd ∧ ∀ w ∈ rest, upTo rest r.mEnd < (key w).mEnd := by
  unfold FileRangeTree.upTo
  cases rest with
  | nil => exact ⟨by simp only; omega, by simp⟩
  | cons w rest =>
    have hvw := (pairwise_cons.1 h.apart.apart).1 w mem_cons_self
    have hap := h.apart.sublist (sublist_cons_self v (w :: rest))
    refine ⟨by simp only; omega, fun y hy => ?_⟩
    have h1 := hap.nonempty y hy
    have h2 := hap.head_le y hy
    simp only
    omega

theorem Ahead.next (he : (key v).mEnd < r.mEnd) :
    Ahead g rest ⟨FileRangeTree.upTo rest r.mEnd, r.mEnd⟩ :=
  ⟨h.apart.sublist (sublist_cons_self _ _), (h.upTo he).2, upTo_le _ _⟩

theorem Ahead.before : Ahead g (v :: rest) ⟨min r.mEnd (key v).mBegin, r.mEnd⟩ := by
  refine ⟨h.apart, fun w hw => ?_, min_le_left _ _⟩
  have h1 := h.apart.nonempty w hw
  have h2 := h.apart.head_le w hw
  simp only
  omega

end

theorem toList_within : ∀ (n : Nat) {it : List V} {gap r : FileRange}, Ahead g it r →
    ∀ x ∈ toList n (detect ⟨it, gap, r⟩),
      r.mBegin ≤ x.mBegin ∧ x.mBegin < x.mEnd ∧ x.mEnd ≤ r.mEnd
  | 0, _, _, _, _, x, hx => by cases hx
  | n + 1, it, gap, r, h, x, hx => by
      have hle := h.le
      rw [toList] at hx
      split_ifs at hx with hne
      · cases hx
      cases it with
      | nil =>
        have hne' : r.mBegin ≠ r.mEnd := hne
        rcases mem_cons.1 hx with rfl | hx
        · exact ⟨le_rfl, lt_of_le_of_ne hle hne', le_rfl⟩
        · -- the iterator is at its end
          cases n with
          | zero => cases hx
          | succ n => simp [toList, detect] at hx
      | cons v rest =>
        have hv := h.ends v mem_cons_self
        by_cases hb : r.mBegin < (key v).mBegin
        · rw [detect_gap hb] at hx hne
          rcases mem_cons.1 hx with rfl | hx
          · simp only at hne ⊢
            omega
          have := toList_within n h.before x hx
          simp only at this
          omega
        rw [not_lt] at hb
        by_cases he : r.mEnd ≤ (key v).mEnd
        · rw [detect_end hb he] at hne
          exact absurd rfl hne
        rw [not_le] at he
        rw [detect_next hb he] at hx hne
        have hup := (h.upTo he).1
        have hto := upTo_le rest r.mEnd
        rcases mem_cons.1 hx with rfl | hx
        · simp only at hne ⊢
          omega
        have := toList_within n (h.next he) x hx
        simp only at this
        omega

/-- Where the ranges do not touch, a position that is in none of them is in a gap. -/
theorem toList_complete : ∀ {it : List V} (n : Nat) {gap r : FileRange}, Ahead 1 it r →
    it.length < n → (∀ v ∈ it.head?, (key v).mBegin ≤ r.mBegin) →
    ∀ p, r.contains p → p ∈ cover it ∨ ∃ x ∈ toList n (detect ⟨it, gap, r⟩), x.contains p
  | _, 0, _, _, _, hn, _, _, _ => absurd hn (Nat.not_lt_zero _)
  | [], n + 1, gap, r, _, _, _, p, hp => by
      have hne : ¬ r.mBegin = r.mEnd := by
        have := hp.1
        have := hp.2
        omega
      refine .inr ⟨r, ?_, hp⟩
      rw [detect_nil, toList, if_neg hne]
      exact mem_cons_self
  | v :: rest, n + 1, gap, r, h, hn, hhead, p, hp => by
      have hb : (key v).mBegin ≤ r.mBegin := hhead v rfl
      have hp1 := hp.1
      have hp2 := hp.2
      by_cases hpv : p < (key v).mEnd
      · exact .inl (mem_cover_cons.2 (.inl ⟨by omega, hpv⟩))
      have he : (key v).mEnd < r.mEnd := by omega
      -- the gap behind `v` is not empty: the next range does not touch `v`
      have hgap : (key v).mEnd < upTo rest r.mEnd := by
        cases rest with
        | nil => exact he
        | cons w rest =>
          have := (pairwise_cons.1 h.apart.apart).1 w mem_cons_self
          simp only [upTo]
          omega
      rw [detect_next hb he, toList, if_neg (by simp only; omega)]
      by_cases hpg : p < upTo rest r.mEnd
      · exact .inr ⟨_, mem_cons_self, by simp only; omega, hpg⟩
      have hhead' : ∀ w ∈ rest.head?, (key w).mBegin ≤ upTo rest r.mEnd := by
        intro w hw
        cases rest with
        | nil => cases hw
        | cons y rest =>
          cases hw
          simp only [upTo] at hpg ⊢
          omega
      rcases toList_complete n (h.next he) (by simpa using hn) hhead' p
        ⟨by simp only; omega, hp2⟩ with hc | ⟨x, hx, hxp⟩
      · exact .inl (mem_cover_cons.2 (.inr hc))
      · exact .inr ⟨x, mem_cons_of_mem _ hx, hxp⟩

theorem ahead_endsAfter (ht : Apart g t) (hr : r.mBegin < r.mEnd) :
    Ahead g (endsAfter t r.mBegin) r :=
  ⟨ht.sublist (dropWhile_sublist _), fun _ => mem_endsAfter ht, hr.le⟩

/-- **The gaps of a range lie in it**, and none is empty. -/
theorem gaps_within (ht : Apart g t) :
    ∀ x ∈ gaps t r, r.mBegin ≤ x.mBegin ∧ x.mBegin < x.mEnd ∧ x.mEnd ≤ r.mEnd := by
  intro x hx
  unfold gaps at hx
  split at hx
  · cases hx
  · rename_i hr
    exact toList_within _ (ahead_endsAfter ht (not_le.1 hr)) x hx

theorem gaps_complete (ht : Apart 1 t) (hp : r.contains p) :
    p ∈ cover t ∨ ∃ x ∈ gaps t r, x.contains p := by
  have hp1 := hp.1
  have hp2 := hp.2
  have hsub : (endsAfter t r.mBegin).Sublist t := dropWhile_sublist _
  have hah := ahead_endsAfter ht (r := r) (by omega)
  have hlen := hsub.length_le
  have hcov : p ∈ cover (endsAfter t r.mBegin) → p ∈ cover t := fun ⟨v, hv, hc⟩ =>
    ⟨v, hsub.subset hv, hc⟩
  unfold gaps
  rw [if_neg (by omega)]
  generalize endsAfter t r.mBegin = it at hah hlen hcov ⊢
  by_cases hhead : ∀ v ∈ it.head?, (key v).mBegin ≤ r.mBegin
  · exact (toList_complete _ hah (by omega) hhead p hp).imp_left hcov
  -- a gap before the first range, and then the rest
  cases it with
  | nil => simp at hhead
  | cons v rest =>
    have hb : r.mBegin < (key v).mBegin := by simpa using hhead
    rw [detect_gap hb, toList, if_neg (by simp only; omega)]
    by_cases hpv : p < (key v).mBegin
    · exact .inr ⟨_, mem_cons_self, hp1, by simp only; omega⟩
    have hhead' : ∀ w ∈ (v :: rest).head?,
        (key w).mBegin ≤ (⟨min r.mEnd (key v).mBegin, r.mEnd⟩ : FileRange).mBegin := by
      intro w hw
      cases hw
      simp only
      omega
    rcases toList_complete (t.length + 1) hah.before (by omega) hhead' p
      ⟨by simp only; omega, hp2⟩ with hc | ⟨x, hx, hxp⟩
    · exact .inl (hcov hc)
    · exact .inr ⟨x, mem_cons_of_mem _ hx, hxp⟩

/-- The first gap of a range fits into the tree, and begins where the range does unless the tree
    holds that position. -/
theorem gaps_head (ht : Apart g t) (hr : r.mBegin < r.mEnd) :
    (gaps t r = [] ∧ r.mBegin ∈ cover t) ∨
    ∃ x rest a z, gaps t r = x :: rest ∧ t = a ++ z ∧ (x.mBegin = r.mBegin ∨ r.mBegin ∈ cover t) ∧
      (∀ v ∈ a, (key v).mEnd ≤ x.mBegin) ∧ ∀ v ∈ z, x.mEnd ≤ (key v).mBegin := by
  obtain ⟨a, hta, ha⟩ := exists_append_endsAfter t r.mBegin
  have hah := ahead_endsAfter ht hr
  unfold gaps
  rw [if_neg (by omega)]
  generalize endsAfter t r.mBegin = it at hta hah
  cases it with
  | nil =>
    rw [detect_nil, toList, if_neg (by simp only; omega)]
    exact .inr ⟨r, _, a, [], rfl, hta, .inl rfl, ha, by simp⟩
  | cons v rest =>
    have hv := hah.ends v mem_cons_self
    have haround := (hta ▸ ht : Apart g (a ++ v :: rest)).around
    by_cases hb : r.mBegin < (key v).mBegin
    · rw [detect_gap hb, toList, if_neg (by simp only; omega)]
      refine .inr ⟨_, _, a, v :: rest, rfl, hta, .inl rfl, ha, fun w hw => ?_⟩
      exact (min_le_right _ _).trans (hah.apart.head_le w hw)
    have hcov : r.mBegin ∈ cover t := ⟨v, by simp [hta], not_lt.1 hb, hv⟩
    by_cases he : r.mEnd ≤ (key v).mEnd
    · rw [detect_end (not_lt.1 hb) he]
      exact .inl ⟨rfl, hcov⟩
    rw [detect_next (not_lt.1 hb) (not_le.1 he), toList]
    split
    · exact .inl ⟨rfl, hcov⟩
    refine .inr ⟨_, _, a ++ [v], rest, rfl, by simp [hta], .inr hcov, ?_, ?_⟩
    · intro w hw
      rcases mem_append.1 hw with hw | hw
      · have := haround.1 w hw
        simp only
        omega
      · rw [mem_singleton.1 hw]
    intro w hw
    cases rest with
    | nil => cases hw
    | cons y rest =>
      have hap := hah.apart.sublist (sublist_cons_self v (y :: rest))
      exact (min_le_right _ _).trans (hap.head_le w hw)

end Gaps

end FileRangeTree

end MegaSdk.FileService
