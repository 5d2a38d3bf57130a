/-
  File:      MegaSdk/FileService/Gaps.lean
  Subject:   WHICH GAPS FileRangeGapIterator FINDS (file_range_tree_utilities.h).

  * `MaximalGap t r x` -- what an iteration should find: `x` is a largest part of `r` that no range
    of `t` meets;
  * `gapBegin` -- the iterator `gaps(container, range)` gives; `Exact t r` -- iterating from it
    finds the maximal gaps in order and then is at its end;
  * `Touches b t y` -- a range of `t` begins at `y`, where another one ends or `b` is;
  * `emitted` -- the gaps from a gap that begins at `b` on: the positions that no range holds, as
    long as no two ranges touch before them;
  * **`gaps_exact_iff`** -- an iteration is exact unless two ranges touch in `r` before a gap: the
    empty gap between them is taken for the end.
-/
import MegaSdk.FileService.Ranges

namespace MegaSdk.FileService.FileRangeTree

open GapIterator List

variable {V : Type} [KeyFunction V] {rest t : List V} {r : FileRange} {p : Nat} {l : List FileRange}

/-! ## 1. What an iteration should find -/

/-- `x` is a part of `r`, not empty, without a position that `t` holds. -/
structure FreePart (t : List V) (r x : FileRange) : Prop where
  nonempty : x.mBegin < x.mEnd
  begins : r.mBegin ≤ x.mBegin
  ends : x.mEnd ≤ r.mEnd
  free : ∀ p, x.contains p → p ∉ cover t

/-- `x` is such a part and lies in no larger one. -/
structure MaximalGap (t : List V) (r x : FileRange) : Prop extends FreePart t r x where
  maximal : ∀ y, FreePart t r y → y.mBegin ≤ x.mBegin → x.mEnd ≤ y.mEnd → y = x

/-- `FileRangeGapIterator(container, range)`. -/
def gapBegin (t : List V) (r : FileRange) : GapIterator V :=
  if r.mBegin ≥ r.mEnd then ⟨endsAfter t r.mBegin, {}, r⟩
  else detect ⟨endsAfter t r.mBegin, {}, r⟩

/-- The gaps from `begin()` on are the maximal ones, in increasing order, and then the iterator
is equal to `end()`. -/
structure Exact (t : List V) (r : FileRange) : Prop where
  increasing : (gaps t r).Pairwise fun x y => x.mEnd ≤ y.mBegin
  mem_iff : ∀ x, x ∈ gaps t r ↔ MaximalGap t r x
  steps : ∀ k < (gaps t r).length, (gaps t r)[k]? = some (detect^[k] (gapBegin t r)).mGap
  stops : (detect^[(gaps t r).length] (gapBegin t r)).mGap.empty

theorem toList_steps : ∀ (n : Nat) (i : GapIterator V), (toList n i).length < n →
    (∀ k < (toList n i).length, (toList n i)[k]? = some (detect^[k] i).mGap) ∧
      (detect^[(toList n i).length] i).mGap.empty
  | 0, _, h => absurd h (Nat.not_lt_zero _)
  | n + 1, i, h => by
      rw [toList] at h ⊢
      split_ifs with he
      · exact ⟨by simp, he⟩
      rw [if_neg he] at h
      obtain ⟨hk, hs⟩ := toList_steps n i.detect (by simpa using h)
      refine ⟨fun k hlt => ?_, ?_⟩
      · cases k with
        | zero => rfl
        | succ k =>
          exact hk k (by simpa using hlt)
      · rwa [length_cons]

theorem toList_of_empty {i : GapIterator V} (h : i.mGap.mBegin = i.mGap.mEnd) (n : Nat) :
    toList n i = [] := by
  cases n with
  | zero => rfl
  | succ n => rw [toList, if_pos h]

theorem FreePart.maximalGap {x : FileRange} (h : FreePart t r x)
    (hl : x.mBegin = r.mBegin ∨ x.mBegin - 1 ∈ cover t) (hr : x.mEnd = r.mEnd ∨ x.mEnd ∈ cover t) :
    MaximalGap t r x := by
  refine ⟨h, fun y hy hb he => ?_⟩
  have h1 := hy.begins
  have h2 := hy.ends
  have h3 := h.nonempty
  have eb : y.mBegin = x.mBegin := by
    by_contra hne
    rcases hl with hl | hl
    · omega
    · exact hy.free (x.mBegin - 1) ⟨by omega, by omega⟩ hl
  have ee : y.mEnd = x.mEnd := by
    by_contra hne
    rcases hr with hr | hr
    · omega
    · exact hy.free x.mEnd ⟨by omega, by omega⟩ hr
  cases x
  cases y
  simp only at eb ee
  rw [eb, ee]

theorem MaximalGap.eq_of_contains {x y : FileRange} (hx : MaximalGap t r x) (hy : MaximalGap t r y)
    (hpx : x.contains p) (hpy : y.contains p) : x = y := by
  have h1 := hx.begins
  have h2 := hy.begins
  have h3 := hx.ends
  have h4 := hy.ends
  obtain ⟨a1, a2⟩ := hpx
  obtain ⟨b1, b2⟩ := hpy
  -- their union is free as well
  have hu : FreePart t r ⟨min x.mBegin y.mBegin, max x.mEnd y.mEnd⟩ := by
    refine ⟨by simp only; omega, by simp only; omega, by simp only; omega, fun q hq => ?_⟩
    obtain ⟨q1, q2⟩ := hq
    simp only at q1 q2
    by_cases hqx : x.mBegin ≤ q ∧ q < x.mEnd
    · exact hx.free q hqx
    · exact hy.free q ⟨by omega, by omega⟩
  have ex := hx.maximal _ hu (min_le_left _ _) (le_max_left _ _)
  have ey := hy.maximal _ hu (min_le_right _ _) (le_max_right _ _)
  exact ex.symm.trans ey

theorem exists_maximalGap (hp : r.contains p) (hc : p ∉ cover t) :
    ∃ x, MaximalGap t r x ∧ x.contains p := by
  classical
  obtain ⟨hp1, hp2⟩ := hp
  -- the first free position up to `p`, and the first one behind `p` that is not free
  have hleft : ∃ b, r.mBegin ≤ b ∧ b ≤ p ∧ ∀ q, b ≤ q → q ≤ p → q ∉ cover t :=
    ⟨p, hp1, le_refl p, fun q h1 h2 => by rwa [le_antisymm h2 h1]⟩
  have hright : ∃ e, p < e ∧ (e = r.mEnd ∨ e ∈ cover t) := ⟨r.mEnd, hp2, .inl rfl⟩
  have hl := Nat.find_spec hleft
  have hr := Nat.find_spec hright
  have hrle : Nat.find hright ≤ r.mEnd := Nat.find_min' hright ⟨hp2, .inl rfl⟩
  have hfree : ∀ q, Nat.find hleft ≤ q → q < Nat.find hright → q ∉ cover t := fun q h1 h2 hq => by
    by_cases hqp : q ≤ p
    · exact hl.2.2 q h1 hqp hq
    · exact Nat.find_min hright h2 ⟨by omega, .inr hq⟩
  have hpart : FreePart t r ⟨Nat.find hleft, Nat.find hright⟩ :=
    ⟨by simp only; omega, hl.1, hrle, fun q hq => hfree q hq.1 hq.2⟩
  refine ⟨_, hpart.maximalGap ?_ hr.2, hl.2.1, hr.1⟩
  by_contra hne
  obtain ⟨h1, h2⟩ := not_or.1 hne
  simp only at h1 h2
  have hlt : Nat.find hleft - 1 < Nat.find hleft := by omega
  refine Nat.find_min hleft hlt ⟨by omega, by omega, fun q hq1 hq2 => ?_⟩
  by_cases hq : q = Nat.find hleft - 1
  · rwa [hq]
  · exact hl.2.2 q (by omega) hq2

/-! ## 2. The gaps behind a position -/

/-- A range of `t` begins at `y`, and another one ends there or it is `b`. -/
def Touches (b : Nat) (t : List V) (y : Nat) : Prop :=
  (y = b ∨ ∃ v ∈ t, (key v).mEnd = y) ∧ ∃ w ∈ t, (key w).mBegin = y

/-- The gaps `l` found between `b` and `e`, where the ranges `t` are all behind `b`. -/
structure Emitted (b e : Nat) (t : List V) (l : List FileRange) : Prop where
  short : l.length ≤ t.length + 1
  increasing : l.Pairwise fun x y => x.mEnd ≤ y.mBegin
  part : ∀ x ∈ l, FreePart t ⟨b, e⟩ x
  left : ∀ x ∈ l, x.mBegin = b ∨ x.mBegin - 1 ∈ cover t
  right : ∀ x ∈ l, x.mEnd = e ∨ x.mEnd ∈ cover t
  found : ∀ p, b ≤ p → p < e →
    ((∃ x ∈ l, x.contains p) ↔ p ∉ cover t ∧ ∀ y ≤ p, ¬ Touches b t y)

section Emitted

variable {b e : Nat} {w : V}

theorem before_first {u : Nat} (hu : ∀ v ∈ t, u ≤ (key v).mBegin) (hp : p < u) : p ∉ cover t := by
  rintro ⟨v, hv, h1, -⟩
  have := hu v hv
  omega

theorem begins_from (ht : Apart 0 (w :: rest)) : ∀ v ∈ rest, (key w).mEnd ≤ (key v).mBegin := by
  intro v hv
  have := (pairwise_cons.1 ht.apart).1 v hv
  omega

theorem toList_detect_end (ht : ∀ v ∈ t, e < (key v).mEnd) (gap : FileRange) (n : Nat) :
    toList n (detect ⟨t, gap, ⟨e, e⟩⟩) = [] := by
  cases t with
  | nil => exact toList_of_empty rfl n
  | cons w rest =>
    by_cases hw : e < (key w).mBegin
    · rw [detect_gap hw]
      exact toList_of_empty (by simp only; omega) n
    · rw [detect_end (not_lt.1 hw) (ht w mem_cons_self).le]
      exact toList_of_empty rfl n

/-- One gap, up to the end or to the first range, which reaches the end. -/
theorem emitted_one {u : Nat} (ht : Apart 0 t) (hb : b < u) (hue : u ≤ e)
    (hu : ∀ v ∈ t, u ≤ (key v).mBegin)
    (hend : u = e ∨ ∃ w ∈ t, (key w).mBegin = u ∧ e ≤ (key w).mEnd) : Emitted b e t [⟨b, u⟩] := by
  have hfree : ∀ p, p < u → p ∉ cover t := fun p hp => before_first hu hp
  have hright : u = e ∨ u ∈ cover t := by
    rcases hend with h | ⟨w, hw, h1, -⟩
    · exact .inl h
    · have := ht.nonempty w hw
      exact .inr ⟨w, hw, by omega, by omega⟩
  refine ⟨by simp, pairwise_singleton .., ?_, ?_, ?_, fun p hp1 hp2 => ?_⟩
  · intro x hx
    rw [mem_singleton.1 hx]
    exact ⟨hb, le_rfl, hue, fun p hp => hfree p hp.2⟩
  · intro x hx
    rw [mem_singleton.1 hx]
    exact .inl rfl
  · intro x hx
    rwa [mem_singleton.1 hx]
  constructor
  · rintro ⟨x, hx, hxp⟩
    rw [mem_singleton.1 hx] at hxp
    have hpu : p < u := hxp.2
    refine ⟨hfree p hpu, ?_⟩
    rintro y hy ⟨-, w, hw, rfl⟩
    have := hu w hw
    omega
  rintro ⟨hc, -⟩
  refine ⟨_, mem_singleton_self _, hp1, ?_⟩
  show p < u
  rcases hend with h | ⟨w, hw, h1, h2⟩
  · omega
  · by_contra hpu
    exact hc ⟨w, hw, by omega, by omega⟩

theorem mem_cover_behind (hp : (key w).mEnd ≤ p) : p ∈ cover (w :: rest) ↔ p ∈ cover rest := by
  rw [mem_cover_cons]
  refine ⟨fun hc => hc.resolve_left ?_, .inr⟩
  rintro ⟨-, h2⟩
  omega

theorem touches_behind {y : Nat} (hb : b ≠ y) (hw : (key w).mBegin ≠ y) :
    Touches b (w :: rest) y ↔ Touches (key w).mEnd rest y := by
  constructor
  · rintro ⟨hend, v, hv, hvy⟩
    obtain ⟨a, ha, hay⟩ := hend.resolve_left hb.symm
    refine ⟨?_, v, (mem_cons.1 hv).resolve_left fun he => hw (he ▸ hvy), hvy⟩
    rcases mem_cons.1 ha with rfl | ha
    · exact .inl hay.symm
    · exact .inr ⟨a, ha, hay⟩
  · rintro ⟨hend, v, hv, hvy⟩
    refine ⟨.inr ?_, v, mem_cons_of_mem _ hv, hvy⟩
    rcases hend with rfl | ⟨a, ha, hay⟩
    · exact ⟨w, mem_cons_self, rfl⟩
    · exact ⟨a, mem_cons_of_mem _ ha, hay⟩

theorem Emitted.behind {x : FileRange} (h : Emitted (key w).mEnd e rest l)
    (hw : (key w).mBegin < (key w).mEnd) (hb : b ≤ (key w).mEnd) (hx : x ∈ l) :
    FreePart (w :: rest) ⟨b, e⟩ x ∧ x.mBegin - 1 ∈ cover (w :: rest) ∧
      (x.mEnd = e ∨ x.mEnd ∈ cover (w :: rest)) := by
  have hp := h.part x hx
  refine ⟨⟨hp.nonempty, hb.trans hp.begins, hp.ends, fun p hxp => ?_⟩, mem_cover_cons.2 ?_,
    (h.right x hx).imp_right fun hr => mem_cover_cons.2 (.inr hr)⟩
  · rw [mem_cover_behind (hp.begins.trans hxp.1)]
    exact hp.free p hxp
  rcases h.left x hx with hl | hl
  · exact .inl ⟨by omega, by omega⟩
  · exact .inr hl

/-- The gap before the range `w`, and the gaps behind it. -/
theorem emitted_cons {w : V} (ht : Apart 0 (w :: rest)) (hb : b < (key w).mBegin)
    (he : (key w).mEnd < e) (h : Emitted (key w).mEnd e rest l) :
    Emitted b e (w :: rest) (⟨b, (key w).mBegin⟩ :: l) := by
  have hw := ht.nonempty w mem_cons_self
  have hall := ht.head_le
  have hfree : ∀ p, p < (key w).mBegin → p ∉ cover (w :: rest) :=
    fun p hp => before_first hall hp
  have hback : ∀ x ∈ l, (key w).mEnd ≤ x.mBegin := fun x hx => (h.part x hx).begins
  have hwin : (key w).mBegin ∈ cover (w :: rest) := ⟨w, mem_cons_self, le_rfl, hw⟩
  refine ⟨?_, pairwise_cons.2 ⟨fun x hx => ?_, h.increasing⟩, ?_, ?_, ?_, fun p hp1 hp2 => ?_⟩
  · have := h.short
    simp only [length_cons]
    omega
  · have := hback x hx
    simp only
    omega
  · intro x hx
    rcases mem_cons.1 hx with rfl | hx
    · exact ⟨hb, le_rfl, by simp only; omega, fun p hp => hfree p hp.2⟩
    · exact (h.behind hw (by omega) hx).1
  · intro x hx
    rcases mem_cons.1 hx with rfl | hx
    · exact .inl rfl
    · exact .inr (h.behind (b := b) hw (by omega) hx).2.1
  · intro x hx
    rcases mem_cons.1 hx with rfl | hx
    · exact .inr hwin
    · exact (h.behind (b := b) hw (by omega) hx).2.2
  by_cases hpw : p < (key w).mBegin
  · -- in the first gap
    refine ⟨fun _ => ⟨hfree p hpw, ?_⟩, fun _ => ⟨_, mem_cons_self, hp1, hpw⟩⟩
    rintro y hy ⟨-, v, hv, rfl⟩
    have := hall v hv
    omega
  by_cases hpe : p < (key w).mEnd
  · -- in `w`
    have hc : p ∈ cover (w :: rest) := ⟨w, mem_cons_self, by omega, hpe⟩
    refine ⟨?_, fun hn => absurd hc hn.1⟩
    rintro ⟨x, hx, hxp1, hxp2⟩
    rcases mem_cons.1 hx with rfl | hx
    · simp only at hxp2
      omega
    · have := hback x hx
      omega
  -- behind `w`: the ranges touch where those of `rest` do, the end of `w` included
  have hfirst : (∃ x ∈ (⟨b, (key w).mBegin⟩ : FileRange) :: l, x.contains p) ↔
      ∃ x ∈ l, x.contains p := by
    constructor
    · rintro ⟨x, hx, hxp⟩
      rcases mem_cons.1 hx with rfl | hx
      · have : p < (key w).mBegin := hxp.2
        omega
      · exact ⟨x, hx, hxp⟩
    · rintro ⟨x, hx, hxp⟩
      exact ⟨x, mem_cons_of_mem _ hx, hxp⟩
  have htouch : ∀ y, Touches b (w :: rest) y ↔ Touches (key w).mEnd rest y := by
    intro y
    by_cases hy : (key w).mBegin < y
    · exact touches_behind (by omega) (by omega)
    refine iff_of_false ?_ ?_
    · rintro ⟨hend, v, hv, hvy⟩
      have hv := hall v hv
      obtain ⟨a, ha, hay⟩ := hend.resolve_left (by omega)
      have h1 := hall a ha
      have h2 := ht.nonempty a ha
      omega
    · rintro ⟨-, v, hv, hvy⟩
      have := begins_from ht v hv
      omega
  rw [hfirst, mem_cover_behind (by omega), h.found p (by omega) hp2]
  simp only [htouch]

/-- **The gaps from one that begins at `b` on.** -/
theorem emitted : ∀ (t : List V) (n : Nat) {b : Nat}, Apart 0 t → (∀ v ∈ t, b ≤ (key v).mBegin) →
    b < e → t.length < n →
    Emitted b e t (toList n ⟨t, ⟨b, upTo t e⟩, ⟨upTo t e, e⟩⟩)
  | _, 0, _, _, _, _, hn => absurd hn (Nat.not_lt_zero _)
  | [], n + 1, b, ht, _, hbe, _ => by
      have hl : toList (n + 1) (⟨[], ⟨b, e⟩, ⟨e, e⟩⟩ : GapIterator V) = [⟨b, e⟩] := by
        rw [toList, if_neg (by simp only; omega), toList_of_empty rfl]
      show Emitted b e [] (toList (n + 1) ⟨[], ⟨b, e⟩, ⟨e, e⟩⟩)
      rw [hl]
      exact emitted_one ht hbe (le_refl e) (by simp) (.inl rfl)
  | w :: rest, n + 1, b, ht, hfirst, hbe, hn => by
      have hall := ht.head_le
      have hbw := hfirst w mem_cons_self
      show Emitted b e (w :: rest) (toList (n + 1)
        ⟨w :: rest, ⟨b, min e (key w).mBegin⟩, ⟨min e (key w).mBegin, e⟩⟩)
      rw [toList]
      by_cases hb : b = (key w).mBegin
      · -- the first range begins at `b`: the empty gap ends the iteration
        rw [if_pos (by simp only; omega)]
        refine ⟨by simp, .nil, by simp, by simp, by simp, fun p hp1 hp2 => ?_⟩
        refine ⟨by simp, fun hn => ?_⟩
        exact absurd ⟨.inl rfl, w, mem_cons_self, hb.symm⟩ (hn.2 b hp1)
      rw [if_neg (by simp only; omega)]
      by_cases hwe : e ≤ (key w).mBegin
      · rw [min_eq_left hwe, toList_detect_end fun v hv => by
          have h1 := hall v hv
          have h2 := ht.nonempty v hv
          omega]
        exact emitted_one ht hbe (le_refl e) (fun v hv => by have := hall v hv; omega) (.inl rfl)
      rw [min_eq_right (by omega)]
      by_cases he : e ≤ (key w).mEnd
      · rw [detect_end (r := ⟨(key w).mBegin, e⟩) le_rfl he, toList_of_empty rfl]
        exact emitted_one ht (by omega) (by omega) hall
          (.inr ⟨w, mem_cons_self, rfl, he⟩)
      rw [detect_next (r := ⟨(key w).mBegin, e⟩) le_rfl (by simp only; omega)]
      exact emitted_cons ht (by omega) (by omega)
        (emitted rest n (ht.sublist (sublist_cons_self _ _)) (begins_from ht) (by omega)
          (by simpa using hn))

end Emitted

/-! ## 3. Iterations -/

/-- What an iteration over `r` finds: maximal gaps, and all positions that no range holds and before
which no two ranges touch in `r`. -/
structure Finds (t : List V) (r : FileRange) (l : List FileRange) : Prop where
  short : l.length ≤ t.length + 1
  increasing : l.Pairwise fun x y => x.mEnd ≤ y.mBegin
  maximal : ∀ x ∈ l, MaximalGap t r x
  found : ∀ p, r.contains p →
    ((∃ x ∈ l, x.contains p) ↔ p ∉ cover t ∧ ∀ y ≤ p, r.mBegin < y → ¬ Touches r.mBegin t y)

section Iteration

variable {t : List V} {r : FileRange}

/-- Only the ranges that end behind the beginning of `r` count. -/
theorem Finds.append {a : List V} (ht : Apart 0 (a ++ t)) (ha : ∀ v ∈ a, (key v).mEnd ≤ r.mBegin)
    (h : Finds t r l) : Finds (a ++ t) r l := by
  have hcov : ∀ p, r.mBegin ≤ p → (p ∈ cover (a ++ t) ↔ p ∈ cover t) := fun p hp => by
    rw [mem_cover_append]
    refine ⟨fun hc => hc.resolve_left ?_, .inr⟩
    rintro ⟨v, hv, -, h2⟩
    have := ha v hv
    omega
  have htouch : ∀ y, r.mBegin < y → (Touches r.mBegin (a ++ t) y ↔ Touches r.mBegin t y) := by
    intro y hy
    have hmem : ∀ v ∈ a ++ t, y ≤ (key v).mEnd → v ∈ t := fun v hv hvy => by
      refine (mem_append.1 hv).resolve_left fun hva => ?_
      have := ha v hva
      omega
    constructor
    · rintro ⟨hend, w, hw, hwy⟩
      have hwne := ht.nonempty w hw
      refine ⟨hend.imp_right ?_, w, hmem w hw (by omega), hwy⟩
      rintro ⟨v, hv, hvy⟩
      exact ⟨v, hmem v hv (by omega), hvy⟩
    rintro ⟨hend, w, hw, hwy⟩
    refine ⟨hend.imp_right ?_, w, mem_append_right _ hw, hwy⟩
    rintro ⟨v, hv, hvy⟩
    exact ⟨v, mem_append_right _ hv, hvy⟩
  have hpart : ∀ x, FreePart (a ++ t) r x ↔ FreePart t r x := fun x =>
    ⟨fun hx => { hx with
        free := fun p hp hc => hx.free p hp ((hcov p (hx.begins.trans hp.1)).2 hc) },
      fun hx => { hx with
        free := fun p hp hc => hx.free p hp ((hcov p (hx.begins.trans hp.1)).1 hc) }⟩
  refine ⟨?_, h.increasing, fun x hx => ?_, fun p hp => ?_⟩
  · have := h.short
    rw [length_append]
    omega
  · have hm := h.maximal x hx
    exact ⟨(hpart x).2 hm.toFreePart, fun y hy => hm.maximal y ((hpart y).1 hy)⟩
  rw [h.found p hp, hcov p hp.1]
  refine and_congr_right fun _ => forall_congr' fun y => ?_
  exact forall_congr' fun _ => forall_congr' fun hy => not_congr (htouch y hy).symm

/-- A gap from the beginning of `r` on: what follows it are all ranges. -/
theorem Finds.of_emitted (hb : ∀ v ∈ t, r.mBegin < (key v).mBegin) (h : Emitted r.mBegin r.mEnd t l) :
    Finds t r l := by
  refine ⟨h.short, h.increasing, fun x hx => ?_, fun p hp => ?_⟩
  · exact (h.part x hx).maximalGap (h.left x hx) (h.right x hx)
  rw [h.found p hp.1 hp.2]
  refine and_congr_right fun _ => ⟨fun hn y hy _ => hn y hy, fun hn y hy hty => ?_⟩
  obtain ⟨w, hw, hwy⟩ := hty.2
  have := hb w hw
  exact hn y hy (by omega) hty

/-- The first range `v` holds the beginning of `r`, and the gaps are those behind it. -/
theorem Finds.of_emitted_behind {v : V} (ht : Apart 0 (v :: t)) (hb : (key v).mBegin ≤ r.mBegin)
    (hv : r.mBegin < (key v).mEnd) (h : Emitted (key v).mEnd r.mEnd t l) : Finds (v :: t) r l := by
  have hfrom := begins_from ht
  have hback : ∀ x ∈ l, (key v).mEnd ≤ x.mBegin := fun x hx => (h.part x hx).begins
  refine ⟨?_, h.increasing, fun x hx => ?_, fun p hp => ?_⟩
  · have := h.short
    rw [length_cons]
    omega
  · obtain ⟨hp, hl, hr⟩ := h.behind (by omega) hv.le hx
    exact hp.maximalGap (.inr hl) hr
  obtain ⟨hp1, hp2⟩ := hp
  by_cases hpv : p < (key v).mEnd
  · -- in `v`
    refine ⟨?_, fun hn => absurd (mem_cover_cons.2 (.inl ⟨by omega, hpv⟩)) hn.1⟩
    rintro ⟨x, hx, hxp, -⟩
    have := hback x hx
    omega
  have htouch : ∀ y, r.mBegin < y →
      (Touches r.mBegin (v :: t) y ↔ Touches (key v).mEnd t y) := fun y hy =>
    touches_behind (by omega) (by omega)
  rw [h.found p (by omega) hp2, mem_cover_behind (by omega)]
  refine and_congr_right fun _ => forall_congr' fun y => forall_congr' fun _ => ?_
  refine ⟨fun hn hy hty => hn ((htouch y hy).1 hty), fun hn hty => ?_⟩
  obtain ⟨w, hw, hwy⟩ := hty.2
  have := hfrom w hw
  exact hn (by omega) ((htouch y (by omega)).2 hty)

theorem finds_gaps (ht : Apart 0 t) (hr : r.mBegin < r.mEnd) : Finds t r (gaps t r) := by
  obtain ⟨a, hta, ha⟩ := exists_append_endsAfter t r.mBegin
  have hends : ∀ v ∈ endsAfter t r.mBegin, r.mBegin < (key v).mEnd := fun v hv => mem_endsAfter ht hv
  have hap : Apart 0 (endsAfter t r.mBegin) := ht.sublist (dropWhile_sublist _)
  have hlen : (endsAfter t r.mBegin).length ≤ t.length := (dropWhile_sublist _).length_le
  unfold gaps
  rw [if_neg (by omega)]
  generalize endsAfter t r.mBegin = it at hta hends hap hlen ⊢
  suffices h : Finds it r (toList (t.length + 2) (detect ⟨it, {}, r⟩)) by
    generalize toList (t.length + 2) (detect ⟨it, {}, r⟩) = l at h
    rw [hta] at ht ⊢
    exact h.append ht ha
  cases it with
  | nil =>
    rw [detect_nil, toList, if_neg (by simp only; omega)]
    exact .of_emitted (by simp) (emitted_one hap hr le_rfl (by simp) (.inl rfl))
  | cons v rest =>
    have hv := hends v mem_cons_self
    by_cases hb : r.mBegin < (key v).mBegin
    · have hall : ∀ w ∈ v :: rest, r.mBegin < (key w).mBegin := fun w hw => by
        have := hap.head_le w hw
        omega
      rw [detect_gap hb]
      exact .of_emitted hall (emitted (v :: rest) (t.length + 2) hap
        (fun w hw => (hall w hw).le) hr (by omega))
    rw [not_lt] at hb
    by_cases he : r.mEnd ≤ (key v).mEnd
    · -- `v` holds all of `r`
      rw [detect_end hb he, toList_of_empty rfl]
      refine ⟨by simp, .nil, by simp, fun p hp => ⟨by simp, fun hn => ?_⟩⟩
      obtain ⟨hp1, hp2⟩ := hp
      exact absurd (mem_cover_cons.2 (.inl ⟨by omega, by omega⟩)) hn.1
    rw [not_le] at he
    rw [detect_next hb he]
    exact .of_emitted_behind hap hb hv (emitted rest (t.length + 2)
      (hap.sublist (sublist_cons_self _ _)) (begins_from hap) he
      (by simp only [length_cons] at hlen; omega))

theorem gaps_eq_toList (ht : Apart 0 t) : gaps t r = toList (t.length + 2) (gapBegin t r) ∧
    (gaps t r).length < t.length + 2 := by
  by_cases hr : r.mBegin ≥ r.mEnd
  · have h0 : gaps t r = [] := if_pos hr
    refine ⟨?_, by rw [h0]; simp⟩
    unfold gapBegin
    rw [h0, if_pos hr]
    exact (toList_of_empty rfl _).symm
  have hs := (finds_gaps ht (not_le.1 hr)).short
  refine ⟨?_, by omega⟩
  unfold gapBegin gaps
  rw [if_neg hr, if_neg hr]

/-- **Iterating over the gaps is exact unless two ranges touch before a gap.** -/
theorem gaps_exact_iff (ht : Apart 0 t) (r : FileRange) :
    Exact t r ↔ ∀ p, r.contains p → p ∉ cover t → ∀ v ∈ t, ∀ w ∈ t,
      (key v).mEnd = (key w).mBegin → r.mBegin < (key v).mEnd → p < (key v).mEnd := by
  obtain ⟨heq, hlen⟩ := gaps_eq_toList ht
  have hsteps := toList_steps (t.length + 2) (gapBegin t r) (heq ▸ hlen)
  rw [← heq] at hsteps
  by_cases hr : r.mBegin < r.mEnd
  · have hf := finds_gaps ht hr
    constructor
    · intro hx p hp hc v hv w hw hvw hvr
      -- the maximal gap around `p` is found, so no two ranges touch before `p`
      obtain ⟨x, hxm, hxp⟩ : ∃ x, MaximalGap t r x ∧ x.contains p := exists_maximalGap hp hc
      obtain ⟨-, hn⟩ := (hf.found p hp).1 ⟨x, (hx.mem_iff x).2 hxm, hxp⟩
      by_contra hlt
      exact hn (key v).mEnd (by omega) hvr ⟨.inr ⟨v, hv, rfl⟩, w, hw, hvw.symm⟩
    intro hn
    refine ⟨hf.increasing, fun x => ⟨hf.maximal x, fun hx => ?_⟩, hsteps.1, hsteps.2⟩
    have hin : r.contains x.mBegin := ⟨hx.begins, lt_of_lt_of_le hx.nonempty hx.ends⟩
    have hxb : x.contains x.mBegin := ⟨le_rfl, hx.nonempty⟩
    have hfree := hx.free x.mBegin hxb
    obtain ⟨y, hy, hyx⟩ := (hf.found x.mBegin hin).2 ⟨hfree, fun y hy hry hty => by
      obtain ⟨hend, w, hw, hwy⟩ := hty
      obtain ⟨v, hv, hvy⟩ := hend.resolve_left (by omega)
      have := hn x.mBegin hin hfree v hv w hw (by omega) (by omega)
      omega⟩
    rwa [hx.eq_of_contains (hf.maximal y hy) hxb hyx]
  -- there is nothing to iterate over
  have h0 : gaps t r = [] := if_pos (not_lt.1 hr)
  refine ⟨fun _ p hp => ?_, fun _ => ⟨?_, fun x => ?_, hsteps.1, hsteps.2⟩⟩
  · obtain ⟨-, hp2⟩ := hp
    omega
  · rw [h0]
    exact .nil
  rw [h0]
  refine ⟨by simp, fun hx => ?_⟩
  have h1 := hx.nonempty
  have h2 := hx.begins
  have h3 := hx.ends
  omega

end Iteration

/-- Ranges with a gap between them. -/
theorem gaps_exact_iff_apart : Exact [(⟨16, 24⟩ : FileRange), ⟨32, 40⟩] ⟨20, 64⟩ := by
  refine (gaps_exact_iff ⟨by decide, by decide⟩ _).2 fun p _ _ v hv w hw hvw => ?_
  have none : ∀ v ∈ [(⟨16, 24⟩ : FileRange), ⟨32, 40⟩], ∀ w ∈ [(⟨16, 24⟩ : FileRange), ⟨32, 40⟩],
      v.mEnd ≠ w.mBegin := by decide
  exact absurd hvw (none v hv w hw)

/-- **The gap behind two ranges that touch is missed**; `tryAdd` makes them touch by cutting off the
range it adds. -/
theorem gaps_miss_behind_touching :
    tryAdd id [(⟨4, 8⟩ : FileRange)] ⟨0, 6⟩ = some ([⟨0, 4⟩, ⟨4, 8⟩], ⟨0, 4⟩, true) ∧
    gaps [(⟨0, 4⟩ : FileRange), ⟨4, 8⟩] ⟨0, 12⟩ = [] ∧
    MaximalGap [(⟨0, 4⟩ : FileRange), ⟨4, 8⟩] ⟨0, 12⟩ ⟨8, 12⟩ := by
  have hpart : FreePart [(⟨0, 4⟩ : FileRange), ⟨4, 8⟩] ⟨0, 12⟩ ⟨8, 12⟩ := by
    refine ⟨by decide, by decide, by decide, ?_⟩
    rintro p ⟨hp, -⟩ ⟨v, hv, -, hpv⟩
    have hend : ∀ v ∈ [(⟨0, 4⟩ : FileRange), ⟨4, 8⟩], v.mEnd ≤ 8 := by decide
    exact absurd (lt_of_lt_of_le hpv (hend v hv)) hp.not_gt
  exact ⟨by decide, by decide, hpart.maximalGap (.inr ⟨⟨4, 8⟩, by decide, by decide⟩) (.inl rfl)⟩

end MegaSdk.FileService.FileRangeTree
