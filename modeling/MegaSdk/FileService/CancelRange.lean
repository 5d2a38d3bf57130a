/-
  File:      MegaSdk/FileService/CancelRange.lean
  Subject:   WHAT cancel(downloading, range) LEAVES OF EACH DOWNLOAD (file_context.cpp).

  A download changes its range by leaving the map and coming back, so the map has the downloads in
  the order it had them before: the download in a place afterwards is the one that was there.

  * `Spares` -- nothing that is not listed overlaps the range, and what is not listed keeps all it
    has outside it;
  * **`trim_spares_iff`** -- that is so exactly when no download extends beyond the range on both
    sides: the code takes such a download for one that overlaps the ending of the range only, and
    what it had before the range is gone, with the reads that wait for it.
-/
import MegaSdk.FileService.Updates

namespace MegaSdk.FileService

open FileRangeTree List

namespace FileContext

/-- Of the downloads `m`, of which `m'` is left and `l` is to be cancelled: no other overlaps `r`,
    and every other has kept, in its place, all of the file outside `r` that it had. -/
structure Spares (r : FileRange) (m m' l : List Download) : Prop where
  clear : ∀ d ∈ m', d ∉ l → ∀ p, r.contains p → ¬ d.range.contains p
  same : List.Forall₂ (fun d d' =>
    (d.range.mBegin ≤ d'.range.mBegin ∧ d'.range.mEnd ≤ d.range.mEnd) ∧
      (d' ∉ l → ∀ p, ¬ r.contains p → d.range.contains p → d'.range.contains p)) m m'

/-- The download extends beyond `r` on both sides. -/
def Straddles (r : FileRange) (d : Download) : Prop :=
  d.range.mBegin < r.mBegin ∧ r.mEnd < d.range.mEnd

section Spared

variable {r : FileRange} {d : Download}

section

variable (hr : r.mBegin ≤ r.mEnd)
include hr

theorem cuts_within :
    d.range.mBegin ≤ (endCut r (beginCut r d)).range.mBegin ∧
      (endCut r (beginCut r d)).range.mEnd ≤ d.range.mEnd := by
  unfold beginCut
  split
  · rename_i h
    rw [endCut_of_end_le hr]
    exact ⟨le_rfl, le_of_lt h.2.1⟩
  unfold endCut
  split
  · rename_i h
    exact ⟨le_of_lt h.1, le_rfl⟩
  · exact ⟨le_rfl, le_rfl⟩

/-- Unless it extends beyond `r` on both sides, a download keeps what it has outside `r`. -/
theorem cuts_keep (hd : ¬ Straddles r d) {p : Nat} (hp : ¬ r.contains p)
    (hdp : d.range.contains p) : (endCut r (beginCut r d)).range.contains p := by
  have hp' : p < r.mBegin ∨ r.mEnd ≤ p := by
    unfold FileRange.contains at hp
    omega
  have hdp' : d.range.mBegin ≤ p ∧ p < d.range.mEnd := hdp
  unfold Straddles at hd
  unfold beginCut
  split
  · rename_i h
    rw [endCut_of_end_le hr]
    show d.range.mBegin ≤ p ∧ p < r.mBegin
    omega
  unfold endCut
  split
  · rename_i h
    show r.mEnd ≤ p ∧ p < d.range.mEnd
    omega
  · exact hdp

/-- One that does keeps only what is behind `r`. -/
theorem cuts_straddle (hd : Straddles r d) :
    endCut r (beginCut r d) = narrowed d ⟨r.mEnd, d.range.mEnd⟩ := by
  obtain ⟨h1, h2⟩ := hd
  have hb : beginCut r d = d := if_neg (by omega)
  rw [hb]
  exact if_pos ⟨by omega, h2⟩

end

end Spared

/-- **`cancel(downloading, range)` leaves every download that it does not cancel what it has outside
    the range exactly when no download extends beyond the range on both sides.** That none of them
    overlaps the range any more is always so. -/
theorem trim_spares_iff {m : List Download} (hm : Apart 0 m) {r : FileRange}
    (hr : r.mBegin ≤ r.mEnd) :
    (∃ m' l, trim m r = some (m', l) ∧ Spares r m m' l) ↔ ∀ d ∈ m, ¬ Straddles r d := by
  obtain ⟨l, htrim, -, hclear, hl⟩ := trim_eq hm hr
  constructor
  · intro ⟨m', l', h, hs⟩ d hd hst
    cases htrim.symm.trans h
    have hsame := (List.forall₂_same.1 (List.forall₂_map_right_iff.1 hs.same)) d hd
    rw [cuts_straddle hr hst] at hsame
    -- it is not listed, and has lost its first byte
    have hnot : narrowed d ⟨r.mEnd, d.range.mEnd⟩ ∉ l := fun hin =>
      lt_irrefl r.mEnd (hl _ hin).2
    have hfirst := hsame.2 hnot d.range.mBegin (fun hc => absurd hc.1 (Nat.not_le_of_lt hst.1))
      ⟨le_rfl, hm.nonempty d hd⟩
    have hbefore : d.range.mBegin < r.mEnd := lt_of_lt_of_le hst.1 hr
    exact absurd hfirst.1 (Nat.not_le_of_lt hbefore)
  intro hno
  refine ⟨_, l, htrim, fun d hd hnot p hp hdp => ?_, ?_⟩
  · have h1 := hclear d hd hnot
    have h2 : r.mBegin ≤ p ∧ p < r.mEnd := hp
    have h3 : d.range.mBegin ≤ p ∧ p < d.range.mEnd := hdp
    omega
  · refine List.forall₂_map_right_iff.2 (List.forall₂_same.2 fun d hd => ?_)
    exact ⟨cuts_within hr, fun _ p hp => cuts_keep hr (hno d hd) hp⟩

/-- A range that takes the end of one download and the beginning of another. -/
theorem trim_spares_two : trim [⟨⟨0, 10⟩, 3⟩, ⟨⟨12, 20⟩, 12⟩] ⟨8, 14⟩ =
      some ([⟨⟨0, 8⟩, 3⟩, ⟨⟨14, 20⟩, 14⟩], []) ∧
    ∃ m' l, trim [⟨⟨0, 10⟩, 3⟩, ⟨⟨12, 20⟩, 12⟩] ⟨8, 14⟩ = some (m', l) ∧
      Spares ⟨8, 14⟩ [⟨⟨0, 10⟩, 3⟩, ⟨⟨12, 20⟩, 12⟩] m' l :=
  ⟨by decide, (trim_spares_iff ⟨by decide, by decide⟩ (by decide)).2 (by
    unfold Straddles
    decide)⟩

/-- A read of the first two bytes waits for a download of ten when four to six are cancelled. The
    download is left with the last four bytes; it completes, and the read waits on with no download
    that has its bytes. -/
theorem trim_straddled : trim [⟨⟨0, 10⟩, 0⟩] ⟨4, 6⟩ = some ([⟨⟨6, 10⟩, 6⟩], []) ∧
    ((⟨[], 10, 10, [], [⟨⟨0, 10⟩, 0⟩], [], [], [⟨⟨0, 2⟩, false⟩]⟩ : FileContext).cancel ⟨4, 6⟩).map
        (fun c => c.completed true ⟨⟨6, 10⟩, 6⟩) =
      some ⟨[], 10, 10, [], [], [], [], [⟨⟨0, 2⟩, false⟩]⟩ := by
  decide

end FileContext

end MegaSdk.FileService
