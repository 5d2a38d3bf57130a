/-
  File:      MegaSdk/FileService/Downloads.lean
  Subject:   WHAT ARRIVING DATA AND READ REQUESTS DO TO A FILE CONTEXT (file_context.cpp).

  * `addDownload_fit` -- a download that fits into its map is added; one that cannot be created
    fails the reads in its range;
  * `readLarge_cases`, `readSmall_cases`, `read_cases` -- all that `execute(FileReadRequest&)` can
    do;
  * `Consistent.dataStep`, `Consistent.read`, `Consistent.completed` -- so these steps keep the rows
    and the ranges on disk together, and the downloads apart and in the file.
-/
import MegaSdk.FileService.Updates

namespace MegaSdk.FileService

open FileRangeTree List FileRange

namespace FileContext

variable {lo : Nat} {c c' : FileContext} {r : FileRange} {q : FileReadRequest} (large : Bool)
variable (d : Download) {opt : ServiceOptions} {buffer : FileRange → Nat} {bitrate : Nat}
  {created : Bool}

/-! ## 1. Arriving data -/

theorem fill_bounds (buffer) {hi : Nat} :
    ∀ {l : List FileRange} {e : Nat},
      (∀ x ∈ l, lo ≤ x.mBegin ∧ x.mBegin < x.mEnd ∧ x.mEnd ≤ hi) → lo ≤ e → e ≤ hi →
      lo ≤ (fill buffer l e).1 ∧ (fill buffer l e).1 ≤ hi
  | [], _, _, h1, h2 => ⟨h1, h2⟩
  | x :: l, e, hl, _, _ => by
      obtain ⟨h1, h2, h3⟩ := hl x mem_cons_self
      rw [fill]
      split_ifs with hlt
      · unfold FileRange.length at *
        omega
      · have hle : min (buffer x) x.length ≤ x.mEnd - x.mBegin := min_le_right _ _
        exact fill_bounds buffer (fun y hy => hl y (mem_cons_of_mem _ hy)) (by omega) (by omega)

/-- When all gaps are filled, the written data ends behind where the first of them did. -/
theorem lt_fill_of_done :
    ∀ {l : List FileRange} {e : Nat}, (∀ x ∈ l, lo < x.mEnd ∧ x.mBegin < x.mEnd) → lo < e →
      (fill buffer l e).2 = true → lo < (fill buffer l e).1
  | [], _, _, he, _ => he
  | x :: l, e, hl, _, hdone => by
      have hx := hl x mem_cons_self
      rw [fill] at hdone ⊢
      split at hdone
      · cases hdone
      rename_i hfull
      rw [if_neg hfull]
      refine lt_fill_of_done (fun y hy => hl y (mem_cons_of_mem _ hy)) ?_ hdone
      unfold FileRange.length at *
      omega

/-- So no gap had to be filled when the written data is empty and all gaps are filled. -/
theorem eq_nil_of_fill {l : List FileRange} (hl : ∀ x ∈ l, lo ≤ x.mBegin ∧ x.mBegin < x.mEnd)
    (he : lo = (fill buffer l lo).1) (hdone : (fill buffer l lo).2 = true) : l = [] := by
  cases l with
  | nil => rfl
  | cons x l =>
    have hx := hl x mem_cons_self
    rw [fill] at hdone he
    split at hdone
    · cases hdone
    rename_i hfull
    rw [if_neg hfull] at he
    have hgaps : ∀ y ∈ l, lo < y.mEnd ∧ y.mBegin < y.mEnd := fun y hy => by
      have := hl y (mem_cons_of_mem _ hy)
      omega
    have := lt_fill_of_done hgaps (by unfold FileRange.length at *; omega) hdone
    omega

/-- **All that a call of `data` can do**: nothing; move the end of the downloaded data over what is
    on disk already; or write from `offset` on, and satisfy the reads that begin there. -/
inductive DataStep (c : FileContext) (large : Bool) (d : Download) (offset : Nat) :
    FileContext → Prop
  | aborted : DataStep c large d offset c
  | skipped {e : Nat} (hle : offset ≤ e) (hend : e ≤ d.range.mEnd)
      (hdisk : ∀ p, offset ≤ p → p < e → p ∈ cover c.mOnDisk) :
      DataStep c large d offset (c.setEnd large d e)
  | written {e : Nat} (hlt : offset < e) (hend : e ≤ d.range.mEnd) {c' : FileContext}
      {x : FileRange} (hupd : c.updateRanges ⟨offset, e⟩ = some (c', x)) :
      DataStep c large d offset ((c'.setEnd large d e).dispatch ⟨offset, e⟩)

theorem data_cases (h : Consistent c) {large : Bool} {d : Download} (hd : d ∈ c.downloads large)
    (offset length : Nat) (buffer : FileRange → Nat) :
    ∃ c', c.data large d offset length buffer = some c' ∧ DataStep c large d offset c' := by
  have hin := h.inFile large d hd
  have hbound := h.bound
  unfold data
  split
  · exact ⟨c, rfl, .aborted⟩
  rw [ofEnds_of_le (by omega)]
  have hgaps := gaps_within h.apart (r := ⟨offset, min (offset + length) d.range.mEnd⟩)
  obtain ⟨hlo, hhi⟩ := fill_bounds buffer hgaps (le_refl offset) (by simp only; omega)
  simp only at hgaps hlo hhi ⊢
  split
  · rename_i heq
    split_ifs with hdone
    · refine ⟨_, rfl, .skipped (by omega) (by omega) ?_⟩
      intro p hp1 hp2
      have hnil := eq_nil_of_fill (fun x hx => ⟨(hgaps x hx).1, (hgaps x hx).2.1⟩) heq hdone
      rcases gaps_complete h.apart (r := ⟨offset, min (offset + length) d.range.mEnd⟩)
        ⟨hp1, hp2⟩ with hc | ⟨x, hx, _⟩
      · exact hc
      · rw [hnil] at hx
        cases hx
    · exact ⟨c, rfl, .aborted⟩
  rename_i hne
  generalize fill buffer _ offset = filled at hlo hhi hne
  obtain ⟨e, he, hlt, hend⟩ : ∃ e, (if filled.2 = true then
      (⟨offset, min (offset + length) d.range.mEnd⟩ : FileRange) else ⟨offset, filled.1⟩) =
        ⟨offset, e⟩ ∧ offset < e ∧ e ≤ d.range.mEnd := by
    split
    · exact ⟨_, rfl, by omega, by omega⟩
    · exact ⟨_, rfl, by omega, by omega⟩
  rw [he]
  obtain ⟨c', _, hc', _⟩ := h.updateRanges (r := ⟨offset, e⟩) hlt.le
    (by simp only; omega) (.inl hlt)
  rw [hc']
  exact ⟨_, rfl, .written hlt hend hc'⟩

theorem range_setEnd (e : Nat) (x : Download) :
    (if x = d then { x with mEnd := e } else x).range = x.range := by
  split <;> rfl

theorem Consistent.setDownloads (h : Consistent c) {m : List Download}
    (hm : Apart 0 m) (hin : ∀ d ∈ m, d.range.mEnd ≤ c.size) : Consistent (c.setDownloads large m) := by
  refine h.of_sameFile (.setDownloads c large _) (fun large' => ?_) fun large' d hd => ?_
  · rw [downloads_setDownloads]
    split
    · exact hm
    · exact h.downloads large'
  rw [downloads_setDownloads] at hd
  split at hd
  · exact hin d hd
  · exact h.inFile large' d hd

theorem Consistent.setEnd (h : Consistent c) (large) (d) (e : Nat) :
    Consistent (c.setEnd large d e) := by
  have hm := h.downloads large
  refine h.setDownloads large ⟨fun y hy => ?_, pairwise_map.2 (hm.apart.imp fun {x y} hxy => ?_)⟩
    fun y hy => ?_
  · obtain ⟨x, hx, rfl⟩ := mem_map.1 hy
    show mBegin (Download.range _) < mEnd (Download.range _)
    rw [range_setEnd]
    exact hm.nonempty x hx
  · show mEnd (Download.range _) + 0 ≤ mBegin (Download.range _)
    rwa [range_setEnd, range_setEnd]
  · obtain ⟨x, hx, rfl⟩ := mem_map.1 hy
    rw [range_setEnd]
    exact h.inFile large x hx

theorem setEnd_frame (c : FileContext) (large) (d) (e : Nat) :
    (c.setEnd large d e).persistedSize = c.persistedSize ∧ (c.setEnd large d e).size = c.size ∧
    (c.setEnd large d e).mOnDisk = c.mOnDisk ∧ (c.setEnd large d e).replaced = c.replaced ∧
    (c.setEnd large d e).mPendingReadRequests = c.mPendingReadRequests := by
  cases large <;> exact ⟨rfl, rfl, rfl, rfl, rfl⟩

theorem Consistent.dataStep (h : Consistent c) {large : Bool} {d : Download}
    (hd : d ∈ c.downloads large) {offset : Nat} (hs : DataStep c large d offset c') :
    Keeps c c' := by
  cases hs with
  | aborted => exact ⟨h, id⟩
  | skipped =>
    refine ⟨h.setEnd large d _, fun hsize => ?_⟩
    obtain ⟨hps, hsz, -⟩ := setEnd_frame c large d _
    rw [hps, hsz, hsize]
  | @written e hlt hend k _ hupd =>
    have hin := h.inFile large d hd
    have hbound := h.bound
    obtain ⟨k', _, hk', hst, hps, hsz, _⟩ := h.updateRanges (r := ⟨offset, e⟩) hlt.le
      (by simp only; omega) (.inl hlt)
    rw [hupd] at hk'
    cases hk'
    have hmax : max c.size e = k.size := by omega
    simp only [hmax] at hst hps
    have hst' := Consistent.setEnd hst large d e
    refine ⟨{ hst' with }, fun _ => ?_⟩
    obtain ⟨hps', hsz', -⟩ := setEnd_frame k large d e
    exact hps'.trans (hps.trans hsz'.symm)

/-! ## 2. Downloads that complete -/

theorem SameFile.keeps (hs : SameFile c c') (h : Consistent c') : Keeps c c' :=
  ⟨h, fun hsize => by rw [hs.persistedSize, hs.size, hsize]⟩

section

variable (h : Consistent c)
include h

theorem Consistent.completed : Keeps c (c.completed large d) := by
  refine (SameFile.completed c large d).keeps
    (h.of_cutDown (r := d.range) (.completed c large d) fun large' => ?_)
  rw [downloads_completed]
  split
  · rename_i heq
    rw [heq]
    exact .of_sublist (h.downloads large) erase_sublist
  · exact .of_sublist (h.downloads large') (List.Sublist.refl _)

theorem Consistent.failed (r) : Consistent (c.failed r) :=
  { h with }

/-! ## 3. Reads -/

/-- A download that fits into its map is added. When it cannot be created, it is taken out again and
    the reads in its range fail. -/
theorem addDownload_fit (large : Bool) {a z : List Download}
    (hmap : c.downloads large = a ++ z) (hr : r.mBegin < r.mEnd)
    (ha : ∀ d ∈ a, d.range.mEnd ≤ r.mBegin) (hz : ∀ d ∈ z, r.mEnd ≤ d.range.mBegin) (created : Bool) :
    c.addDownload large r created =
      some (if created then c.setDownloads large (a ++ ⟨r, r.mBegin⟩ :: z) else c.failed r) := by
  have hap := h.downloads large
  rw [hmap] at hap
  have htry : tryAdd (fun x => (⟨x, x.mBegin⟩ : Download)) (a ++ z) r = _ :=
    tryAdd_fit hap hr ha hz
  unfold addDownload
  rw [hmap, htry]
  simp only
  split
  · rfl
  -- what is taken out is what was put in
  have herase := erase_middle (hap.insert (v := (⟨r, r.mBegin⟩ : Download)) hr ha hz)
  have hof : ofEnds r.mBegin r.mEnd = r := ofEnds_of_le (by omega)
  congr 1
  unfold FileContext.completed
  rw [downloads_setDownloads, if_pos rfl, herase, hof]
  cases large
  · rw [← hmap]
    rfl
  rw [← hmap]
  rfl

theorem Consistent.setDownloads_insert {a z : List Download}
    (hmap : c.downloads large = a ++ z) (hr : r.mBegin < r.mEnd) (hin : r.mEnd ≤ c.size)
    (ha : ∀ d ∈ a, d.range.mEnd ≤ r.mBegin) (hz : ∀ d ∈ z, r.mEnd ≤ d.range.mBegin) :
    Consistent (c.setDownloads large (a ++ ⟨r, r.mBegin⟩ :: z)) := by
  have hap := h.downloads large
  rw [hmap] at hap
  refine h.setDownloads large (hap.insert hr ha hz) fun d hd => ?_
  rcases mem_append.1 hd with hd | hd
  · exact h.inFile large d (by simp [hmap, hd])
  rcases mem_cons.1 hd with rfl | hd
  · exact hin
  · exact h.inFile large d (by simp [hmap, hd])

/-- A large download begins in the file, and not behind a position that is not on disk. -/
theorem largeBegin_le (opt : ServiceOptions) (bitrate : Nat) {p : Nat} (hp : p < c.size) :
    largeBegin opt c bitrate p ≤ c.size ∧ (p ∉ cover c.mOnDisk → largeBegin opt c bitrate p ≤ p) := by
  unfold largeBegin
  simp only
  generalize hq : p - min (u64 (opt.mJumpBackwardDistance * downloadBitrate bitrate) / 8 / 1000) p
    - (p - min (u64 (opt.mJumpBackwardDistance * downloadBitrate bitrate) / 8 / 1000) p) %
      2 ^ opt.mJumpBackwardAlignment = q
  have hqp : q ≤ p := hq ▸ (Nat.sub_le _ _).trans (Nat.sub_le _ _)
  cases he : endsAfter c.mOnDisk q with
  | nil => exact ⟨by simp only; omega, fun _ => hqp⟩
  | cons r rest =>
    have hr : r ∈ c.mOnDisk := (dropWhile_sublist _).subset (by
      show r ∈ endsAfter c.mOnDisk q
      simp [he])
    simp only
    split
    · rename_i hb
      -- `r` holds `q`, so it would hold `p` if it ended behind it
      exact ⟨h.within r hr, fun hnot => not_lt.1 fun hlt =>
        hnot ⟨r, hr, hb.trans hqp, hlt⟩⟩
    · exact ⟨by omega, fun _ => hqp⟩

/-- A small prefix begins where the request does, and is not empty. -/
theorem isSmallPrefix_spec {r' : FileRange} (hp : isSmallPrefix opt c r = some r') :
    r'.mBegin = r.mBegin ∧ r'.mBegin < r'.mEnd ∧ r'.mEnd ≤ r.mEnd := by
  unfold isSmallPrefix at hp
  split at hp
  · cases hp
  rename_i d rest hb
  have hd : d ∈ beginsAfter c.mLarge r.mBegin := by simp [hb]
  have hlt : r.mBegin < d.range.mBegin := mem_beginsAfter (h.downloads true) hd
  split at hp
  · cases hp
  rename_i hend
  split at hp
  · cases hp
  · cases hp
    exact ⟨rfl, hlt, (not_le.1 hend).le⟩

end

/-- `k` is `c`, with the request `q` queued unless its beginning is on disk. -/
def Queued (c : FileContext) (q : FileReadRequest) (k : FileContext) : Prop :=
  (q.mRange.mBegin ∈ cover c.mOnDisk ∧ k = c) ∨
    (q.mRange.mBegin ∉ cover c.mOnDisk ∧ k = c.queueRequest q)

/-- **All that a read can do** once a jump has replaced the large download or not: complete; wait
    for a download that has its beginning; wait because a large download is in progress; or wait and
    begin a large or a small download. -/
inductive ReadStep (opt : ServiceOptions) (c : FileContext) (q : FileReadRequest) :
    FileContext → Prop
  | completed (hdisk : q.mRange.mBegin ∈ cover c.mOnDisk) : ReadStep opt c q c
  | waits (hdisk : q.mRange.mBegin ∉ cover c.mOnDisk)
      (hw : q.mRange.mBegin ∈ cover c.mLarge ∨ q.mRange.mBegin ∈ cover c.mSmall) :
      ReadStep opt c q (c.queueRequest q)
  | busy (hdisk : q.mRange.mBegin ∉ cover c.mOnDisk) (hlarge : c.mLarge ≠ [])
      (hlen : q.mRange.length > opt.mImmediateDownloadThreshold)
      (hpre : isSmallPrefix opt c q.mRange = none) : ReadStep opt c q (c.queueRequest q)
  | large {k : FileContext} (hk : Queued c q k) (hempty : c.mLarge = []) {b : Nat} (hb : b < c.size)
      (hle : q.mRange.mBegin ∉ cover c.mOnDisk → b ≤ q.mRange.mBegin) (created : Bool) :
      ReadStep opt c q
        (if created then k.setDownloads true [⟨⟨b, c.size⟩, b⟩] else k.failed ⟨b, c.size⟩)
  | small (hdisk : q.mRange.mBegin ∉ cover c.mOnDisk) {x : FileRange} {a z : List Download}
      (hmap : c.mSmall = a ++ z) (hx : x.mBegin < x.mEnd) (hin : x.mEnd ≤ c.size)
      (hcov : x.mBegin = q.mRange.mBegin ∨ q.mRange.mBegin ∈ cover c.mSmall)
      (ha : ∀ d ∈ a, d.range.mEnd ≤ x.mBegin) (hz : ∀ d ∈ z, x.mEnd ≤ d.range.mBegin)
      (created : Bool) :
      ReadStep opt c q
        (if created then (c.queueRequest q).setDownloads false (a ++ ⟨x, x.mBegin⟩ :: z)
          else (c.queueRequest q).failed x)

section

variable (h : Consistent c)
include h

theorem Consistent.queueRequest (q) : Consistent (c.queueRequest q) :=
  { h with }

theorem Consistent.queued {k : FileContext} (hk : Queued c q k) : Consistent k := by
  rcases hk with ⟨_, rfl⟩ | ⟨_, rfl⟩
  · exact h
  · exact h.queueRequest q

theorem readLarge_cases (opt : ServiceOptions) (bitrate : Nat) (created : Bool)
    (hq : q.mRange.mBegin < c.size) (hlen : q.mRange.length > opt.mImmediateDownloadThreshold)
    (hpre : isSmallPrefix opt c q.mRange = none) :
    ∃ c', c.readLarge opt bitrate created q = some c' ∧ ReadStep opt c q c' := by
  unfold readLarge
  simp only
  generalize hk : (if contains c.mOnDisk q.mRange.mBegin = [] then c.queueRequest q else c) = k
  have hqk : Queued c q k := by
    rw [← hk]
    split_ifs with hnil
    · exact .inr ⟨(contains_eq_nil_iff h.apart).1 hnil, rfl⟩
    · exact .inl ⟨not_not.1 fun hnot => hnil ((contains_eq_nil_iff h.apart).2 hnot), rfl⟩
  have hst := h.queued hqk
  have hframe : k.mLarge = c.mLarge ∧ k.mOnDisk = c.mOnDisk ∧ k.size = c.size := by
    rcases hqk with ⟨_, rfl⟩ | ⟨_, rfl⟩ <;> exact ⟨rfl, rfl, rfl⟩
  rw [hframe.1, hframe.2.2]
  split
  · rename_i hne
    refine ⟨k, rfl, ?_⟩
    rcases hqk with ⟨hdisk, rfl⟩ | ⟨hdisk, rfl⟩
    · exact .completed hdisk
    · exact .busy hdisk hne hlen hpre
  rename_i hempty
  rw [not_not] at hempty
  obtain ⟨hle, hbeg⟩ := largeBegin_le hst opt bitrate (hframe.2.2 ▸ hq)
  rw [hframe.2.1] at hbeg
  split
  · rename_i hne
    have hnil : k.downloads true = [] ++ [] := by simpa [hempty] using hframe.1
    rw [addDownload_fit hst true hnil (by simp only; omega) (by simp) (by simp) created]
    exact ⟨_, rfl, .large hqk hempty (by omega) hbeg created⟩
  refine ⟨k, rfl, ?_⟩
  -- everything from the beginning of the request on is on disk
  rcases hqk with ⟨hdisk, rfl⟩ | ⟨hdisk, rfl⟩
  · exact .completed hdisk
  · have := hbeg hdisk
    omega

theorem readSmall_cases (opt : ServiceOptions) (bitrate : Nat) (created : Bool)
    (hq : q.mRange.mBegin < c.size) (hlen : q.mRange.mBegin < q.mRange.mEnd) :
    ∃ c', c.readSmall opt bitrate created q = some c' ∧ ReadStep opt c q c' := by
  unfold readSmall
  split_ifs with hne
  · exact ⟨c, rfl, .completed (not_not.1 fun hnot => hne ((contains_eq_nil_iff h.apart).2 hnot))⟩
  rw [not_not] at hne
  have hdisk := (contains_eq_nil_iff h.apart).1 hne
  have hst := h.queueRequest q
  simp only
  split
  · rename_i hex
    obtain ⟨d, hd, _⟩ := hex
    refine ⟨_, rfl, .waits hdisk (.inl ?_)⟩
    rcases contains_cases (h.downloads true) q.mRange.mBegin with ⟨hnil', _⟩ | ⟨v, -, _, hv, hp⟩
    · have hd' : d ∈ (contains (c.downloads true) q.mRange.mBegin).head? := hd
      rw [hnil'] at hd'
      cases hd'
    · exact ⟨v, hv, hp⟩
  -- the range of the small download: not empty, and in the file
  have hlt : q.mRange.mBegin < q.mRange.mBegin +
      min (max opt.mMinimumRangeSize q.mRange.length) (c.size - q.mRange.mBegin) := by
    unfold FileRange.length
    omega
  generalize hr : (⟨q.mRange.mBegin, q.mRange.mBegin + min (max opt.mMinimumRangeSize
    q.mRange.length) ((c.queueRequest q).size - q.mRange.mBegin)⟩ : FileRange) = r
  have hrb : r.mBegin = q.mRange.mBegin := by rw [← hr]
  have hsize : (c.queueRequest q).size = c.size := rfl
  have hre : r.mEnd ≤ c.size := by
    rw [← hr, hsize]
    simp only
    omega
  have hqueue : (c.queueRequest q).mSmall = c.mSmall := rfl
  have hsmall := h.downloads false
  rw [downloads_false] at hsmall
  rcases gaps_head hsmall (r := r) (hr ▸ hlt) with
    ⟨hg, hcov⟩ | ⟨x, rest, a, z, hg, hmap, hcov, ha, hz⟩
  · rw [hqueue, hg]
    exact ⟨_, rfl, .waits hdisk (.inr (hrb ▸ hcov))⟩
  have hxw := gaps_within hsmall x (hg ▸ mem_cons_self)
  rw [hqueue, hg]
  have hfit := addDownload_fit hst false hmap hxw.2.1 ha hz created
  exact ⟨_, hfit, .small hdisk hmap hxw.2.1 (hxw.2.2.trans hre) (hrb ▸ hcov) ha hz created⟩

end

theorem clamp_size (r : FileRange) (n : Nat) :
    (r.clamp 0 n).mBegin ≤ (r.clamp 0 n).mEnd ∧ (r.clamp 0 n).mEnd ≤ n := by
  simp only [clamp, ofEnds]
  omega

section

variable (h : Consistent c)
include h

theorem Consistent.replace : Consistent (c.replace d) :=
  ⟨h.rows, h.bound, h.apart, h.within, fun large => by
    cases large
    · exact h.downloads false
    · exact (h.downloads true).sublist erase_sublist, fun large x hx => by
    cases large
    · exact h.inFile false x hx
    · exact h.inFile true x (erase_sublist.subset hx)⟩

theorem Consistent.jump (opt bitrate q) : Keeps c (jump opt c bitrate q) := by
  unfold FileContext.jump
  split
  · exact ⟨h, id⟩
  · exact ⟨h.replace _, id⟩

/-- **All that `execute(FileReadRequest&)` can do.** The request that is queued begins where the
    caller's does, within the file. -/
theorem read_cases (opt : ServiceOptions) (bitrate : Nat) (created : Bool) (q : FileReadRequest) :
    ∃ c', c.read opt bitrate created q = some c' ∧
      (c' = c ∨ ∃ q', q'.mRange.mBegin = (q.mRange.clamp 0 c.size).mBegin ∧
        q'.mRange.length ≤ (q.mRange.clamp 0 c.size).length ∧ q'.mRange.mBegin < c.size ∧
        ReadStep opt (jump opt c bitrate { q with mRange := q.mRange.clamp 0 c.size }) q' c') := by
  have hcl := clamp_size q.mRange c.size
  unfold read
  simp only
  generalize q.mRange.clamp 0 c.size = r at hcl
  split
  · exact ⟨c, rfl, .inl rfl⟩
  rename_i hne
  have hlt : r.mBegin < r.mEnd := by
    unfold FileRange.empty at hne
    omega
  have hst := (h.jump opt bitrate { q with mRange := r }).consistent
  have hsize : (jump opt c bitrate { q with mRange := r }).size = c.size := by
    unfold FileContext.jump
    split <;> rfl
  generalize jump opt c bitrate { q with mRange := r } = k at hst hsize
  have hq : r.mBegin < k.size := by omega
  split
  · rename_i hlen
    cases hp : isSmallPrefix opt k r with
    | none =>
      obtain ⟨c', hc', hs⟩ := readLarge_cases hst opt bitrate created
        (q := { q with mRange := r }) hq hlen hp
      exact ⟨c', hc', .inr ⟨_, rfl, le_rfl, hsize ▸ hq, hs⟩⟩
    | some r' =>
      obtain ⟨hb, hlt', hend⟩ := isSmallPrefix_spec hst hp
      have hlen' : r'.length ≤ r.length := by
        unfold FileRange.length
        omega
      obtain ⟨c', hc', hs⟩ := readSmall_cases hst opt bitrate created
        (q := { q with mRange := r' }) (hb ▸ hq) hlt'
      exact ⟨c', hc', .inr ⟨_, hb, hlen', hsize ▸ hb ▸ hq, hs⟩⟩
  · obtain ⟨c', hc', hs⟩ := readSmall_cases hst opt bitrate created
      (q := { q with mRange := r }) hq hlt
    exact ⟨c', hc', .inr ⟨_, rfl, le_rfl, hsize ▸ hq, hs⟩⟩

theorem Consistent.readStep {opt : ServiceOptions} (hs : ReadStep opt c q c') : Keeps c c' := by
  have hqueue : ∀ {k : FileContext}, Queued c q k → k.persistedSize = c.persistedSize ∧ k.size = c.size := by
    rintro k (⟨_, rfl⟩ | ⟨_, rfl⟩) <;> exact ⟨rfl, rfl⟩
  cases hs with
  | completed => exact ⟨h, id⟩
  | waits | busy => exact ⟨h.queueRequest q, id⟩
  | @large k hk hempty b hb hle created =>
    have hst := h.queued hk
    obtain ⟨hps, hsz⟩ := hqueue hk
    have hnil : k.downloads true = [] ++ [] := by
      rcases hk with ⟨_, rfl⟩ | ⟨_, rfl⟩ <;> exact hempty
    cases created with
    | true =>
      refine ⟨hst.setDownloads_insert true hnil hb (by rw [hsz]) (by simp) (by simp), ?_⟩
      intro hsize
      exact hps.trans (hsize.trans hsz.symm)
    | false => exact ⟨hst.failed _, fun hsize => hps.trans (hsize.trans hsz.symm)⟩
  | @small hdisk x a z hmap hx hin hcov ha hz created =>
    have hst := h.queueRequest q
    cases created with
    | true => exact ⟨hst.setDownloads_insert false hmap hx hin ha hz, id⟩
    | false => exact ⟨hst.failed _, id⟩

end

theorem Keeps.trans {c'' : FileContext} (h : Keeps c c') (h' : Keeps c' c'') : Keeps c c'' :=
  ⟨h'.consistent, fun hsize => h'.size (h.size hsize)⟩

theorem Consistent.read (h : Consistent c) (opt) (bitrate) (created)
    (q) : ∃ c', c.read opt bitrate created q = some c' ∧ Keeps c c' := by
  obtain ⟨c', hc', hs⟩ := read_cases h ..
  refine ⟨c', hc', ?_⟩
  rcases hs with rfl | ⟨q', _, _, _, hs⟩
  · exact ⟨h, id⟩
  · have hj := h.jump opt bitrate { q with mRange := q.mRange.clamp 0 c.size }
    exact hj.trans (hj.consistent.readStep hs)

end FileContext

end MegaSdk.FileService
