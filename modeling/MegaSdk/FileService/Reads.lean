/-
  File:      MegaSdk/FileService/Reads.lean
  Subject:   EVERY PENDING READ IS REACHED BY A DOWNLOAD (file_context.cpp).

  * `Downloading` -- what the downloads have to do with what is on disk;
  * `Awaited`, `Reachable` -- a position is still to be downloaded, or a replaced download is still to
    fail the reads that begin there;
  * `Reached` -- every pending read is;
  * `Orphans` -- the read that is queued although no download has its beginning;
  * **`pending_reached`** -- so every pending read is reached, after every step of a run without
    orphans;
  * `fetch_left_pending` -- an orphan: a fetch while a large download runs in the middle of the file.
-/
import MegaSdk.FileService.Store

namespace MegaSdk.FileService

open FileRangeTree List

namespace FileContext

variable {c c' k : FileContext} {r : FileRange} {d : Download} {opt : ServiceOptions}
  {q : FileReadRequest}
variable (large : Bool) {bitrate : Nat}

/-! ## 1. The invariant -/

/-- What the downloads of a context have to do with what is on disk: a download has put on disk what
    it has downloaded; there is one large download at most, and what is behind it is on disk. -/
structure Downloading (c : FileContext) : Prop where
  consistent : Consistent c
  one : c.mLarge.length ≤ 1
  le : ∀ large, ∀ d ∈ c.downloads large, d.mEnd ≤ d.range.mEnd
  onDisk : ∀ large, ∀ d ∈ c.downloads large, ∀ p, d.range.mBegin ≤ p → p < d.mEnd →
    p ∈ cover c.mOnDisk
  behind : ∀ d ∈ c.mLarge, ∀ p, d.range.mEnd ≤ p → p < c.size → p ∈ cover c.mOnDisk

/-- Position `p` is in the not yet downloaded part of a download in `mLarge` or `mSmall`. -/
def Awaited (c : FileContext) (p : Nat) : Prop :=
  ∃ large, ∃ d ∈ c.downloads large, d.mEnd ≤ p ∧ p < d.range.mEnd

/-- Data arriving at `p`, or a download that completes, will reach a read that begins there. -/
def Reachable (c : FileContext) (p : Nat) : Prop :=
  Awaited c p ∨ ∃ r ∈ c.replaced, r.mBegin ≤ p ∧ p ≤ r.mEnd

/-- **Every pending read is reached**, and none could be completed from disk. -/
structure Reached (c : FileContext) : Prop extends Downloading c where
  off : ∀ q ∈ c.mPendingReadRequests, q.mRange.mBegin ∉ cover c.mOnDisk
  reached : ∀ q ∈ c.mPendingReadRequests, Reachable c q.mRange.mBegin

section

variable (h : Downloading c)
include h

theorem Downloading.awaited {p : Nat}
    (hdisk : p ∉ cover c.mOnDisk) (hp : p ∈ cover (c.downloads large)) : Awaited c p := by
  obtain ⟨d, hd, hb, he⟩ := hp
  refine ⟨large, d, hd, not_lt.1 fun hlt => hdisk ?_, he⟩
  exact h.onDisk large d hd p hb hlt

theorem Downloading.other (l : List FileReadRequest) (o : List FileRange) :
    Downloading { c with mPendingReadRequests := l, replaced := o } :=
  have hc := h.consistent
  ⟨{ hc with }, h.one, h.le, h.onDisk, h.behind⟩

theorem Downloading.eq_singleton (hd : d ∈ c.mLarge) : c.mLarge = [d] := by
  obtain ⟨a, ha⟩ := length_eq_one_iff.1 (h.one.antisymm (length_pos_of_mem hd))
  rw [ha] at hd ⊢
  rw [mem_singleton.1 hd]

/-- **After `failed(range)` every pending read is reached**, if those in `r` are the only ones that
    were not. -/
theorem Downloading.failed
    (hoff : ∀ q ∈ c.mPendingReadRequests, q.mRange.mBegin ∉ cover c.mOnDisk)
    (hq : ∀ q ∈ c.mPendingReadRequests, Reachable c q.mRange.mBegin ∨
      (r.mBegin ≤ q.mRange.mBegin ∧ q.mRange.mBegin ≤ r.mEnd)) : Reached (c.failed r) := by
  have hcons := h.consistent
  refine ⟨h.other _ _, fun q hmem => ?_, fun q hmem => ?_⟩
  · exact hoff q (mem_filter.1 hmem).1
  obtain ⟨hmem, hkept⟩ := mem_filter.1 hmem
  rcases hq q hmem with hreach | ⟨hb, he⟩
  · exact hreach
  -- a read in `r` is kept for a download that has its beginning
  have hcov : q.mRange.mBegin ∈ cover (c.downloads true) ∨
      q.mRange.mBegin ∈ cover (c.downloads false) := by
    refine not_not.1 fun hnot => ?_
    rw [not_or] at hnot
    have h1 := (contains_eq_nil_iff (hcons.downloads true)).2 hnot.1
    have h2 := (contains_eq_nil_iff (hcons.downloads false)).2 hnot.2
    rw [downloads_true] at h1
    rw [downloads_false] at h2
    simp [hb, he, h1, h2] at hkept
  rcases hcov with hc | hc
  · exact .inl (h.awaited true (hoff q hmem) hc)
  · exact .inl (h.awaited false (hoff q hmem) hc)

/-! ## 2. Callbacks -/

theorem Downloading.of_sublist {m : List Download}
    (hm : m.Sublist (c.downloads large)) : Downloading (c.setDownloads large m) := by
  have hsub : ∀ large', ((c.setDownloads large m).downloads large').Sublist (c.downloads large') :=
    fun large' => by
      rw [downloads_setDownloads]
      split_ifs with heq
      · rwa [heq]
      · exact List.Sublist.refl _
  obtain ⟨_, hdisk, _, hsize, _, _⟩ := setDownloads_frame ..
  refine ⟨h.consistent.of_cutDown (r := {}) (.setDownloads c large m) fun large' =>
    .of_sublist (h.consistent.downloads large') (hsub large'), ?_, fun large' d hd => ?_,
    fun large' d hd => ?_, fun d hd => ?_⟩
  · exact (hsub true).length_le.trans h.one
  · exact h.le large' d ((hsub large').subset hd)
  · rw [hdisk]
    exact h.onDisk large' d ((hsub large').subset hd)
  · rw [hdisk, hsize]
    exact h.behind d ((hsub true).subset hd)

end

/-- **A download completes**: the reads that it was to reach fail, or wait for another. -/
theorem Reached.completed (h : Reached c) {large} (hd : d ∈ c.downloads large) :
    Reached (c.completed large d) := by
  have hdown := h.toDownloading.of_sublist large
    (erase_sublist (a := d))
  obtain ⟨_, hdisk, _, _, hrep, hpend⟩ := setDownloads_frame c large ((c.downloads large).erase d)
  refine hdown.failed ?_ ?_
  · rw [hpend, hdisk]
    exact h.off
  rw [hpend]
  intro q hq
  rcases h.reached q hq with ⟨large', d', hd', hb, he⟩ | ⟨r, hr, hb, he⟩
  · by_cases heq : large' = large ∧ d' = d
    · obtain ⟨rfl, rfl⟩ := heq
      exact .inr ⟨(min_le_left _ _).trans hb, he.le.trans (le_max_right _ _)⟩
    · refine .inl (.inl ⟨large', d', ?_, hb, he⟩)
      rw [downloads_setDownloads]
      split_ifs with hl
      · subst hl
        exact (mem_erase_of_ne fun he => heq ⟨rfl, he⟩).2 hd'
      · exact hd'
  · exact .inl (.inr ⟨r, hrep ▸ hr, hb, he⟩)

theorem Reached.completedReplaced (h : Reached c) : Reached (c.completedReplaced r) := by
  refine (h.toDownloading.other _ _).failed h.off fun q hq => ?_
  rcases h.reached q hq with ha | ⟨r', hr', hb, he⟩
  · exact .inl (.inl ha)
  by_cases heq : r' = r
  · exact .inr (heq ▸ ⟨hb, he⟩)
  · exact .inl (.inr ⟨r', (mem_erase_of_ne heq).2 hr', hb, he⟩)

theorem Downloading.setEnd (h : Downloading c) (large : Bool) {e : Nat} (he : e ≤ d.range.mEnd)
    (hdisk : ∀ p, d.range.mBegin ≤ p → p < e → p ∈ cover c.mOnDisk) :
    Downloading (c.setEnd large d e) := by
  have hmem : ∀ (large' : Bool) {y : Download}, y ∈ (c.setEnd large d e).downloads large' →
      ∃ x ∈ c.downloads large', y.range = x.range ∧ (y = x ∨ (x = d ∧ y.mEnd = e)) := by
    intro large' y hy
    unfold FileContext.setEnd at hy
    rw [downloads_setDownloads] at hy
    split_ifs at hy with hl
    · obtain ⟨x, hx, rfl⟩ := mem_map.1 hy
      refine ⟨x, hl ▸ hx, range_setEnd d e x, ?_⟩
      split_ifs with heq
      · exact .inr ⟨heq, rfl⟩
      · exact .inl rfl
    · exact ⟨y, hy, rfl, .inl rfl⟩
  obtain ⟨-, hsz, hdk, -, -⟩ := setEnd_frame c large d e
  refine ⟨h.consistent.setEnd large d e, ?_, fun large' y hy => ?_, fun large' y hy => ?_,
    fun y hy => ?_⟩
  · have hlen : (c.setEnd large d e).mLarge.length = c.mLarge.length := by
      cases large
      · rfl
      · exact length_map _
    exact hlen ▸ h.one
  · obtain ⟨x, hx, hr, rfl | ⟨rfl, hye⟩⟩ := hmem large' hy
    · exact h.le large' y hx
    · rwa [hr, hye]
  · obtain ⟨x, hx, hr, rfl | ⟨rfl, hye⟩⟩ := hmem large' hy
    · rw [hdk]
      exact h.onDisk large' y hx
    · rwa [hr, hye, hdk]
  obtain ⟨x, hx, hr, _⟩ := hmem true hy
  rw [hr, hdk, hsz]
  exact h.behind x hx

theorem awaited_setEnd {e p : Nat} (h : Awaited c p)
    (hp : d.mEnd ≤ p → p < d.range.mEnd → e ≤ p) : Awaited (c.setEnd large d e) p := by
  obtain ⟨large', x, hx, hb, he⟩ := h
  by_cases heq : large' = large ∧ x = d
  · obtain ⟨rfl, rfl⟩ := heq
    refine ⟨large', { x with mEnd := e }, ?_, hp hb he, he⟩
    unfold FileContext.setEnd
    rw [downloads_setDownloads, if_pos rfl]
    exact mem_map.2 ⟨x, hx, if_pos rfl⟩
  refine ⟨large', x, ?_, hb, he⟩
  unfold FileContext.setEnd
  rw [downloads_setDownloads]
  split
  · subst_vars
    exact mem_map.2 ⟨x, hx, if_neg fun he => heq ⟨rfl, he⟩⟩
  · exact hx

theorem Downloading.updateRanges (h : Downloading c) (hr : r.mBegin ≤ r.mEnd)
    (hlt : r.mEnd + 1 < 2 ^ 64) (hne : r.mBegin < r.mEnd ∨ ∃ v ∈ c.mOnDisk, v.mEnd = r.mBegin)
    {x : FileRange} (hk : c.updateRanges r = some (k, x)) :
    Downloading { k with size := max c.size r.mEnd } ∧ k.size = c.size ∧
      (∀ large, k.downloads large = c.downloads large) ∧
      k.mPendingReadRequests = c.mPendingReadRequests ∧ k.replaced = c.replaced ∧
      ∀ p, p ∈ cover k.mOnDisk ↔ p ∈ cover c.mOnDisk ∨ (min r.mBegin c.size ≤ p ∧ p < r.mEnd) := by
  obtain ⟨k', _, hk', hst, _, hsz, hdown, hpend, hrep, hcov⟩ := h.consistent.updateRanges hr hlt hne
  rw [hk] at hk'
  cases hk'
  have hd : ∀ large, ({ k with size := max c.size r.mEnd } : FileContext).downloads large =
      c.downloads large := hdown
  refine ⟨⟨hst, ?_, fun large d hmem => ?_, fun large d hmem p hb he => ?_, fun d hmem p he hp => ?_⟩,
    hsz, hdown, hpend, hrep, hcov⟩
  · have hone : k.mLarge = c.mLarge := hdown true
    simp only [hone]
    exact h.one
  · exact h.le large d (hd large ▸ hmem)
  · exact (hcov p).2 (.inl (h.onDisk large d (hd large ▸ hmem) p hb he))
  refine (hcov p).2 ?_
  by_cases hps : p < c.size
  · have hl : k.mLarge = c.mLarge := hdown true
    exact .inl (h.behind d (hl ▸ hmem) p he hps)
  · simp only at hp
    exact .inr (by omega)

/-- **Data arrives**, no later than where the downloaded data ends. -/
theorem Reached.dataStep (h : Reached c) {large : Bool} (hd : d ∈ c.downloads large) {offset : Nat}
    (hof : offset ≤ d.mEnd) (hs : DataStep c large d offset c') : Reached c' := by
  cases hs with
  | aborted => exact h
  | @skipped e hle hend hdisk =>
    have hcov : ∀ p, d.range.mBegin ≤ p → p < e → p ∈ cover c.mOnDisk := fun p hb he => by
      by_cases hp : p < d.mEnd
      · exact h.onDisk large d hd p hb hp
      · exact hdisk p (by omega) he
    obtain ⟨-, -, hdk, hrep, hpend⟩ := setEnd_frame c large d e
    refine ⟨h.toDownloading.setEnd large hend hcov, ?_, ?_⟩
    · rw [hpend, hdk]
      exact h.off
    rw [hpend]
    intro q hq
    rcases h.reached q hq with ha | ⟨r, hr, hb⟩
    · refine .inl (awaited_setEnd large ha fun hb _ => not_lt.1 fun hlt => ?_)
      exact h.off q hq (hdisk _ (hof.trans hb) hlt)
    · exact .inr ⟨r, hrep.symm ▸ hr, hb⟩
  | @written e hlt hend k _ hupd =>
    have hin := h.consistent.inFile large d hd
    have hbound := h.consistent.bound
    obtain ⟨hdown, hsz, hdl, hpend, hrep, hcov⟩ := h.toDownloading.updateRanges
      hlt.le (by simp only; omega) (.inl hlt) hupd
    have hmax : max c.size e = k.size := by omega
    simp only [hmax] at hdown
    have hmin : min offset c.size = offset := by omega
    simp only [hmin] at hcov
    have hon : ∀ p, d.range.mBegin ≤ p → p < e → p ∈ cover k.mOnDisk := fun p hb he => by
      refine (hcov p).2 ?_
      by_cases hp : p < d.mEnd
      · exact .inl (h.onDisk large d hd p hb hp)
      · exact .inr ⟨by omega, he⟩
    obtain ⟨-, -, hdk, hrep', hpend'⟩ := setEnd_frame k large d e
    -- a read that is left was pending, and does not begin in the written data
    have hleft : ∀ q ∈ ((k.setEnd large d e).dispatch ⟨offset, e⟩).mPendingReadRequests,
        q ∈ c.mPendingReadRequests ∧ ¬ (offset ≤ q.mRange.mBegin ∧ q.mRange.mBegin < e) := by
      intro q hq
      obtain ⟨hq, hnot⟩ := mem_filter.1 hq
      rw [hpend', hpend] at hq
      exact ⟨hq, of_decide_eq_true hnot⟩
    refine ⟨(Downloading.setEnd hdown large hend hon).other _ _, fun q hq hmem => ?_, fun q hq => ?_⟩
    · obtain ⟨hq, hnot⟩ := hleft q hq
      rcases (hcov _).1 (hdk ▸ hmem) with hm | hm
      · exact h.off q hq hm
      · exact hnot hm
    obtain ⟨hq, hnot⟩ := hleft q hq
    rcases h.reached q hq with ha | ⟨r, hr, hb⟩
    · have ha' : Awaited k q.mRange.mBegin := by
        obtain ⟨large', x, hx, hxb⟩ := ha
        exact ⟨large', x, (hdl large').symm ▸ hx, hxb⟩
      exact .inl (awaited_setEnd large ha' fun hb _ => by omega)
    · exact .inr ⟨r, (hrep'.trans hrep).symm ▸ hr, hb⟩

/-! ## 3. Reads -/

/-- **The read that nobody reaches**: a large read that begins more than the threshold before the
    large download in progress, does not replace it, and has neither data on disk nor a small
    download at its beginning. -/
def Orphans (opt : ServiceOptions) (c : FileContext) (bitrate : Nat) (q : FileReadRequest) : Prop :=
  isJump opt c bitrate q = none ∧ q.mRange.length > opt.mImmediateDownloadThreshold ∧
    q.mRange.mBegin ∉ cover c.mOnDisk ∧ q.mRange.mBegin ∉ cover c.mSmall ∧
    ∃ d ∈ c.mLarge, q.mRange.mBegin + opt.mImmediateDownloadThreshold < d.range.mBegin

theorem isJump_mem (h : isJump opt c bitrate q = some d) : d ∈ c.mLarge := by
  unfold isJump at h
  split at h
  · cases h
  split at h
  · cases h
  cases hl : c.mLarge with
  | nil => rw [hl] at h; cases h
  | cons x rest =>
    rw [hl] at h
    simp only at h
    split at h
    · cases h
    split at h
    · split at h
      · cases h
      · cases h; exact mem_cons_self
    split at h
    · cases h
    split at h
    · cases h
    · cases h; exact mem_cons_self

section

variable (h : Reached c)
include h

/-- The reads a replaced download was to reach wait for it to complete. -/
theorem Reached.replace (hd : d ∈ c.mLarge) :
    Reached (c.replace d) ∧ (c.replace d).mLarge = [] := by
  have hl := h.eq_singleton hd
  have hempty : (c.replace d).mLarge = [] := by
    show c.mLarge.erase d = []
    rw [hl, erase_cons_head]
  have hsub : ∀ large x, x ∈ (c.replace d).downloads large → x ∈ c.downloads large := by
    intro large x hx
    cases large
    · exact hx
    · exact erase_sublist.subset hx
  refine ⟨⟨⟨h.consistent.replace d, by simp [hempty], fun large x hx => h.le large x (hsub large x hx),
    fun large x hx => h.onDisk large x (hsub large x hx), fun x hx => h.behind x (hsub true x hx)⟩,
    h.off, fun q hq => ?_⟩, hempty⟩
  rcases h.reached q hq with ⟨large, x, hx, hb, he⟩ | ⟨r, hr, hb⟩
  · cases large with
    | false => exact .inl ⟨false, x, hx, hb, he⟩
    | true =>
      rw [downloads_true, hl, mem_singleton] at hx
      subst hx
      refine .inr ⟨_, mem_cons_self, ?_, ?_⟩
      · exact (min_le_left _ _).trans hb
      · exact he.le.trans (le_max_right _ _)
  · exact .inr ⟨r, mem_cons_of_mem _ hr, hb⟩

theorem Reached.jump (opt bitrate q) :
    Reached (jump opt c bitrate q) ∧
      (isJump opt c bitrate q = none ∧ jump opt c bitrate q = c ∨ (jump opt c bitrate q).mLarge = []) := by
  unfold FileContext.jump
  cases hj : isJump opt c bitrate q with
  | none => exact ⟨h, .inl ⟨rfl, rfl⟩⟩
  | some d =>
    have hd := isJump_mem hj
    exact ⟨(h.replace hd).1, .inr (h.replace hd).2⟩

theorem Reached.queueRequest (hdisk : q.mRange.mBegin ∉ cover c.mOnDisk)
    (hr : Reachable c q.mRange.mBegin) : Reached (c.queueRequest q) := by
  refine ⟨h.toDownloading.other _ _, fun x hx => ?_, fun x hx => ?_⟩
  · rcases mem_cons.1 hx with rfl | hx
    · exact hdisk
    · exact h.off x hx
  rcases mem_cons.1 hx with rfl | hx
  · exact hr
  · exact h.reached x hx

/-- A large read that waits for the large download in progress begins in it, unless it is
    an orphan. -/
theorem Reached.awaited_of_busy (hsize : q.mRange.mBegin < c.size)
    (hdisk : q.mRange.mBegin ∉ cover c.mOnDisk) (hlarge : c.mLarge ≠ [])
    (hlen : q.mRange.length > opt.mImmediateDownloadThreshold)
    (hpre : isSmallPrefix opt c q.mRange = none) (hnot : q.mRange.mBegin ∉ cover c.mSmall →
      ∀ d ∈ c.mLarge, ¬ q.mRange.mBegin + opt.mImmediateDownloadThreshold < d.range.mBegin) :
    Awaited c q.mRange.mBegin := by
  by_cases hsmall : q.mRange.mBegin ∈ cover c.mSmall
  · exact h.toDownloading.awaited false hdisk hsmall
  obtain ⟨d, hd⟩ := exists_mem_of_ne_nil _ hlarge
  have hfar := hnot hsmall d hd
  refine h.toDownloading.awaited true hdisk ⟨d, by simpa using hd, ?_, ?_⟩
  · -- before the large download, the request would be a small prefix
    refine not_lt.1 fun hlt => ?_
    have hba : beginsAfter c.mLarge q.mRange.mBegin = [d] := by
      rw [h.eq_singleton hd]
      unfold beginsAfter
      rw [dropWhile_cons_of_neg (by simpa using hlt)]
    unfold isSmallPrefix at hpre
    rw [hba] at hpre
    simp only at hpre
    unfold FileRange.length at hlen
    split at hpre
    · omega
    split at hpre
    · omega
    · cases hpre
  · refine not_le.1 fun hle => hdisk (h.behind d hd _ hle hsize)

end

theorem Downloading.insert (h : Downloading c) {a z : List Download}
    (hmap : c.downloads large = a ++ z) (hr : r.mBegin < r.mEnd) (hin : r.mEnd ≤ c.size)
    (ha : ∀ d ∈ a, d.range.mEnd ≤ r.mBegin) (hz : ∀ d ∈ z, r.mEnd ≤ d.range.mBegin)
    (hone : large = true → a ++ z = [] ∧ r.mEnd = c.size) :
    Downloading (c.setDownloads large (a ++ ⟨r, r.mBegin⟩ :: z)) := by
  have hmem : ∀ large' d, d ∈ (c.setDownloads large (a ++ ⟨r, r.mBegin⟩ :: z)).downloads large' →
      d ∈ c.downloads large' ∨ (large' = large ∧ d = ⟨r, r.mBegin⟩) := by
    intro large' d hd
    rw [downloads_setDownloads] at hd
    split_ifs at hd with hl
    · subst hl
      rw [hmap]
      rcases mem_append.1 hd with hd | hd
      · exact .inl (mem_append_left _ hd)
      rcases mem_cons.1 hd with rfl | hd
      · exact .inr ⟨rfl, rfl⟩
      · exact .inl (mem_append_right _ hd)
    · exact .inl hd
  obtain ⟨_, hdisk, _, hsize, _, _⟩ := setDownloads_frame c large (a ++ ⟨r, r.mBegin⟩ :: z)
  refine ⟨h.consistent.setDownloads_insert large hmap hr hin ha hz, ?_, fun large' d hd => ?_,
    fun large' d hd p hb he => ?_, fun d hd p he hp => ?_⟩
  · cases large with
    | false => exact h.one
    | true =>
      obtain ⟨hnil, _⟩ := hone rfl
      rw [append_eq_nil_iff] at hnil
      obtain ⟨rfl, rfl⟩ := hnil
      exact le_rfl
  · rcases hmem large' d hd with hd | ⟨_, rfl⟩
    · exact h.le large' d hd
    · exact hr.le
  · rw [hdisk]
    rcases hmem large' d hd with hd | ⟨_, rfl⟩
    · exact h.onDisk large' d hd p hb he
    · simp only at hb he
      omega
  rw [hdisk]
  rw [hsize] at hp
  rcases hmem true d hd with hd | ⟨hl, rfl⟩
  · exact h.behind d hd p he hp
  obtain ⟨_, hend⟩ := hone hl.symm
  simp only at he
  omega

/-- A request is queued and a download begun: it reaches the request, or the download cannot be
    created and the request fails, unless another download reaches it. -/
theorem Reached.start (h : Reached c) {a z : List Download}
    (hmap : c.downloads large = a ++ z) (hr : r.mBegin < r.mEnd) (hin : r.mEnd ≤ c.size)
    (ha : ∀ d ∈ a, d.range.mEnd ≤ r.mBegin) (hz : ∀ d ∈ z, r.mEnd ≤ d.range.mBegin)
    (hone : large = true → a ++ z = [] ∧ r.mEnd = c.size) (hk : Queued c q k)
    (hq : q.mRange.mBegin ∉ cover c.mOnDisk → Awaited c q.mRange.mBegin ∨ r.contains q.mRange.mBegin)
    (created : Bool) :
    Reached (if created then k.setDownloads large (a ++ ⟨r, r.mBegin⟩ :: z) else k.failed r) := by
  have hframe : (∀ large, k.downloads large = c.downloads large) ∧ k.mOnDisk = c.mOnDisk ∧
      k.size = c.size ∧ k.replaced = c.replaced := by
    rcases hk with ⟨_, rfl⟩ | ⟨_, rfl⟩ <;> exact ⟨fun _ => rfl, rfl, rfl, rfl⟩
  have hdown : Downloading k := by
    rcases hk with ⟨_, rfl⟩ | ⟨_, rfl⟩
    · exact h.toDownloading
    · exact h.toDownloading.other _ _
  have hoff : ∀ x ∈ k.mPendingReadRequests, x.mRange.mBegin ∉ cover c.mOnDisk := by
    rcases hk with ⟨_, rfl⟩ | ⟨hdisk, rfl⟩
    · exact h.off
    intro x hx
    rcases mem_cons.1 hx with rfl | hx
    · exact hdisk
    · exact h.off x hx
  -- the other requests are reached as before, this one in `r`
  have hpend : ∀ x ∈ k.mPendingReadRequests,
      Reachable c x.mRange.mBegin ∨ r.contains x.mRange.mBegin := by
    rcases hk with ⟨_, rfl⟩ | ⟨hdisk, rfl⟩
    · exact fun x hx => .inl (h.reached x hx)
    intro x hx
    rcases mem_cons.1 hx with rfl | hx
    · exact (hq hdisk).imp_left .inl
    · exact .inl (h.reached x hx)
  have hreach : ∀ p, Reachable c p → Reachable k p := by
    rintro p (⟨l, d, hd, hb⟩ | ⟨x, hx, hb⟩)
    · exact .inl ⟨l, d, (hframe.1 l).symm ▸ hd, hb⟩
    · exact .inr ⟨x, hframe.2.2.2.symm ▸ hx, hb⟩
  cases created with
  | false =>
    refine hdown.failed (hframe.2.1 ▸ hoff) fun x hx => ?_
    exact (hpend x hx).imp (hreach _) fun hc => ⟨hc.1, le_of_lt hc.2⟩
  | true =>
    have hmap' : k.downloads large = a ++ z := (hframe.1 large).trans hmap
    obtain ⟨_, hdisk, _, _, hrep, hpe⟩ := setDownloads_frame k large (a ++ ⟨r, r.mBegin⟩ :: z)
    refine ⟨hdown.insert large hmap' hr (hframe.2.2.1.symm ▸ hin) ha hz
      (hframe.2.2.1.symm ▸ hone), fun x hx => ?_, fun x hx => ?_⟩
    · simp only [if_true] at hx ⊢
      rw [hdisk, hframe.2.1]
      exact hoff x (hpe ▸ hx)
    simp only [if_true] at hx ⊢
    rcases hpend x (hpe ▸ hx) with hr' | hc
    · rcases hreach _ hr' with ⟨l, d, hd, hb⟩ | ⟨y, hy, hb⟩
      · refine .inl ⟨l, d, ?_, hb⟩
        rw [downloads_setDownloads]
        split_ifs with hl
        · subst hl
          rw [hmap'] at hd
          rcases mem_append.1 hd with hd | hd
          · exact mem_append_left _ hd
          · exact mem_append_right _ (mem_cons_of_mem _ hd)
        · exact hd
      · exact .inr ⟨y, hrep.symm ▸ hy, hb⟩
    · refine .inl ⟨large, ⟨r, r.mBegin⟩, ?_, hc⟩
      rw [downloads_setDownloads, if_pos rfl]
      exact mem_append_right _ mem_cons_self

/-- **A read is reached**, unless it is left as an orphan. -/
theorem Reached.readStep (h : Reached c) (hsize : q.mRange.mBegin < c.size)
    (hnot : q.mRange.length > opt.mImmediateDownloadThreshold →
      q.mRange.mBegin ∉ cover c.mOnDisk → q.mRange.mBegin ∉ cover c.mSmall →
      ∀ d ∈ c.mLarge, ¬ q.mRange.mBegin + opt.mImmediateDownloadThreshold < d.range.mBegin)
    (hs : ReadStep opt c q c') : Reached c' := by
  cases hs with
  | completed => exact h
  | waits hdisk hw =>
    refine h.queueRequest hdisk (.inl ?_)
    rcases hw with hw | hw
    · exact h.toDownloading.awaited true hdisk hw
    · exact h.toDownloading.awaited false hdisk hw
  | busy hdisk hlarge hlen hpre =>
    exact h.queueRequest hdisk
      (.inl (h.awaited_of_busy hsize hdisk hlarge hlen hpre (hnot hlen hdisk)))
  | @large k hk hempty b hb hle created =>
    have hnil : c.downloads true = [] ++ [] := hempty
    exact h.start true hnil hb le_rfl (by simp) (by simp)
      (fun _ => ⟨rfl, rfl⟩) hk (fun hdisk => .inr ⟨hle hdisk, hsize⟩) created
  | @small hdisk x a z hmap hx hin hcov ha hz created =>
    refine h.start false hmap hx hin ha hz nofun
      (.inr ⟨hdisk, rfl⟩) (fun _ => ?_) created
    rcases hcov with heq | hcov
    · exact .inr ⟨le_of_eq heq, heq ▸ hx⟩
    · exact .inl (h.toDownloading.awaited false hdisk hcov)

/-! ## 4. Requests that change the file -/

section

variable (h : Downloading c)
include h

theorem Downloading.updateStep (hs : UpdateStep c c') :
    Downloading c' ∧ c'.mPendingReadRequests = c.mPendingReadRequests := by
  cases hs with
  | same => exact ⟨h, rfl⟩
  | updated hr hlt hne hk =>
    obtain ⟨hdown, _, _, hpend, _⟩ := h.updateRanges hr hlt hne hk
    exact ⟨hdown, hpend⟩

/-- Downloads that made room for `r` have put on disk what they have downloaded, and what is behind
    the large one is on disk, if it was, or if it is in `r`. -/
theorem Downloading.of_cutDown (hc' : Consistent c') (hsize : c'.size ≤ c.size)
    (hd : ∀ large, CutDown r (c.downloads large) (c'.downloads large))
    (hdisk : ∀ large, ∀ d ∈ c'.downloads large, ∀ p, p < d.mEnd → p ∈ cover c.mOnDisk →
      p ∈ cover c'.mOnDisk)
    (hrest : ∀ p, p < c'.size → p ∈ cover c.mOnDisk ∨ (r.mBegin ≤ p ∧ p < r.mEnd) →
      p ∈ cover c'.mOnDisk) : Downloading c' := by
  refine ⟨hc', (hd true).length_le.trans h.one, fun large d' hd' => ?_, fun large d' hd' p hb he => ?_,
    fun d' hd' p he hp => ?_⟩
  · obtain ⟨d, hmem, hn⟩ := (hd large).narrower d' hd'
    exact hn.data_le (h.le large d hmem)
  · obtain ⟨d, hmem, hn⟩ := (hd large).narrower d' hd'
    exact hdisk large d' hd' p he
      (h.onDisk large d hmem p (hn.begin_le.trans hb) (hn.data p hb he))
  obtain ⟨d, hmem, hn⟩ := (hd true).narrower d' hd'
  refine hrest p hp ?_
  by_cases hpd : d.range.mEnd ≤ p
  · exact .inl (h.behind d hmem p hpd (by omega))
  · -- `d` was cut where `r` begins
    have := hn.end_eq
    exact .inr (by omega)

theorem Downloading.shrinkStep {n : Nat} (hn : n < c.size)
    (hs : ShrinkStep c n k) : Downloading { k with size := n } := by
  refine h.of_cutDown hs.consistent hn.le hs.downloads
    (fun large d hd p hp hcov => (hs.onDisk p).2 ⟨hcov, ?_⟩)
    (fun p hp hcov => (hs.onDisk p).2 ⟨?_, hp⟩)
  · have hin : d.range.mEnd ≤ n := hs.consistent.inFile large d hd
    obtain ⟨d₀, hd₀, hnar⟩ := (hs.downloads large).narrower d hd
    exact lt_of_lt_of_le hp ((hnar.data_le (h.le large d₀ hd₀)).trans hin)
  rcases hcov with hcov | hcov
  · exact hcov
  · simp only at hcov hp
    omega

theorem Downloading.reclaim : Downloading c.reclaim := by
  have hc := h.consistent.reclaim.consistent
  unfold FileContext.reclaim at hc ⊢
  split
  · exact h
  rename_i hno
  rw [if_neg hno] at hc
  simp only [not_or, not_not] at hno
  have hnone : ∀ large, c.downloads large = [] := fun large => by
    cases large
    · exact hno.2
    · exact hno.1
  refine ⟨hc, h.one, h.le, fun large d hd => ?_, fun d hd => ?_⟩
  · have hd' : d ∈ c.downloads large := hd
    rw [hnone] at hd'
    cases hd'
  have hd' : d ∈ c.mLarge := hd
  rw [hno.1] at hd'
  cases hd'

end

/-! ## 5. Runs -/

/-- A step that leaves no read behind:
    -- a read is not an orphan;
    -- a download's data comes in order, so none of it is left out;
    -- what changes the file runs while no read is pending, and the downloads that are cancelled
       then are those in a range that has been written. -/
def KeepsReads (c : FileContext) : Op → Prop
  | .read opt bitrate _ q => ¬ Orphans opt c bitrate { q with mRange := q.mRange.clamp 0 c.size }
  | .data _ d offset _ _ => offset ≤ d.mEnd
  | .completed _ _ => True
  | .completedReplaced _ => True
  | .cancel b e => c.mPendingReadRequests = [] ∧
      ∀ p, min b e ≤ p → p < max b e → p ∈ cover c.mOnDisk
  | op => c.mPendingReadRequests = [] ∧ InRange c op

theorem Downloading.reached (h : Downloading c) (hnone : c.mPendingReadRequests = []) : Reached c :=
  ⟨h, by simp [hnone], by simp [hnone]⟩

theorem Reached.read (h : Reached c) {created : Bool}
    (hnot : ¬ Orphans opt c bitrate { q with mRange := q.mRange.clamp 0 c.size })
    (hx : c.read opt bitrate created q = some c') : Reached c' := by
  obtain ⟨k, hk, hs⟩ := read_cases h.consistent ..
  rw [hx] at hk
  cases hk
  rcases hs with rfl | ⟨q', hb, hlen, hsize, hs⟩
  · exact h
  obtain ⟨hj, hjump⟩ := h.jump opt bitrate { q with mRange := q.mRange.clamp 0 c.size }
  have hjsize : (FileContext.jump opt c bitrate { q with mRange := q.mRange.clamp 0 c.size }).size = c.size := by
    unfold FileContext.jump
    split <;> rfl
  refine hj.readStep (hjsize.symm ▸ hsize) (fun hthr hdisk hsmall d hd hfar => ?_) hs
  rcases hjump with ⟨hnone, heq⟩ | hempty
  · rw [heq] at hdisk hsmall hd
    rw [hb] at hdisk hsmall hfar
    exact hnot ⟨hnone, lt_of_lt_of_le hthr hlen, hdisk, hsmall, d, hd, hfar⟩
  · rw [hempty] at hd
    cases hd

/-- **Every such step leaves every pending read reached.** -/
theorem Reached.exec (h : Reached c) {op : Op} (he : op.Enabled c) (hk : KeepsReads c op)
    (hx : exec c op = some c') : Reached c' := by
  have hends : ∀ b e : Nat, (FileRange.ofEnds b e).mBegin ≤ (FileRange.ofEnds b e).mEnd := fun b e =>
    (min_le_left b e).trans (le_max_left b e)
  have hupd : ∀ {k : FileContext}, c.mPendingReadRequests = [] → UpdateStep c k → Reached k :=
    fun hnone hs => (h.toDownloading.updateStep hs).1.reached
      ((h.toDownloading.updateStep hs).2.trans hnone)
  cases op with
  | write b e count =>
    obtain ⟨k, hk', hs⟩ := write_cases h.consistent (hends b e) hk.2 count
    cases hx.symm.trans hk'
    exact hupd hk.1 hs
  | append length =>
    obtain ⟨k, hk', hs⟩ := append_cases h.consistent hk.2.1 hk.2.2
    cases hx.symm.trans hk'
    exact hupd hk.1 hs
  | truncate n =>
    obtain ⟨k, hk', hs⟩ := truncate_cases h.consistent hk.2
    cases hx.symm.trans hk'
    rcases hs with hs | ⟨k', hn, hs, rfl⟩
    · exact hupd hk.1 hs
    have hpend := hs.pending
    rw [hk.1] at hpend
    exact (h.toDownloading.shrinkStep hn hs).reached (sublist_nil.1 hpend)
  | reclaim =>
    cases hx
    refine h.toDownloading.reclaim.reached ?_
    unfold FileContext.reclaim
    split <;> exact hk.1
  | cancel b e =>
    obtain ⟨k, hk', hs, hd⟩ := cancel_spec h.consistent.downloads (hends b e)
    cases hx.symm.trans hk'
    have hpend := hs.pending
    rw [hk.1] at hpend
    refine Downloading.reached ?_ (sublist_nil.1 hpend)
    refine h.toDownloading.of_cutDown (h.consistent.of_cutDown hs fun large => (hd large).1)
      (le_of_eq hs.size) (fun large => (hd large).1) (fun _ _ _ p _ hcov => hs.mOnDisk ▸ hcov)
      fun p _ hcov => ?_
    rw [hs.mOnDisk]
    rcases hcov with hcov | hcov
    · exact hcov
    · exact hk.2 p hcov.1 hcov.2
  | read opt bitrate created q => exact h.read hk hx
  | data large d offset length buffer =>
    obtain ⟨k, hk', hs⟩ := data_cases h.consistent he offset length buffer
    cases hx.symm.trans hk'
    exact h.dataStep he hk hs
  | completed large d =>
    cases hx
    exact h.completed he
  | completedReplaced r =>
    cases hx
    exact h.completedReplaced

theorem Reached.ofSize {n : Nat} (hn : n + 1 < 2 ^ 64) : Reached (ofSize n) :=
  Downloading.reached ⟨.ofSize hn, Nat.zero_le _, fun large d hd => (by cases large <;> cases hd),
    fun large d hd => (by cases large <;> cases hd), fun d hd => (by cases hd)⟩ rfl

/-- **Every pending read is reached**, after every step of a run whose steps leave none behind: it
    begins in the not yet downloaded part of a download in `mLarge` or `mSmall`, or where a download
    that a jump has replaced, and whose cancellation is on its way, will fail it. -/
theorem pending_reached {n : Nat} (hn : n + 1 < 2 ^ 64) {c : FileContext}
    (hr : Relation.ReflTransGen (StepOf KeepsReads) (ofSize n) c) :
    (∀ q ∈ c.mPendingReadRequests, Reachable c q.mRange.mBegin) ∧
    (c.replaced = [] → ∀ q ∈ c.mPendingReadRequests, Awaited c q.mRange.mBegin) := by
  have h : Reached c := Base.run_inv Reached (fun c c' h hs => by
    obtain ⟨op, he, hk, hx⟩ := hs
    exact h.exec he hk hx) (.ofSize hn) hr
  refine ⟨h.reached, fun hnone q hq => ?_⟩
  rcases h.reached q hq with ha | ⟨r, hr, _⟩
  · exact ha
  · rw [hnone] at hr
    cases hr

/-- A read in the middle of a file of 100 MiB that is not on disk. -/
theorem pending_reached_middle :
    ∃ c, Relation.ReflTransGen (StepOf KeepsReads) (ofSize (100 * 2 ^ 20)) c ∧
      c.mPendingReadRequests = [⟨⟨50 * 2 ^ 20, 60 * 2 ^ 20⟩, true⟩] ∧ Awaited c (50 * 2 ^ 20) := by
  have hrun : Relation.ReflTransGen (StepOf KeepsReads) (ofSize (100 * 2 ^ 20))
      { ofSize (100 * 2 ^ 20) with
        mLarge := [⟨⟨49 * 2 ^ 20, 100 * 2 ^ 20⟩, 49 * 2 ^ 20⟩]
        mPendingReadRequests := [⟨⟨50 * 2 ^ 20, 60 * 2 ^ 20⟩, true⟩] } := by
    refine .single ⟨.read {} 400000 true ⟨⟨50 * 2 ^ 20, 60 * 2 ^ 20⟩, true⟩, trivial, ?_, rfl⟩
    rintro ⟨_, _, _, _, d, hd, _⟩
    cases hd
  exact ⟨_, hrun, rfl, (pending_reached (by decide) hrun).2 rfl _ mem_cons_self⟩

/-- **A fetch that nobody reaches.** A read in the middle of a file of 100 MiB has begun a large
    download, the file is fetched (a read of all of it that is no jump candidate), and the download
    completes: there is no download left, and the fetch's read is still pending. -/
theorem fetch_left_pending :
    ∃ c, Relation.ReflTransGen (StepOf fun _ _ => True) (ofSize (100 * 2 ^ 20)) c ∧
      c.mPendingReadRequests = [⟨⟨0, 100 * 2 ^ 20⟩, false⟩] ∧ c.replaced = [] ∧
      c.mLarge = [] ∧ c.mSmall = [] := by
  refine ⟨{ ofSize (100 * 2 ^ 20) with mPendingReadRequests := [⟨⟨0, 100 * 2 ^ 20⟩, false⟩] },
    .tail (.tail (.single
      ⟨.read {} 400000 true ⟨⟨50 * 2 ^ 20, 60 * 2 ^ 20⟩, true⟩, trivial, trivial, rfl⟩)
      (c := { ofSize (100 * 2 ^ 20) with
        mLarge := [⟨⟨49 * 2 ^ 20, 100 * 2 ^ 20⟩, 49 * 2 ^ 20⟩]
        mPendingReadRequests :=
          [⟨⟨0, 100 * 2 ^ 20⟩, false⟩, ⟨⟨50 * 2 ^ 20, 60 * 2 ^ 20⟩, true⟩] })
      ⟨.read {} 400000 true ⟨⟨0, 100 * 2 ^ 20⟩, false⟩, trivial, trivial, rfl⟩)
      ⟨.completed true ⟨⟨49 * 2 ^ 20, 100 * 2 ^ 20⟩, 49 * 2 ^ 20⟩, mem_cons_self, trivial, rfl⟩,
    rfl, rfl, rfl, rfl⟩

end FileContext

end MegaSdk.FileService
