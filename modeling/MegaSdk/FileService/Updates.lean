/-
  File:      MegaSdk/FileService/Updates.lean
  Subject:   WHAT THE WRITE REQUESTS OF A FILE CONTEXT DO TO ITS RANGES (file_context.cpp).

  * `merged`, `updateRanges_spec` -- `updateRanges` puts the written range and all that touches it
    into one range, in memory (by iterators) and in the database (by containment) alike; what is on
    disk afterwards is what was, and the written bytes; `updateRanges_returns` -- and the range it
    returns is the one that holds them;
  * `CutDown`, `trim_eq`, `cancel_spec` -- after `cancel(range)` no download overlaps `range`;
  * `Consistent` -- the rows are the ranges on disk, and everything lies in the file;
  * `write_cases`, `append_cases`, `truncate_cases` -- all that these requests can do: update the
    ranges with one range (`UpdateStep`), or cut the file (`ShrinkStep`);
  * `Consistent.updateStep`, `Consistent.truncate`, `Consistent.reclaim` -- so they keep this; a
    truncation keeps the sizes together only if it cuts a range on disk.
-/
import MegaSdk.FileService.Context

namespace MegaSdk.FileService

open FileRangeTree List FileRange

namespace FileContext

variable {m : List Download} {a z : List FileRange} {r x : FileRange} {c c' : FileContext}
  {d : Download} {n : Nat}

/-! ## 1. The effective range -/

/-- What `updateRanges` does to the ranges `t` on disk: of `t = a ++ (m ++ z)`, the ranges `m`
    touch `r` and go into the effective range `x`, between `a` and `z`. -/
structure Merged (t : List FileRange) (r x : FileRange) (a m z : List FileRange) : Prop where
  eq : t = a ++ (m ++ z)
  begin_le : x.mBegin ≤ r.mBegin
  le_end : r.mEnd ≤ x.mEnd
  before : ∀ v ∈ a, v.mEnd < x.mBegin
  inside : ∀ v ∈ m, x.mBegin ≤ v.mBegin ∧ v.mEnd ≤ x.mEnd
  behind : ∀ v ∈ z, x.mEnd < v.mBegin
  holds : ∀ p, x.contains p → r.contains p ∨ p ∈ cover m
  end_eq : x.mEnd = r.mEnd ∨ ∃ v ∈ m, x.mEnd = v.mEnd

theorem first_last {g : Nat} {m : List FileRange} {h l : FileRange} {tl ini : List FileRange}
    (hm : Apart g m) (hh : m = h :: tl) (hl : m = ini ++ [l]) :
    ∀ v ∈ m, h.mBegin ≤ v.mBegin ∧ v.mEnd ≤ l.mEnd := by
  intro v hv
  have h1 : h.mBegin ≤ v.mBegin := by
    rw [hh] at hm hv
    exact hm.head_le v hv
  have h2 : v.mEnd ≤ l.mEnd := by
    have hap := hm.apart
    rw [hl] at hap hv
    rcases mem_append.1 hv with hv | hv
    · have h1 : v.mEnd + g ≤ l.mBegin :=
        (pairwise_append.1 hap).2.2 v hv l mem_cons_self
      have h2 : l.mBegin < l.mEnd := hm.nonempty l (by simp [hl])
      omega
    · rw [mem_singleton.1 hv]
  exact ⟨h1, h2⟩

theorem effectiveRange_cons {m : List FileRange} {h l : FileRange} {tl ini : List FileRange}
    (hh : m = h :: tl) (hl : m = ini ++ [l]) :
    effectiveRange (a ++ (m ++ z)) r (m ++ z) z =
      ⟨min h.mBegin r.mBegin, max l.mEnd (max h.mEnd r.mEnd)⟩ := by
  have htake : (a ++ (m ++ z)).take ((a ++ (m ++ z)).length - z.length) = a ++ m := by
    rw [← append_assoc]
    exact take_left' (by simp only [length_append]; omega)
  have hlast : (a ++ m).getLast? = some l := by rw [hl]; simp
  unfold effectiveRange
  rw [htake, hlast, hh]
  rfl

/-- **What `updateRanges` computes**: the ranges that touch `r`, `r` and they as one range, and
    the tree without them. -/
theorem merged {t : List FileRange} (ht : Apart 1 t) (hr : r.mBegin ≤ r.mEnd)
    (hlt : r.mEnd + 1 < 2 ^ 64) :
    ∃ a m z, Merged t r (effectiveRange t r (find t (r.extend 1)).1 (find t (r.extend 1)).2) a m z ∧
      remove t (find t (r.extend 1)).1 (find t (r.extend 1)).2 = a ++ z := by
  obtain ⟨a, m, z, hs⟩ := split_at ht (r.mBegin - 1) (r.mEnd + 1)
  have hpq : r.mBegin - 1 ≤ r.mEnd + 1 := by omega
  refine ⟨a, m, z, ?_, by rw [extend_one hr hlt]; exact remove_split ht hs hpq⟩
  rw [extend_one hr hlt, find_split ht hs hpq]
  have hne : ∀ v ∈ t, v.mBegin < v.mEnd := ht.nonempty
  have hord := ht.apart
  rw [hs.eq] at hord
  obtain ⟨_, hmz, ha⟩ := pairwise_append.1 hord
  obtain ⟨_, _, hz⟩ := pairwise_append.1 hmz
  -- what ends before the interval ends before `r`
  have hbefore : ∀ v ∈ a, v.mEnd < r.mBegin := fun v hv => by
    have h1 : v.mEnd ≤ r.mBegin - 1 := hs.before v hv
    have h2 := hne v (by rw [hs.eq]; simp [hv])
    omega
  have hbehind : ∀ v ∈ z, r.mEnd < v.mBegin := fun v hv => hs.behind v hv
  cases hm : m with
  | nil =>
    exact ⟨by rw [hs.eq, hm], le_rfl, le_rfl, hbefore, by simp, hbehind,
      fun p hp => .inl hp, .inl rfl⟩
  | cons h tl =>
    obtain ⟨ini, l, hl⟩ : ∃ ini l, m = ini ++ [l] :=
      ⟨m.dropLast, m.getLast (by simp [hm]), (dropLast_concat_getLast _).symm⟩
    have hmm : Apart 1 m := ht.sublist (by
      rw [hs.eq]; exact (sublist_append_left m z).trans (sublist_append_right _ _))
    have hfl := first_last hmm hm hl
    have hhm : h ∈ m := by simp [hm]
    have hlm : l ∈ m := by simp [hl]
    rw [if_neg (by simp), ← hm, hs.eq, effectiveRange_cons hm hl]
    have htouch : ∀ v ∈ m, r.mBegin ≤ v.mEnd ∧ v.mBegin ≤ r.mEnd := fun v hv => by
      have h1 : r.mBegin - 1 < v.mEnd := (hs.overlap v hv).1
      have h2 : v.mBegin < r.mEnd + 1 := (hs.overlap v hv).2
      omega
    have hh := htouch h hhm
    have hl' := htouch l hlm
    have hle := (hfl h hhm).2
    refine ⟨rfl, min_le_right _ _, by simp only; omega, fun v hv => ?_, fun v hv => ?_,
      fun v hv => ?_, fun p hp => ?_, ?_⟩
    · have h1 := hbefore v hv
      have h2 : v.mEnd + 1 ≤ h.mBegin := ha v hv h (by simp [hm])
      simp only
      omega
    · have := hfl v hv
      simp only
      omega
    · have h1 := hbehind v hv
      have h2 : l.mEnd + 1 ≤ v.mBegin := hz l hlm v hv
      simp only
      omega
    · -- before `r` it is in the first, behind `r` in the last of them
      obtain ⟨hp1, hp2⟩ := hp
      simp only at hp1 hp2
      by_cases hpr : r.contains p
      · exact .inl hpr
      have hout : p < r.mBegin ∨ r.mEnd ≤ p := by
        unfold FileRange.contains at hpr
        omega
      rcases hout with hout | hout
      · exact .inr ⟨h, hhm, by show h.mBegin ≤ p; omega, by show p < h.mEnd; omega⟩
      · exact .inr ⟨l, hlm, by show l.mBegin ≤ p; omega, by show p < l.mEnd; omega⟩
    · by_cases hend : l.mEnd ≤ r.mEnd
      · exact .inl (by simp only; omega)
      · exact .inr ⟨l, hlm, by simp only; omega⟩

/-! ## 2. The database follows -/

/-- `removeRanges` takes out of the rows what goes into `x`, and nothing else. -/
theorem removeRanges_merged {t m : List FileRange} (ht : Apart 1 t) (h : Merged t r x a m z) :
    removeRanges t x = a ++ z := by
  have hne : ∀ v ∈ t, v.mBegin < v.mEnd := ht.nonempty
  have hkeep : ∀ {b : List FileRange}, (∀ v ∈ b, v ∈ t ∧ (v.mEnd < x.mBegin ∨ x.mEnd < v.mBegin)) →
      removeRanges b x = b := fun hb => filter_eq_self.2 fun v hv => by
    obtain ⟨h1, h2⟩ := hb v hv
    have h3 := hne v h1
    simp only [decide_eq_true_eq]
    omega
  have hm : removeRanges m x = [] := filter_eq_nil_iff.2 fun v hv => by
    have := h.inside v hv
    simp only [decide_eq_true_eq]
    omega
  have ha := hkeep (b := a) fun v hv => ⟨by rw [h.eq]; simp [hv], .inl (h.before v hv)⟩
  have hz := hkeep (b := z) fun v hv => ⟨by rw [h.eq]; simp [hv], .inr (h.behind v hv)⟩
  unfold removeRanges at *
  rw [h.eq, filter_append, filter_append, ha, hm, hz, nil_append]

theorem addRange_fit {rows : List FileRange} (hp : rows.Perm (a ++ z)) (ht : Apart 1 (a ++ z))
    (hx : x.mBegin < x.mEnd) (ha : ∀ v ∈ a, v.mEnd ≤ x.mBegin) (hz : ∀ v ∈ z, x.mEnd ≤ v.mBegin) :
    addRange rows x = some (x :: rows) := by
  unfold addRange
  rw [if_neg]
  rintro ⟨v, hv, h⟩
  have hv' := hp.mem_iff.1 hv
  have hne : v.mBegin < v.mEnd := ht.nonempty v hv'
  rcases mem_append.1 hv' with hv' | hv'
  · have := ha v hv'
    omega
  · have := hz v hv'
    omega

section Merged

variable {t a m z : List FileRange} {r x : FileRange}

theorem Merged.others (ht : Apart 1 t) (h : Merged t r x a m z) : Apart 1 (a ++ z) :=
  ht.sublist (by rw [h.eq]; exact (sublist_append_right m z).append_left a)

/-- The effective range fits where the ranges it takes in were. -/
theorem Merged.tryAdd (ht : Apart 1 t) (h : Merged t r x a m z) (hx : x.mBegin < x.mEnd) :
    tryAdd id (a ++ z) x = some (a ++ x :: z, x, true) :=
  tryAdd_fit (h.others ht) hx (fun v hv => (h.before v hv).le)
    fun v hv => (h.behind v hv).le

theorem Merged.apart (ht : Apart 1 t) (h : Merged t r x a m z) (hx : x.mBegin < x.mEnd) :
    Apart 1 (a ++ x :: z) :=
  (h.others ht).insert hx h.before h.behind

theorem Merged.mem_cover (h : Merged t r x a m z) (p : Nat) :
    p ∈ cover (a ++ x :: z) ↔ p ∈ cover t ∨ r.contains p := by
  have hb := h.begin_le
  have he := h.le_end
  rw [h.eq]
  simp only [mem_cover_append, mem_cover_cons]
  constructor
  · rintro (hp | hp | hp)
    · exact .inl (.inl hp)
    · rcases h.holds p hp with hp | hp
      · exact .inr hp
      · exact .inl (.inr (.inl hp))
    · exact .inl (.inr (.inr hp))
  rintro ((hp | ⟨v, hv, hp⟩ | hp) | hp)
  · exact .inl hp
  · have h1 := h.inside v hv
    have h2 : v.mBegin ≤ p ∧ p < v.mEnd := hp
    exact .inr (.inl ⟨by show x.mBegin ≤ p; omega, by show p < x.mEnd; omega⟩)
  · exact .inr (.inr hp)
  · have h2 : r.mBegin ≤ p ∧ p < r.mEnd := hp
    exact .inr (.inl ⟨by show x.mBegin ≤ p; omega, by show p < x.mEnd; omega⟩)

end Merged

/-- **`updateRanges` adds the bytes of `r`, from the end of the file on, to memory and database
    alike.** -/
theorem updateRanges_spec (hrows : c.rows.Perm c.mOnDisk) (ht : Apart 1 c.mOnDisk)
    (hw : ∀ v ∈ c.mOnDisk, v.mEnd ≤ c.size) (hr : r.mBegin ≤ r.mEnd) (hlt : r.mEnd + 1 < 2 ^ 64)
    (hne : r.mBegin < r.mEnd ∨ ∃ v ∈ c.mOnDisk, v.mEnd = r.mBegin) :
    ∃ rows t x, c.updateRanges r =
        some ({ c with rows := rows, persistedSize := max c.size r.mEnd, mOnDisk := t }, x) ∧
      rows.Perm t ∧ Apart 1 t ∧ (∀ v ∈ t, v.mEnd ≤ max c.size r.mEnd) ∧
      ∀ p, p ∈ cover t ↔ p ∈ cover c.mOnDisk ∨ (min r.mBegin c.size ≤ p ∧ p < r.mEnd) := by
  obtain ⟨a, m, z, h, hrem⟩ := merged ht (r := { r with mBegin := min r.mBegin c.size })
    (by simp only; omega) hlt
  unfold updateRanges
  simp only
  rw [hrem]
  generalize effectiveRange c.mOnDisk { r with mBegin := min r.mBegin c.size } _ _ = x at h
  have hxb : x.mBegin ≤ min r.mBegin c.size := h.begin_le
  have hxe : r.mEnd ≤ x.mEnd := h.le_end
  have hx : x.mBegin < x.mEnd := by
    rcases hne with hne | ⟨v, hv, he⟩
    · omega
    -- the range that ends at `r` is in the effective range
    have hvne : v.mBegin < v.mEnd := ht.nonempty v hv
    have hmem := hv
    rw [h.eq, mem_append, mem_append] at hmem
    rcases hmem with hm | hm | hm
    · have h1 := h.before v hm
      omega
    · have := h.inside v hm
      omega
    · have := h.behind v hm
      omega
  have hxsize : x.mEnd ≤ max c.size r.mEnd ∧ max c.size x.mEnd = max c.size r.mEnd := by
    rcases h.end_eq with he | ⟨v, hv, he⟩
    · simp only at he
      omega
    · have := hw v (by rw [h.eq]; simp [hv])
      omega
  have hperm : (removeRanges c.rows x).Perm (a ++ z) :=
    (removeRanges_merged ht h) ▸ hrows.filter _
  have hbefore : ∀ v ∈ a, v.mEnd ≤ x.mBegin := fun v hv => (h.before v hv).le
  have hbehind : ∀ v ∈ z, x.mEnd ≤ v.mBegin := fun v hv => (h.behind v hv).le
  rw [addRange_fit hperm (h.others ht) hx hbefore hbehind, hxsize.2, h.tryAdd ht hx]
  refine ⟨x :: removeRanges c.rows x, a ++ x :: z, x, rfl, ?_, h.apart ht hx, ?_, h.mem_cover⟩
  · exact (hperm.cons x).trans perm_middle.symm
  intro v hv
  rcases mem_append.1 hv with hv | hv
  · have := hw v (by rw [h.eq]; simp [hv])
    omega
  rcases mem_cons.1 hv with rfl | hv
  · exact hxsize.1
  · have := hw v (by rw [h.eq]; simp [hv])
    omega

/-- **What `updateRanges` leaves on disk and what it returns**, for a write of at least a byte. It
    goes through whenever the rows are those of the ranges on disk. -/
theorem updateRanges_returns {c : FileContext} (ht : Apart 1 c.mOnDisk)
    (hw : ∀ v ∈ c.mOnDisk, v.mEnd ≤ c.size) {r : FileRange} (hr : r.mBegin < r.mEnd)
    (hlt : r.mEnd + 1 < 2 ^ 64) :
    (c.rows.Perm c.mOnDisk → (c.updateRanges r).isSome) ∧
    ∀ c' x, c.updateRanges r = some (c', x) →
      Apart 1 c'.mOnDisk ∧
      (∀ p, p ∈ cover c'.mOnDisk ↔
        p ∈ cover c.mOnDisk ∨ (min r.mBegin c.size ≤ p ∧ p < r.mEnd)) ∧
      ∀ y, (y ∈ c'.mOnDisk ∧ y.mBegin ≤ min r.mBegin c.size ∧ r.mEnd ≤ y.mEnd) ↔ y = x := by
  refine ⟨fun hrows => ?_, fun c' x hc' => ?_⟩
  · obtain ⟨rows, t, x, he, -⟩ := updateRanges_spec hrows ht hw hr.le hlt (.inl hr)
    rw [he]
    rfl
  obtain ⟨a, m, z, h, hrem⟩ := merged ht (r := { r with mBegin := min r.mBegin c.size })
    (by simp only; omega) hlt
  obtain ⟨rows, -, hc'⟩ := Option.bind_eq_some_iff.1 hc'
  obtain ⟨⟨t, y⟩, hadd, hc'⟩ := Option.bind_eq_some_iff.1 hc'
  rw [hrem] at hadd
  cases hc'
  generalize effectiveRange c.mOnDisk { r with mBegin := min r.mBegin c.size } _ _ = x at h hadd
  have hxb : x.mBegin ≤ min r.mBegin c.size := h.begin_le
  have hxe : r.mEnd ≤ x.mEnd := h.le_end
  have hx : x.mBegin < x.mEnd := by omega
  rw [h.tryAdd ht hx] at hadd
  cases hadd
  have hap := h.apart ht hx
  refine ⟨hap, h.mem_cover, fun y => ⟨?_, ?_⟩⟩
  · -- another range would overlap the effective one
    rintro ⟨hm, hb, he⟩
    obtain ⟨h1, h2⟩ := hap.around
    rcases mem_append.1 hm with hm | hm
    · have h3 : y.mEnd + 1 ≤ x.mBegin := h1 y hm
      omega
    rcases mem_cons.1 hm with hm | hm
    · exact hm
    · have h3 : x.mEnd + 1 ≤ y.mBegin := h2 y hm
      omega
  · rintro rfl
    exact ⟨by simp, hxb, hxe⟩

/-- A write that fills the gap between two ranges. -/
theorem updateRanges_returns_gap :
    let c : FileContext := { rows := [⟨0, 4⟩, ⟨6, 8⟩], mOnDisk := [⟨0, 4⟩, ⟨6, 8⟩], size := 8 }
    (c.updateRanges ⟨4, 6⟩).map Prod.snd = some ⟨0, 8⟩ ∧
    ∀ x, (x ∈ [(⟨0, 8⟩ : FileRange)] ∧ x.mBegin ≤ min 4 8 ∧ 6 ≤ x.mEnd) ↔ x = ⟨0, 8⟩ := by
  have ht : Apart 1 [(⟨0, 4⟩ : FileRange), ⟨6, 8⟩] := ⟨by decide, by decide⟩
  exact ⟨by decide, ((updateRanges_returns
    (c := { rows := [⟨0, 4⟩, ⟨6, 8⟩], mOnDisk := [⟨0, 4⟩, ⟨6, 8⟩], size := 8 }) (r := ⟨4, 6⟩) ht
    (by decide) (by decide) (by decide)).2
    { rows := [⟨0, 8⟩], mOnDisk := [⟨0, 8⟩], size := 8, persistedSize := 8 } _ (by decide)).2.2⟩

/-! ## 3. Downloads that are cut down -/

/-- `d'` is what is left of `d` when downloads make room for `r`: no more of the file, and not more
    of it downloaded; it ends where `d` does, or where `r` begins if `r` has the end of `d`. -/
structure Narrower (r : FileRange) (d' d : Download) : Prop where
  begin_le : d.range.mBegin ≤ d'.range.mBegin
  end_le : d'.range.mEnd ≤ d.range.mEnd
  end_eq : d'.range.mEnd = d.range.mEnd ∨ (d'.range.mEnd = r.mBegin ∧ d.range.mEnd ≤ r.mEnd)
  data : ∀ p, d'.range.mBegin ≤ p → p < d'.mEnd → p < d.mEnd
  data_le : d.mEnd ≤ d.range.mEnd → d'.mEnd ≤ d'.range.mEnd

theorem Narrower.refl (r d) : Narrower r d d :=
  ⟨le_rfl, le_rfl, .inl rfl, fun _ _ h => h, id⟩

theorem Narrower.trans {d' d'' : Download} (h' : Narrower r d'' d') (h : Narrower r d' d) :
    Narrower r d'' d := by
  refine ⟨h.begin_le.trans h'.begin_le, h'.end_le.trans h.end_le, ?_,
    fun p hp hd => h.data p (h'.begin_le.trans hp) (h'.data p hp hd), fun hle => h'.data_le (h.data_le hle)⟩
  have h1 := h.end_eq
  have h2 := h'.end_eq
  omega

/-- The downloads of a map, each cut down or gone. -/
structure CutDown (r : FileRange) (m m' : List Download) : Prop where
  apart : Apart 0 m'
  length_le : m'.length ≤ m.length
  narrower : ∀ d' ∈ m', ∃ d ∈ m, Narrower r d' d

theorem CutDown.of_sublist {m' : List Download} (hm : Apart 0 m) (hs : m'.Sublist m) :
    CutDown r m m' :=
  ⟨hm.sublist hs, hs.length_le, fun d hd => ⟨d, hs.subset hd, .refl r d⟩⟩

theorem CutDown.trans {m' m'' : List Download} (h : CutDown r m m') (h' : CutDown r m' m'') :
    CutDown r m m'' := by
  refine ⟨h'.apart, h'.length_le.trans h.length_le, fun d'' hd'' => ?_⟩
  obtain ⟨d', hd', hn'⟩ := h'.narrower d'' hd''
  obtain ⟨d, hd, hn⟩ := h.narrower d' hd'
  exact ⟨d, hd, hn'.trans hn⟩

theorem nodup_of_apart (hm : Apart 0 m) : m.Nodup := by
  refine hm.apart.imp_of_mem fun {d d'} hd _ h he => ?_
  subst he
  have h1 := hm.nonempty d hd
  omega

theorem erase_middle {a z : List Download} (hm : Apart 0 (a ++ d :: z)) :
    (a ++ d :: z).erase d = a ++ z := by
  have hnot : d ∉ a := fun ha => by
    have h1 := hm.around.1 d ha
    have h2 := hm.nonempty d (by simp)
    omega
  rw [erase_append_right _ hnot, erase_cons_head]

def narrowed (d : Download) (r : FileRange) : Download :=
  ⟨r, min r.mEnd (max r.mBegin d.mEnd)⟩

theorem setRange_eq {a z : List Download} (hm : Apart 0 (a ++ d :: z)) (hr : r.mBegin < r.mEnd)
    (hb : d.range.mBegin ≤ r.mBegin) (he : r.mEnd ≤ d.range.mEnd) (hne : d.range ≠ r) :
    setRange (a ++ d :: z) d r = some (a ++ narrowed d r :: z) ∧ Apart 0 (a ++ narrowed d r :: z) := by
  have hlen : r.length < d.range.length := by
    have hne : ¬ (d.range.mBegin = r.mBegin ∧ d.range.mEnd = r.mEnd) := fun h => hne (by
      cases hd : d.range
      cases r
      simp only [hd] at h
      simp [h.1, h.2])
    unfold FileRange.length
    omega
  obtain ⟨ha, hz⟩ := hm.around
  have ha' : ∀ v ∈ a, (key v).mEnd ≤ r.mBegin := fun v hv => by
    have h : (key v).mEnd + 0 ≤ d.range.mBegin := ha v hv
    omega
  have hz' : ∀ v ∈ z, r.mEnd ≤ (key v).mBegin := fun v hv => by
    have h : d.range.mEnd + 0 ≤ (key v).mBegin := hz v hv
    omega
  have haz : Apart 0 (a ++ z) := hm.sublist ((sublist_cons_self d z).append_left a)
  refine ⟨?_, haz.insert hr ha' hz'⟩
  unfold setRange
  rw [if_neg hne, if_pos hlen, erase_middle hm, tryAdd_fit haz hr ha' hz']
  rfl

/-- A download that overlaps the beginning of `r` keeps what is before. -/
def beginCut (r : FileRange) (d : Download) : Download :=
  if d.range.mBegin < r.mBegin ∧ r.mBegin < d.range.mEnd ∧ d.range.mEnd ≤ r.mEnd then
    narrowed d ⟨d.range.mBegin, r.mBegin⟩
  else d

/-- A download that overlaps the ending of `r` keeps what is behind. -/
def endCut (r : FileRange) (d : Download) : Download :=
  if d.range.mBegin < r.mEnd ∧ r.mEnd < d.range.mEnd then narrowed d ⟨r.mEnd, d.range.mEnd⟩ else d

theorem Narrower.narrowed (hb : d.range.mBegin ≤ x.mBegin) (he : x.mEnd ≤ d.range.mEnd)
    (hx : x.mEnd = d.range.mEnd ∨ (x.mEnd = r.mBegin ∧ d.range.mEnd ≤ r.mEnd)) :
    Narrower r (narrowed d x) d := by
  refine ⟨hb, he, hx, fun p hp hd => ?_, fun _ => min_le_left _ _⟩
  simp only [FileContext.narrowed] at hp hd
  omega

theorem narrower_cuts (r d) : Narrower r (endCut r (beginCut r d)) d := by
  have hb : Narrower r (beginCut r d) d := by
    unfold beginCut
    split_ifs with h
    · exact .narrowed le_rfl (le_of_lt h.2.1) (.inr ⟨rfl, h.2.2⟩)
    · exact .refl r d
  refine .trans ?_ hb
  unfold endCut
  split
  · rename_i h
    exact .narrowed (le_of_lt h.1) le_rfl (.inl rfl)
  · exact .refl r _

theorem map_fixed {α : Type} {f : α → α} {l : List α} (h : ∀ v ∈ l, f v = v) : l.map f = l :=
  (map_congr_left h).trans (map_id' l)

theorem map_middle {α : Type} {f : α → α} {a z : List α} (b : α) (ha : ∀ v ∈ a, f v = v)
    (hz : ∀ v ∈ z, f v = v) : (a ++ b :: z).map f = a ++ f b :: z := by
  rw [map_append, map_cons, map_fixed ha, map_fixed hz]

section Cuts

variable {rest : List Download}

/-- Around the first download that ends after `p`: what is before ends by `p`, what is behind begins
    after `p`. -/
theorem around_endsAfter {p : Nat} (hm : Apart 0 m) (h : endsAfter m p = d :: rest) :
    ∃ a, m = a ++ d :: rest ∧ (∀ v ∈ a, v.range.mEnd ≤ p) ∧ p < d.range.mEnd ∧
      ∀ v ∈ rest, p < v.range.mBegin := by
  have hd : p < d.range.mEnd := mem_endsAfter hm (h ▸ mem_cons_self)
  obtain ⟨a, hsplit, ha⟩ := exists_append_endsAfter m p
  rw [h] at hsplit
  refine ⟨a, hsplit, ha, hd, fun v hv => ?_⟩
  rw [hsplit] at hm
  have hv' : d.range.mEnd + 0 ≤ v.range.mBegin := hm.around.2 v hv
  omega

theorem beginCut_of_end_le (h : d.range.mEnd ≤ r.mBegin) : beginCut r d = d :=
  if_neg (by omega)

theorem beginCut_of_le_begin (h : r.mBegin ≤ d.range.mBegin) : beginCut r d = d :=
  if_neg (by omega)

theorem endCut_of_end_le (h : d.range.mEnd ≤ r.mEnd) : endCut r d = d := if_neg (by omega)

theorem endCut_of_le_begin (h : r.mEnd ≤ d.range.mBegin) : endCut r d = d := if_neg (by omega)

theorem ne_of_end_ne {x} (h : d.range.mEnd ≠ x.mEnd ∨ d.range.mBegin ≠ x.mBegin) :
    d.range ≠ x := fun e => by
  rw [e] at h
  omega

section

variable (hm : Apart 0 m)
include hm

theorem cutBegin_eq (h : endsAfter m r.mBegin = d :: rest) :
    cutBegin m d r = some (m.map (beginCut r)) ∧ Apart 0 (m.map (beginCut r)) := by
  obtain ⟨a, rfl, ha, hd, hz⟩ := around_endsAfter hm h
  have hmap : (a ++ d :: rest).map (beginCut r) = a ++ beginCut r d :: rest :=
    map_middle d (fun v hv => beginCut_of_end_le (ha v hv))
      fun v hv => beginCut_of_le_begin (hz v hv).le
  rw [hmap]
  unfold cutBegin beginCut
  by_cases hov : d.range.mBegin < r.mBegin ∧ d.range.mEnd ≤ r.mEnd
  · have hof : ofEnds d.range.mBegin r.mBegin = ⟨d.range.mBegin, r.mBegin⟩ :=
      ofEnds_of_le (by omega)
    rw [if_pos hov, if_pos ⟨hov.1, hd, hov.2⟩, hof]
    exact setRange_eq hm hov.1 le_rfl hd.le
      (ne_of_end_ne (.inl (ne_of_gt hd)))
  · rw [if_neg hov, if_neg (by omega)]
    exact ⟨rfl, hm⟩

theorem cutEnd_eq (r) : cutEnd m r = some (m.map (endCut r)) ∧ Apart 0 (m.map (endCut r)) := by
  unfold cutEnd
  cases h : endsAfter m r.mEnd with
  | nil =>
    have hall : ∀ v ∈ m, endCut r v = v := fun v hv =>
      endCut_of_end_le (of_decide_eq_true (dropWhile_eq_nil_iff.1 h v hv))
    rw [map_fixed hall]
    exact ⟨rfl, hm⟩
  | cons e rest =>
    obtain ⟨a, rfl, ha, he, hz⟩ := around_endsAfter hm h
    have hmap : (a ++ e :: rest).map (endCut r) = a ++ endCut r e :: rest :=
      map_middle e (fun v hv => endCut_of_end_le (ha v hv))
        fun v hv => endCut_of_le_begin (hz v hv).le
    rw [hmap]
    unfold endCut
    by_cases hov : e.range.mBegin < r.mEnd
    · have hof : ofEnds r.mEnd e.range.mEnd = ⟨r.mEnd, e.range.mEnd⟩ :=
        ofEnds_of_le (by omega)
      simp only
      rw [if_pos hov, if_pos ⟨hov, he⟩, hof]
      exact setRange_eq hm he hov.le le_rfl
        (ne_of_end_ne (.inr (ne_of_lt hov)))
    simp only
    rw [if_neg hov, if_neg (by omega)]
    exact ⟨rfl, hm⟩

theorem found_overlap (hr : r.mBegin ≤ r.mEnd) :
    let l := (find m r).1.take ((find m r).1.length - (find m r).2.length)
    (∀ d ∈ m, d ∉ l → d.range.mEnd ≤ r.mBegin ∨ r.mEnd ≤ d.range.mBegin) ∧
      ∀ d ∈ l, r.mBegin < d.range.mEnd ∧ d.range.mBegin < r.mEnd := by
  obtain ⟨a, k, z, hs⟩ := split_at hm r.mBegin r.mEnd
  have hk : (find m r).1.take ((find m r).1.length - (find m r).2.length) = k := by
    rw [find_split hm hs hr]
    split_ifs with hnil
    · exact hnil.symm
    · simp
  rw [hk]
  refine ⟨fun d hd hnot => ?_, hs.overlap⟩
  rw [hs.eq, mem_append, mem_append] at hd
  rcases hd with hd | hd | hd
  · exact .inl (hs.before d hd)
  · exact absurd hd hnot
  · exact .inr (hs.behind d hd)

end

theorem cuts_of_clear (hr : r.mBegin ≤ r.mEnd)
    (h : d.range.mEnd ≤ r.mBegin ∨ r.mEnd ≤ d.range.mBegin) : endCut r (beginCut r d) = d := by
  have hb : beginCut r d = d := if_neg (by omega)
  rw [hb]
  exact if_neg (by omega)

/-- **`cancel(downloading, range)`** makes both cuts in every download, and lists those that overlap
    `r` all the same. -/
theorem trim_eq (hm : Apart 0 m) (hr : r.mBegin ≤ r.mEnd) :
    ∃ l, trim m r = some (m.map (fun d => endCut r (beginCut r d)), l) ∧
      Apart 0 (m.map fun d => endCut r (beginCut r d)) ∧
      (∀ d ∈ m.map (fun d => endCut r (beginCut r d)), d ∉ l →
        d.range.mEnd ≤ r.mBegin ∨ r.mEnd ≤ d.range.mBegin) ∧
      ∀ d ∈ l, r.mBegin < d.range.mEnd ∧ d.range.mBegin < r.mEnd := by
  by_cases hnone : trim m r = some (m, []) ∧
      ∀ d ∈ m, d.range.mEnd ≤ r.mBegin ∨ r.mEnd ≤ d.range.mBegin
  · rw [map_fixed fun d hd => cuts_of_clear hr (hnone.2 d hd)]
    exact ⟨[], hnone.1, hm, fun d hd _ => hnone.2 d hd, nofun⟩
  -- otherwise `trim` goes on to the cuts
  cases h : endsAfter m r.mBegin with
  | nil =>
    refine absurd ⟨by unfold trim; rw [h], fun d hd => .inl ?_⟩ hnone
    exact of_decide_eq_true (dropWhile_eq_nil_iff.1 h d hd)
  | cons b rest =>
    by_cases hge : b.range.mBegin ≥ r.mEnd
    · refine absurd ⟨by unfold trim; rw [h]; exact if_pos hge, fun d hd => ?_⟩ hnone
      obtain ⟨a, rfl, ha, -, -⟩ := around_endsAfter hm h
      rcases mem_append.1 hd with hd | hd
      · exact .inl (ha d hd)
      · exact .inr (hge.trans ((hm.sublist (sublist_append_right a _)).head_le d hd))
    obtain ⟨h₁, hap₁⟩ := cutBegin_eq hm h
    obtain ⟨h₂, hap₂⟩ := cutEnd_eq hap₁ r
    rw [map_map] at h₂ hap₂
    unfold trim
    rw [h]
    simp only
    rw [if_neg hge, h₁, Option.bind_eq_bind, Option.bind_some, h₂]
    exact ⟨_, rfl, hap₂, found_overlap hap₂ hr⟩

theorem trim_spec (hm : Apart 0 m) (hr : r.mBegin ≤ r.mEnd) :
    ∃ m' l, trim m r = some (m', l) ∧ CutDown r m m' ∧
      ∀ d ∈ m', d ∉ l → d.range.mEnd ≤ r.mBegin ∨ r.mEnd ≤ d.range.mBegin := by
  obtain ⟨l, htrim, hap, hclear, -⟩ := trim_eq hm hr
  refine ⟨_, l, htrim, ⟨hap, (length_map _).le, fun d' hd' => ?_⟩, hclear⟩
  obtain ⟨d, hd, rfl⟩ := mem_map.1 hd'
  exact ⟨d, hd, narrower_cuts r d⟩

end Cuts

/-- `c'` is `c` with other downloads, and perhaps with fewer pending reads. -/
structure SameFile (c c' : FileContext) : Prop where
  rows : c'.rows = c.rows
  persistedSize : c'.persistedSize = c.persistedSize
  size : c'.size = c.size
  mOnDisk : c'.mOnDisk = c.mOnDisk
  replaced : c'.replaced = c.replaced
  pending : c'.mPendingReadRequests.Sublist c.mPendingReadRequests

theorem SameFile.trans {c'' : FileContext} (h : SameFile c c') (h' : SameFile c' c'') :
    SameFile c c'' :=
  ⟨h'.rows.trans h.rows, h'.persistedSize.trans h.persistedSize, h'.size.trans h.size,
    h'.mOnDisk.trans h.mOnDisk, h'.replaced.trans h.replaced, h'.pending.trans h.pending⟩

section

variable (c : FileContext)

theorem SameFile.setDownloads (large : Bool) (m) : SameFile c (c.setDownloads large m) := by
  cases large <;> exact ⟨rfl, rfl, rfl, rfl, rfl, List.Sublist.refl _⟩

theorem SameFile.failed (r) : SameFile c (c.failed r) :=
  ⟨rfl, rfl, rfl, rfl, rfl, filter_sublist⟩

theorem SameFile.completed (large : Bool) (d) : SameFile c (c.completed large d) :=
  (SameFile.setDownloads c large _).trans (.failed _ _)

theorem downloads_completed (large large' : Bool) (d) :
    (c.completed large d).downloads large' =
      if large' = large then (c.downloads large).erase d else c.downloads large' := by
  cases large <;> cases large' <;> rfl

end

theorem foldl_completed (large : Bool) : ∀ (l : List Download) (c : FileContext),
    SameFile c (l.foldl (fun c d => c.completed large d) c) ∧
    ∀ large', (l.foldl (fun c d => c.completed large d) c).downloads large' =
      if large' = large then (c.downloads large).diff l else c.downloads large'
  | [], c => ⟨⟨rfl, rfl, rfl, rfl, rfl, List.Sublist.refl _⟩, fun large' => by
      cases large <;> cases large' <;> rfl⟩
  | d :: l, c => by
      obtain ⟨hs, hd⟩ := foldl_completed large l (c.completed large d)
      refine ⟨(SameFile.completed c large d).trans hs, fun large' => ?_⟩
      rw [foldl_cons, hd, downloads_completed, downloads_completed, if_pos rfl, diff_cons]
      split <;> rfl

/-- **`cancel(range)`**: the downloads are cut down, and none overlaps `r` any more. -/
theorem cancel_spec (hd : ∀ large, Apart 0 (c.downloads large)) (hr : r.mBegin ≤ r.mEnd) :
    ∃ c', c.cancel r = some c' ∧ SameFile c c' ∧
      ∀ large, CutDown r (c.downloads large) (c'.downloads large) ∧
        ∀ d ∈ c'.downloads large, d.range.mEnd ≤ r.mBegin ∨ r.mEnd ≤ d.range.mBegin := by
  obtain ⟨mL, lL, hL, hcL, hoL⟩ := trim_spec (hd true) hr
  obtain ⟨mS, lS, hS, hcS, hoS⟩ := trim_spec (hd false) hr
  simp only [downloads_true, downloads_false] at hL hS hcL hcS
  obtain ⟨hs₁, hd₁⟩ := foldl_completed true lL { c with mLarge := mL, mSmall := mS }
  obtain ⟨hs₂, hd₂⟩ := foldl_completed false lS
    (lL.foldl (fun c d => c.completed true d) { c with mLarge := mL, mSmall := mS })
  have hs₀ : SameFile c { c with mLarge := mL, mSmall := mS } :=
    ⟨rfl, rfl, rfl, rfl, rfl, List.Sublist.refl _⟩
  refine ⟨_, by unfold cancel; rw [hL, hS]; rfl, (hs₀.trans hs₁).trans hs₂, fun large => ?_⟩
  have hdiff : ∀ {m l : List Download}, Apart 0 m → ∀ {d : Download}, d ∈ m.diff l → d ∈ m ∧ d ∉ l :=
    fun hm => (nodup_of_apart hm).mem_sdiff_iff.1
  cases large with
  | true =>
    rw [hd₂, if_neg (by decide), hd₁]
    exact ⟨hcL.trans (.of_sublist hcL.apart (diff_sublist _ _)), fun d h =>
      hoL d (hdiff hcL.apart h).1 (hdiff hcL.apart h).2⟩
  | false =>
    rw [hd₂, hd₁]
    exact ⟨hcS.trans (.of_sublist hcS.apart (diff_sublist _ _)), fun d h =>
      hoS d (hdiff hcS.apart h).1 (hdiff hcS.apart h).2⟩

/-! ## 4. The invariant -/

/-- **The rows are the ranges on disk.** The ranges do not touch, the downloads do not overlap, and
    all lie in the file. -/
structure Consistent (c : FileContext) : Prop where
  rows : c.rows.Perm c.mOnDisk
  bound : c.size + 1 < 2 ^ 64
  apart : Apart 1 c.mOnDisk
  within : ∀ r ∈ c.mOnDisk, r.mEnd ≤ c.size
  downloads : ∀ large, Apart 0 (c.downloads large)
  inFile : ∀ large, ∀ d ∈ c.downloads large, d.range.mEnd ≤ c.size

theorem Consistent.ofSize (hn : n + 1 < 2 ^ 64) : Consistent (ofSize n) :=
  ⟨.rfl, hn, .nil 1, by simp [FileContext.ofSize], fun large => by
    cases large <;> exact .nil 0, fun large d hd => by cases large <;> cases hd⟩

/-- A step from `c` to `c'` keeps this, and the persisted size the size of the file. -/
structure Keeps (c c' : FileContext) : Prop where
  consistent : Consistent c'
  size : c.persistedSize = c.size → c'.persistedSize = c'.size

theorem Consistent.of_sameFile (h : Consistent c) (hs : SameFile c c')
    (hd : ∀ large, Apart 0 (c'.downloads large))
    (hf : ∀ large, ∀ d ∈ c'.downloads large, d.range.mEnd ≤ c.size) : Consistent c' :=
  ⟨by rw [hs.rows, hs.mOnDisk]; exact h.rows, hs.size ▸ h.bound,
    hs.mOnDisk ▸ h.apart, by rw [hs.mOnDisk, hs.size]; exact h.within, hd,
    hs.size ▸ hf⟩

theorem Consistent.of_cutDown (h : Consistent c) (hs : SameFile c c')
    (hc : ∀ large, CutDown r (c.downloads large) (c'.downloads large)) : Consistent c' := by
  refine h.of_sameFile hs (fun large => (hc large).apart) fun large d' hd' => ?_
  obtain ⟨d, hd, hn⟩ := (hc large).narrower d' hd'
  exact hn.end_le.trans (h.inFile large d hd)

/-- A step that updates the ranges with `r`, and the size of the file to `n`. -/
theorem Consistent.updateRanges (h : Consistent c) (hr : r.mBegin ≤ r.mEnd)
    (hlt : r.mEnd + 1 < 2 ^ 64) (hne : r.mBegin < r.mEnd ∨ ∃ v ∈ c.mOnDisk, v.mEnd = r.mBegin) :
    ∃ c' x, c.updateRanges r = some (c', x) ∧ Consistent { c' with size := max c.size r.mEnd } ∧
      c'.persistedSize = max c.size r.mEnd ∧ c'.size = c.size ∧
      (∀ large, c'.downloads large = c.downloads large) ∧
      c'.mPendingReadRequests = c.mPendingReadRequests ∧ c'.replaced = c.replaced ∧
      ∀ p, p ∈ cover c'.mOnDisk ↔
        p ∈ cover c.mOnDisk ∨ (min r.mBegin c.size ≤ p ∧ p < r.mEnd) := by
  obtain ⟨rows, t, x, he, hp, ht, hw, hcov⟩ := updateRanges_spec h.rows h.apart h.within hr hlt hne
  have hb := h.bound
  refine ⟨_, x, he, ⟨hp, by simp only; omega, ht, hw, h.downloads, fun large d hd => ?_⟩, rfl, rfl,
    fun _ => rfl, rfl, rfl, hcov⟩
  exact (h.inFile large d hd).trans (le_max_left _ _)

/-- **What `write`, `append` and `grow` do**: nothing, or update the ranges and the size of the file
    with one range. -/
inductive UpdateStep (c : FileContext) : FileContext → Prop
  | same : UpdateStep c c
  | updated {r : FileRange} (hr : r.mBegin ≤ r.mEnd) (hlt : r.mEnd + 1 < 2 ^ 64)
      (hne : r.mBegin < r.mEnd ∨ ∃ v ∈ c.mOnDisk, v.mEnd = r.mBegin) {k : FileContext}
      {x : FileRange} (hk : c.updateRanges r = some (k, x)) : UpdateStep c { k with size := max c.size r.mEnd }

section

variable (h : Consistent c)
include h

theorem Consistent.updateStep (hs : UpdateStep c c') : Keeps c c' := by
  cases hs with
  | same => exact ⟨h, id⟩
  | @updated r hr hlt hne k x hk =>
    obtain ⟨k', _, hk', hst, hps, _⟩ := h.updateRanges hr hlt hne
    rw [hk] at hk'
    cases hk'
    exact ⟨hst, fun _ => hps⟩

theorem write_cases (hr : r.mBegin ≤ r.mEnd) (hlt : r.mEnd + 1 < 2 ^ 64)
    (count : Nat) : ∃ c', c.write r count = some c' ∧ UpdateStep c c' := by
  unfold write
  simp only
  split
  · exact ⟨c, rfl, .same⟩
  have hle : min count r.length ≤ r.mEnd - r.mBegin := min_le_right _ _
  generalize hx : ({ r with mEnd := r.mBegin + min count r.length } : FileRange) = x
  have hxlt : x.mBegin < x.mEnd ∧ x.mEnd + 1 < 2 ^ 64 := by
    rw [← hx]
    simp only
    omega
  obtain ⟨k, _, hk, _, _, hsz, _⟩ := h.updateRanges (le_of_lt hxlt.1) hxlt.2 (.inl hxlt.1)
  refine ⟨_, by rw [hk]; rfl, ?_⟩
  unfold written
  rw [hsz]
  exact .updated (le_of_lt hxlt.1) hxlt.2 (.inl hxlt.1) hk

theorem append_cases {length : Nat} (hlt : c.size + length + 1 < 2 ^ 64)
    (hne : 0 < length ∨ ∃ v ∈ c.mOnDisk, v.mEnd = c.size) :
    ∃ c', c.append length = some c' ∧ UpdateStep c c' := by
  have hof : ofEnds c.size (u64 (c.size + length)) = ⟨c.size, c.size + length⟩ := by
    rw [u64, Nat.mod_eq_of_lt (by omega), ofEnds_of_le (Nat.le_add_right _ _)]
  have hne' : (⟨c.size, c.size + length⟩ : FileRange).mBegin < c.size + length ∨
      ∃ v ∈ c.mOnDisk, v.mEnd = c.size := hne.imp_left fun h => by simp only; omega
  obtain ⟨k, _, hk, _, _, hsz, _⟩ := h.updateRanges
    (Nat.le_add_right _ _) hlt hne'
  unfold append
  simp only [hof, hk]
  refine ⟨_, rfl, ?_⟩
  unfold written
  rw [hsz]
  exact .updated (Nat.le_add_right _ _) hlt hne' hk

theorem grow_cases (hn : c.size < n) (hlt : n + 1 < 2 ^ 64) :
    ∃ k, c.grow n c.size = some k ∧ UpdateStep c { k with size := n } := by
  obtain ⟨k, _, hk, _⟩ := h.updateRanges (r := ⟨c.size, n⟩) hn.le hlt (.inl hn)
  have hs := UpdateStep.updated hn.le hlt (.inl hn) hk
  rw [max_eq_right hn.le] at hs
  unfold grow
  rw [ofEnds_of_le hn.le, hk]
  exact ⟨k, rfl, hs⟩

end

/-- **What `shrink` does**: the downloads make room for the bytes that are cut off, and what is on
    disk is what was, below the new size. The persisted size is updated when some range ends after
    the new size. -/
structure ShrinkStep (c : FileContext) (n : Nat) (c' : FileContext) : Prop where
  consistent : Consistent { c' with size := n }
  size : (∃ v ∈ c.mOnDisk, n < v.mEnd) → c'.persistedSize = n
  downloads : ∀ large, CutDown ⟨n, c.size⟩ (c.downloads large) (c'.downloads large)
  onDisk : ∀ p, p ∈ cover c'.mOnDisk ↔ p ∈ cover c.mOnDisk ∧ p < n
  pending : c'.mPendingReadRequests.Sublist c.mPendingReadRequests

section

variable (h : Consistent c)
include h

theorem shrink_spec (hn : n < c.size) : ∃ c', c.shrink n c.size = some c' ∧ ShrinkStep c n c' := by
  have hof : FileRange.ofEnds c.size n = ⟨n, c.size⟩ := by
    simp only [FileRange.ofEnds, FileRange.mk.injEq]
    omega
  obtain ⟨k, hk, hs, hc⟩ := cancel_spec h.downloads (r := ⟨n, c.size⟩) hn.le
  have hst := h.of_cutDown hs fun large => (hc large).1
  have hsize := hs.size
  have hbound := h.bound
  -- the downloads are within the new size
  have hin : ∀ large, ∀ d ∈ k.downloads large, d.range.mEnd ≤ n := fun large d hd => by
    have h1 : d.range.mBegin < d.range.mEnd := (hst.downloads large).nonempty d hd
    have h2 := hst.inFile large d hd
    have h3 := (hc large).2 d hd
    simp only at h3
    omega
  -- the ranges before and from the first that ends after the new size
  obtain ⟨a, hcut, hbelow⟩ := exists_append_endsAfter k.mOnDisk n
  unfold shrink
  rw [hof, hk]
  simp only [Option.bind_eq_bind, Option.bind_some]
  cases hb : endsAfter k.mOnDisk n with
  | nil =>
    have hall : ∀ v ∈ k.mOnDisk, v.mEnd ≤ n := fun v hv =>
      of_decide_eq_true (dropWhile_eq_nil_iff.1 hb v hv)
    refine ⟨k, rfl, ⟨hst.rows, by simp only; omega, hst.apart, hall, hst.downloads, hin⟩, ?_,
      fun large => (hc large).1, fun p => ?_, hs.pending⟩
    · rintro ⟨v, hv, hlt⟩
      exact absurd (hall v (hs.mOnDisk ▸ hv)) hlt.not_ge
    rw [hs.mOnDisk]
    refine ⟨fun hex => ⟨hex, ?_⟩, And.left⟩
    obtain ⟨v, hv, hp⟩ := hex
    exact lt_of_lt_of_le hp.2 (hall v (hs.mOnDisk ▸ hv))
  | cons b rest =>
    rw [hb] at hcut
    have hap := hst.apart
    rw [hcut] at hap
    have hbmem : b ∈ k.mOnDisk := by simp [hcut]
    have hbne : b.mBegin < b.mEnd := hst.apart.nonempty b hbmem
    have hbin := hst.within b hbmem
    have hbn : n < b.mEnd := mem_endsAfter hst.apart (hb ▸ mem_cons_self)
    have hof' : ofEnds b.mBegin c.size = ⟨b.mBegin, c.size⟩ :=
      ofEnds_of_le (by omega)
    have hbefore : ∀ v ∈ a, v.mEnd < b.mBegin := hap.around.1
    have hbehind : ∀ v ∈ rest, b.mEnd < v.mBegin := hap.around.2
    have hmerged : Merged k.mOnDisk ⟨b.mBegin, c.size⟩ ⟨b.mBegin, c.size⟩ a (b :: rest) [] := by
      refine ⟨by simp [hcut], le_rfl, le_rfl, hbefore, fun v hv => ⟨?_, ?_⟩, by simp,
        fun p hp => .inl hp, .inl rfl⟩
      · exact (hap.sublist (sublist_append_right a _)).head_le v hv
      have := hst.within v (by rw [hcut]; exact mem_append_right _ hv)
      simp only
      omega
    have hrows : (removeRanges k.rows ⟨b.mBegin, c.size⟩).Perm a := by
      have := removeRanges_merged hst.apart hmerged
      rw [append_nil] at this
      exact this ▸ hst.rows.filter _
    have hrem : remove k.mOnDisk (b :: rest) [] = a := by
      unfold remove
      rw [hcut, append_nil]
      exact take_left' (by simp only [length_append]; omega)
    have haap : Apart 1 a := hap.sublist (sublist_append_left _ _)
    -- below the new size there is `a`, and the part of `b` before it
    have hcover : ∀ p, (p ∈ cover c.mOnDisk ∧ p < n) ↔ p ∈ cover a ∨ (b.mBegin ≤ p ∧ p < n) := by
      intro p
      rw [← hs.mOnDisk, hcut]
      simp only [mem_cover_append, mem_cover_cons]
      constructor
      · rintro ⟨hp | hp | ⟨v, hv, hp⟩, hpn⟩
        · exact .inl hp
        · exact .inr ⟨hp.1, hpn⟩
        · have h1 := hbehind v hv
          have h2 : v.mBegin ≤ p := hp.1
          omega
      rintro (⟨v, hv, hp⟩ | ⟨hp1, hp2⟩)
      · refine ⟨.inl ⟨v, hv, hp⟩, lt_of_lt_of_le hp.2 (hbelow v hv)⟩
      · exact ⟨.inr (.inl ⟨hp1, by show p < b.mEnd; omega⟩), hp2⟩
    simp only [hof', hrem]
    split
    · -- the first is cut by the new size
      rename_i hlt
      have haap' : Apart 1 (a ++ []) := by rwa [append_nil]
      have hle : ∀ v ∈ a, v.mEnd ≤ b.mBegin := fun v hv => (hbefore v hv).le
      have hrows' : (removeRanges k.rows ⟨b.mBegin, c.size⟩).Perm (a ++ []) := by
        rwa [append_nil]
      have htry : tryAdd id a ⟨b.mBegin, n⟩ = some (a ++ [⟨b.mBegin, n⟩], ⟨b.mBegin, n⟩, true) := by
        have hfit : tryAdd id (a ++ []) ⟨b.mBegin, n⟩ = _ := tryAdd_fit haap' hlt hle (by simp)
        rwa [append_nil] at hfit
      rw [addRange_fit (x := ⟨b.mBegin, n⟩) hrows' haap' hlt hle (by simp), htry]
      refine ⟨_, rfl, ⟨?_, by simp only; omega, haap'.insert hlt hbefore (by simp), fun v hv => ?_,
        hst.downloads, hin⟩, fun _ => rfl, fun large => (hc large).1, fun p => ?_, hs.pending⟩
      · exact (hrows.cons _).trans (perm_append_singleton _ _).symm
      · rcases mem_append.1 hv with hv | hv
        · exact hbelow v hv
        · rw [mem_singleton.1 hv]
      rw [hcover]
      simp only [mem_cover_append, mem_cover_cons, not_mem_cover_nil, or_false]
      exact .rfl
    · rename_i hlt
      refine ⟨_, rfl, ⟨hrows, by simp only; omega, haap, hbelow, hst.downloads, hin⟩, fun _ => rfl, fun large => (hc large).1, fun p => ?_, hs.pending⟩
      rw [hcover]
      exact ⟨.inl, fun h => h.elim id fun h => by omega⟩

theorem truncate_cases (hlt : n + 1 < 2 ^ 64) :
    ∃ c', c.truncate n = some c' ∧
      (UpdateStep c c' ∨ ∃ k, n < c.size ∧ ShrinkStep c n k ∧ c' = { k with size := n }) := by
  unfold truncate
  split
  · exact ⟨c, rfl, .inl .same⟩
  by_cases hgt : n > c.size
  · obtain ⟨k, hk, hs⟩ := grow_cases h hgt hlt
    rw [if_pos hgt, hk]
    exact ⟨_, rfl, .inl hs⟩
  have hn : n < c.size := by omega
  obtain ⟨k, hk, hs⟩ := shrink_spec h hn
  rw [if_neg hgt, hk]
  exact ⟨_, rfl, .inr ⟨k, hn, hs, rfl⟩⟩

theorem Consistent.truncate (hlt : n + 1 < 2 ^ 64) :
    ∃ c', c.truncate n = some c' ∧ Consistent c' ∧
      ((n < c.size → ∃ v ∈ c.mOnDisk, n < v.mEnd) → Keeps c c') := by
  obtain ⟨c', hc', hs⟩ := truncate_cases h hlt
  refine ⟨c', hc', ?_⟩
  rcases hs with hs | ⟨k, hn, hs, rfl⟩
  · exact ⟨(h.updateStep hs).consistent, fun _ => h.updateStep hs⟩
  · exact ⟨hs.consistent, fun hend => ⟨hs.consistent, fun _ => hs.size (hend hn)⟩⟩

theorem Consistent.reclaim : Keeps c c.reclaim := by
  unfold FileContext.reclaim
  split
  · exact ⟨h, id⟩
  have hnil : removeRanges c.rows (.ofEnds 0 c.size) = [] := filter_eq_nil_iff.2 fun v hv => by
    have := h.within v (h.rows.mem_iff.1 hv)
    simp [ofEnds, this]
  refine ⟨⟨?_, h.bound, .nil 1, by simp, h.downloads, h.inFile⟩, fun _ => rfl⟩
  simp only [hnil]
  exact .rfl

end

end FileContext

end MegaSdk.FileService
