/-
  File:      MegaSdk/FileService/Reclaim.lean
  Subject:   WHICH FILES ARE RECLAIMED (`FileServiceContext::reclaimable` and `storageInfo`,
             file_service_context.cpp, with their queries in file_service_queries.cpp).

  Both look at the files that are not removed, take up storage and were not accessed lately.
  `reclaimable` takes them as its query returns them until enough is freed; `storageInfo` adds up,
  in SQL, the files for which enough was not freed before. The first query orders by access time
  only, the second one by access time and id.

  * `eligible`, `IsAnswer` -- the rows of the query, and the orders `order by accessed asc` allows;
  * `sum_takeOldest` -- over rows in the order of the aggregate, both are the same;
  * `IsAnswer.tiesById` -- if no two files were accessed at the same time there is one answer;
  * `reclaimable_iff` -- so the two agree for all sizes exactly in that case, and in every case for
    an answer with ties in the order of ids.
-/
import Mathlib

namespace MegaSdk.FileService.Reclaim

open List

/-! ## 1. The code -/

structure File where
  id : Nat
  accessed : Int
  removed : Bool
  allocated_size : Nat
  deriving DecidableEq

/-- `where allocated_size <> 0 and accessed <= :accessed and removed = 0`. -/
def eligible (accessed : Int) (files : List File) : List File :=
  files.filter fun f => f.allocated_size != 0 && f.accessed ≤ accessed && !f.removed

def sumSizes (files : List File) : Nat := (files.map File.allocated_size).sum

/-- What `mGetReclaimableFiles` may return: the rows in an order by access time. -/
structure IsAnswer (accessed : Int) (files answer : List File) : Prop where
  rows : answer.Perm (eligible accessed files)
  ordered : answer.Pairwise fun f g => f.accessed ≤ g.accessed

structure ReclaimOptions where
  mReclaimThreshold : Option Nat
  mReclaimTarget : Nat

/-- The loop over the answer: `used > reclaimTarget`. -/
def takeOldest (reclaimTarget : Nat) : Nat → List File → List File
  | _, [] => []
  | used, f :: files =>
    if used > reclaimTarget then
      f :: takeOldest reclaimTarget (used - min f.allocated_size used) files
    else []

/-- `FileServiceContext::reclaimable`, with the answer of its query: the files whose ids it
    returns. -/
def reclaimable (options : ReclaimOptions) (files answer : List File) : List File :=
  match options.mReclaimThreshold with
  | none => []
  | some threshold =>
    if threshold ≥ sumSizes files then []
    else takeOldest options.mReclaimTarget (sumSizes files) answer

/-- `order by accessed asc, id asc`. -/
def before (f g : File) : Bool :=
  f.accessed < g.accessed || (f.accessed == g.accessed && f.id < g.id)

/-- `sum(allocated_size) over (order by accessed asc, id asc)`. -/
def running (rows : List File) (f : File) : Nat := sumSizes (rows.filter fun g => !before f g)

/-- `size_to_reclaim` of `mGetStorageInfo`. -/
def sizeToReclaim (accessed : Int) (target_remaining_size : Nat) (files : List File) : Nat :=
  let rows := eligible accessed files
  sumSizes (rows.filter fun f =>
    (sumSizes files : Int) - running rows f + f.allocated_size > target_remaining_size)

/-! ## 2. Rows in the order of the aggregate -/

def Ordered (rows : List File) : Prop := rows.Pairwise fun f g => before f g = true

variable {f g : File} {rows files answer : List File} {accessed : Int}

@[simp] theorem sumSizes_cons : sumSizes (f :: files) = f.allocated_size + sumSizes files := by
  simp [sumSizes]

theorem sumSizes_perm (hp : files.Perm answer) : sumSizes files = sumSizes answer :=
  (hp.map _).sum_eq

theorem sumSizes_filter_le (p : File → Bool) : sumSizes (files.filter p) ≤ sumSizes files := by
  induction files with
  | nil => exact le_rfl
  | cons f files ih =>
    rw [filter_cons]
    split
    · rw [sumSizes_cons, sumSizes_cons]
      omega
    · rw [sumSizes_cons]
      omega

theorem before_iff : before f g = true ↔
    f.accessed < g.accessed ∨ f.accessed = g.accessed ∧ f.id < g.id := by
  simp [before]

theorem not_before_self (f) : before f f = false := by
  rw [← Bool.not_eq_true, before_iff]
  omega

theorem before_asymm (hfg : before f g = true) : before g f = false := by
  rw [before_iff] at hfg
  rw [← Bool.not_eq_true, before_iff]
  omega

theorem size_le_running (hf : f ∈ rows) : f.allocated_size ≤ running rows f := by
  have hmem : f ∈ rows.filter fun g => !before f g :=
    mem_filter.2 ⟨hf, by rw [not_before_self]; rfl⟩
  exact single_le_sum (fun _ _ => Nat.zero_le _) _ (mem_map_of_mem hmem)

theorem running_perm (hp : rows.Perm answer) (f) : running rows f = running answer f :=
  sumSizes_perm (hp.filter _)

theorem running_head (ho : Ordered (f :: rows)) : running (f :: rows) f = f.allocated_size := by
  have hnone : rows.filter (fun g => !before f g) = [] := by
    rw [filter_eq_nil_iff]
    intro g hg
    rw [(pairwise_cons.1 ho).1 g hg]
    decide
  rw [running, filter_cons, not_before_self, hnone]
  simp [sumSizes]

theorem running_tail (ho : Ordered (f :: rows)) (hg : g ∈ rows) :
    running (f :: rows) g = f.allocated_size + running rows g := by
  have hfg := before_asymm ((pairwise_cons.1 ho).1 g hg)
  rw [running, filter_cons, hfg]
  simp [running]

/-- **The loop and the aggregate** over rows in the order of the aggregate, when the rows before them
    had the size `done` of a total of `used + done`. -/
theorem sum_takeOldest (ho : Ordered rows) (target used done : Nat) (hused : sumSizes rows ≤ used) :
    sumSizes (takeOldest target used rows) =
      sumSizes (rows.filter fun f =>
        ((used + done : Nat) : Int) - (done + running rows f : Nat) + f.allocated_size > target) := by
  induction rows generalizing used done with
  | nil => rfl
  | cons f rows ih =>
    rw [sumSizes_cons] at hused
    have hrest : ∀ g ∈ rows, running (f :: rows) g = f.allocated_size + running rows g :=
      fun g => running_tail ho
    rw [takeOldest, filter_cons, running_head ho]
    split
    · rename_i hgt
      rw [if_pos (by simp only [decide_eq_true_eq]; omega), sumSizes_cons, ih (pairwise_cons.1 ho).2 _ (done + f.allocated_size) (by omega)]
      congr 2
      refine filter_congr fun g hg => decide_eq_decide.2 ?_
      rw [hrest g hg]
      omega
    -- once enough is freed, no later row counts
    rw [if_neg (by simp only [decide_eq_true_eq]; omega), filter_eq_nil_iff.2]
    intro g hg
    have hsize := size_le_running hg
    rw [hrest g hg]
    simp only [decide_eq_true_eq]
    omega

/-! ## 3. Answers -/

def Keyed (files : List File) : Prop := (files.map File.id).Nodup

/-- The answer has ties in the order of ids. -/
def TiesById (answer : List File) : Prop :=
  answer.Pairwise fun f g => f.accessed = g.accessed → f.id < g.id

theorem IsAnswer.ordered_of_ties (h : IsAnswer accessed files answer) (ht : TiesById answer) :
    Ordered answer := by
  refine List.Pairwise.imp₂ ?_ h.ordered ht
  intro f g hle hid
  rw [before_iff]
  rcases hle.lt_or_eq with hlt | heq
  · exact .inl hlt
  · exact .inr ⟨heq, hid heq⟩

/-- **An answer with ties in the order of ids**: what is selected is what is reported. -/
theorem reclaimable_of_ties {threshold : Nat} {target : Nat} (h : IsAnswer accessed files answer)
    (ht : TiesById answer) (hused : threshold < sumSizes files) :
    sumSizes (reclaimable ⟨some threshold, target⟩ files answer) =
      sizeToReclaim accessed target files := by
  have hle : sumSizes answer ≤ sumSizes files := by
    rw [sumSizes_perm h.rows]
    exact sumSizes_filter_le _
  rw [reclaimable]
  simp only
  rw [if_neg hused.not_ge, sum_takeOldest (h.ordered_of_ties ht) target _ 0 hle,
    sumSizes_perm (h.rows.filter _)]
  congr 1
  refine filter_congr fun f _ => decide_eq_decide.2 ?_
  rw [running_perm h.rows, add_zero, zero_add]

/-! ## 4. Ties -/

def resize (sizes : Nat → Nat) (files : List File) : List File :=
  files.map fun f => { f with allocated_size := sizes f.id }

/-- A file that can be reclaimed if it takes up storage. -/
def File.Candidate (accessed : Int) (f : File) : Prop := f.removed = false ∧ f.accessed ≤ accessed

/-- No two candidates were accessed at the same time. -/
def DistinctTimes (accessed : Int) (files : List File) : Prop :=
  ∀ f ∈ files, ∀ g ∈ files, f.Candidate accessed → g.Candidate accessed →
    f.accessed = g.accessed → f.id = g.id

/-- What is selected is what is reported, for every threshold below the usage, target and answer. -/
def Agree (accessed : Int) (files : List File) : Prop :=
  ∀ threshold target answer, threshold < sumSizes files → IsAnswer accessed files answer →
    sumSizes (reclaimable ⟨some threshold, target⟩ files answer) = sizeToReclaim accessed target files

theorem keyed_resize (sizes : Nat → Nat) (hk : Keyed files) : Keyed (resize sizes files) := by
  rwa [Keyed, resize, map_map]

theorem distinctTimes_resize (sizes : Nat → Nat) (hd : DistinctTimes accessed files) :
    DistinctTimes accessed (resize sizes files) := by
  intro f hf g hg hcf hcg heq
  obtain ⟨f', hf', rfl⟩ := mem_map.1 hf
  obtain ⟨g', hg', rfl⟩ := mem_map.1 hg
  exact hd f' hf' g' hg' hcf hcg heq

theorem mem_eligible : f ∈ eligible accessed files ↔
    f ∈ files ∧ f.Candidate accessed ∧ f.allocated_size ≠ 0 := by
  simp only [eligible, mem_filter, File.Candidate, Bool.and_eq_true, bne_iff_ne,
    decide_eq_true_eq, Bool.not_eq_true']
  tauto

/-- Without ties every answer has them in the order of ids. -/
theorem IsAnswer.tiesById (h : IsAnswer accessed files answer) (hk : Keyed files)
    (hd : DistinctTimes accessed files) : TiesById answer := by
  have hids : (answer.map File.id).Nodup := by
    refine (h.rows.map File.id).nodup_iff.2 ?_
    exact hk.sublist (filter_sublist.map File.id)
  have hpair : answer.Pairwise fun f g => f.id ≠ g.id := pairwise_map.1 hids
  refine hpair.imp_of_mem fun {f g} hf hg hne heq => ?_
  obtain ⟨hf, hcf, _⟩ := mem_eligible.1 (h.rows.mem_iff.1 hf)
  obtain ⟨hg, hcg, _⟩ := mem_eligible.1 (h.rows.mem_iff.1 hg)
  exact absurd (hd f hf g hg hcf hcg heq) hne

theorem exists_perm_two (hf : f ∈ files) (hg : g ∈ files) (hne : f ≠ g) :
    ∃ rest, files.Perm (f :: g :: rest) := by
  have hg' : g ∈ files.erase f := (mem_erase_of_ne hne.symm).2 hg
  exact ⟨(files.erase f).erase g,
    (perm_cons_erase hf).trans ((perm_cons_erase hg').cons f)⟩

def twoSizes (f g : File) (id : Nat) : Nat := if id = f.id then 1 else if id = g.id then 2 else 0

/-- With these sizes the two files are all that can be reclaimed, and all that is used. -/
theorem resize_twoSizes (hk : Keyed files) (hf : f ∈ files) (hg : g ∈ files) (hid : f.id ≠ g.id)
    (hcf : f.Candidate accessed) (hcg : g.Candidate accessed) :
    (eligible accessed (resize (twoSizes f g) files)).Perm
        [{ f with allocated_size := 1 }, { g with allocated_size := 2 }] ∧
      sumSizes (resize (twoSizes f g) files) = 3 := by
  obtain ⟨rest, hp⟩ := exists_perm_two hf hg fun h => hid (congrArg File.id h)
  have hkeys : Keyed (f :: g :: rest) := (hp.map File.id).nodup_iff.1 hk
  have hrest : ∀ h ∈ rest, twoSizes f g h.id = 0 := by
    intro h hh
    have hid' := mem_map_of_mem (f := File.id) hh
    rw [Keyed, map_cons, map_cons, nodup_cons, nodup_cons] at hkeys
    rw [twoSizes, if_neg, if_neg]
    · exact fun heq => hkeys.2.1 (heq ▸ hid')
    · exact fun heq => hkeys.1 (heq ▸ mem_cons_of_mem _ hid')
  have hsizef : twoSizes f g f.id = 1 := if_pos rfl
  have hsizeg : twoSizes f g g.id = 2 := by
    rw [twoSizes, if_neg (Ne.symm hid), if_pos rfl]
  have hrp : (resize (twoSizes f g) files).Perm ({ f with allocated_size := 1 } ::
      { g with allocated_size := 2 } :: resize (twoSizes f g) rest) := by
    have hmap := hp.map fun h : File => { h with allocated_size := twoSizes f g h.id }
    rwa [map_cons, map_cons, hsizef, hsizeg] at hmap
  constructor
  · refine (hrp.filter _).trans (.of_eq ?_)
    have hnone : (resize (twoSizes f g) rest).filter (fun f => f.allocated_size != 0 &&
        f.accessed ≤ accessed && !f.removed) = [] := by
      rw [filter_eq_nil_iff]
      intro h hh
      obtain ⟨h', hh', rfl⟩ := mem_map.1 hh
      simp [hrest h' hh']
    rw [filter_cons_of_pos (by simp [hcf.1, hcf.2]),
      filter_cons_of_pos (by simp [hcg.1, hcg.2]), hnone]
  · have hzero : sumSizes (resize (twoSizes f g) rest) = 0 := by
      rw [sumSizes, resize, map_map]
      refine sum_eq_zero fun a ha => ?_
      obtain ⟨h, hh, rfl⟩ := mem_map.1 ha
      exact hrest h hh
    rw [sumSizes_perm hrp, sumSizes_cons, sumSizes_cons, hzero]
    rfl

/-- Two files accessed at the same time: in the other order one of them is enough. -/
theorem not_agree_of_tie (hk : Keyed files) (hf : f ∈ files) (hg : g ∈ files) (hid : f.id < g.id)
    (hcf : f.Candidate accessed) (hcg : g.Candidate accessed) (heq : f.accessed = g.accessed) :
    ¬ Agree accessed (resize (twoSizes f g) files) := by
  intro hagree
  obtain ⟨hrows, hsum⟩ := resize_twoSizes hk hf hg hid.ne hcf hcg
  have hfg : IsAnswer accessed (resize (twoSizes f g) files)
      [{ f with allocated_size := 1 }, { g with allocated_size := 2 }] :=
    ⟨hrows.symm, by simp [heq]⟩
  have hgf : IsAnswer accessed (resize (twoSizes f g) files)
      [{ g with allocated_size := 2 }, { f with allocated_size := 1 }] :=
    ⟨(List.Perm.swap _ _ _).trans hrows.symm, by simp [heq]⟩
  have hused : 0 < sumSizes (resize (twoSizes f g) files) := by
    rw [hsum]
    decide
  have h1 := hagree 0 1 _ hused hfg
  have h2 := hagree 0 1 _ hused hgf
  rw [← h2, reclaimable, reclaimable, hsum] at h1
  simp [takeOldest] at h1

/-- **What `reclaimable` selects is what `storageInfo` reports** for every answer that has ties in the
    order of ids; and for every answer that is ordered by access time, whatever the sizes, exactly
    when no two candidates were accessed at the same time. -/
theorem reclaimable_iff (accessed : Int) (files : List File) (hk : Keyed files) :
    (∀ threshold target answer, threshold < sumSizes files → IsAnswer accessed files answer →
      TiesById answer → sumSizes (reclaimable ⟨some threshold, target⟩ files answer) =
        sizeToReclaim accessed target files) ∧
    ((∀ sizes, Agree accessed (resize sizes files)) ↔ DistinctTimes accessed files) := by
  refine ⟨fun _ _ _ hused h ht => reclaimable_of_ties h ht hused, fun hall => ?_, fun hd sizes => ?_⟩
  · intro f hf g hg hcf hcg heq
    by_contra hne
    rcases lt_or_gt_of_ne hne with hlt | hlt
    · exact not_agree_of_tie hk hf hg hlt hcf hcg heq (hall _)
    · exact not_agree_of_tie hk hg hf hlt hcg hcf heq.symm (hall _)
  intro threshold target answer hused h
  exact reclaimable_of_ties h
    (h.tiesById (keyed_resize sizes hk) (distinctTimes_resize sizes hd)) hused

/-- Three files of different times: with a target of 5 of 12 bytes the two oldest go. -/
theorem reclaimable_three :
    let files : List File := [⟨1, 30, false, 5⟩, ⟨2, 10, false, 3⟩, ⟨3, 20, false, 4⟩]
    sumSizes (reclaimable ⟨some 0, 5⟩ files [⟨2, 10, false, 3⟩, ⟨3, 20, false, 4⟩, ⟨1, 30, false, 5⟩])
      = sizeToReclaim 30 5 files ∧ sizeToReclaim 30 5 files = 7 := by
  intro files
  have hanswer : IsAnswer 30 files [⟨2, 10, false, 3⟩, ⟨3, 20, false, 4⟩, ⟨1, 30, false, 5⟩] :=
    ⟨by decide, by decide⟩
  have hkeyed : Keyed files := by
    rw [Keyed]
    decide
  have hties : TiesById [⟨2, 10, false, 3⟩, ⟨3, 20, false, 4⟩, ⟨1, 30, false, 5⟩] := by
    rw [TiesById]
    decide
  exact ⟨(reclaimable_iff 30 files hkeyed).1 0 5 _ (by decide) hanswer hties, by decide⟩

/-- Two files of the same time, of one and a hundred bytes, with a target of fifty: all 101 bytes are
    reported, and the answer with the larger file first selects 100. -/
theorem reclaimable_tie :
    let files : List File := [⟨1, 10, false, 1⟩, ⟨2, 10, false, 100⟩]
    let answer : List File := [⟨2, 10, false, 100⟩, ⟨1, 10, false, 1⟩]
    IsAnswer 10 files answer ∧ sumSizes (reclaimable ⟨some 60, 50⟩ files answer) = 100 ∧
      sizeToReclaim 10 50 files = 101 :=
  ⟨⟨by decide, by decide⟩, by decide, by decide⟩

end MegaSdk.FileService.Reclaim
