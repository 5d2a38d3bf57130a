/-
  File:      MegaSdk/FileService/Store.lean
  Subject:   WHAT A FILE CONTEXT HAS PERSISTED IS WHAT IT HAS IN MEMORY (file_context.cpp).

  * `InRange` -- no offset reaches the end of the address space, and an append is not empty or
    touches a range on disk: then the rows are the ranges on disk after every step
    (`consistent_of_run`);
  * `CutsRange` -- a truncation that shrinks the file cuts some range on disk: then the persisted
    size is the size of the file as well;
  * **`persisted_eq_memory`** -- so database and memory agree after every step of such a run, and no
    step of it fails an assertion or violates a constraint of the table;
  * `truncate_uncached_size_kept` -- a truncation that cuts no range on disk returns before it
    updates the persisted size.
-/
import MegaSdk.Base.Loop
import MegaSdk.FileService.Downloads

namespace MegaSdk.FileService

open FileRangeTree

namespace FileContext

/-- The offsets of a step are below the end of the address space, and what it appends is not empty
    unless a range ends at the end of the file. -/
def InRange (c : FileContext) : Op → Prop
  | .write b e _ => max b e + 1 < 2 ^ 64
  | .append length =>
    c.size + length + 1 < 2 ^ 64 ∧ (0 < length ∨ ∃ r ∈ c.mOnDisk, r.mEnd = c.size)
  | .truncate n => n + 1 < 2 ^ 64
  | _ => True

/-- If the step shrinks the file, some range on disk ends after the new size. -/
def CutsRange (c : FileContext) : Op → Prop
  | .truncate n => n < c.size → ∃ r ∈ c.mOnDisk, n < r.mEnd
  | _ => True

/-- **Every step succeeds and keeps rows and ranges together**, and the sizes too if it cuts a
    range. -/
theorem Consistent.exec {c : FileContext} (h : Consistent c) {op : Op} (he : op.Enabled c)
    (hi : InRange c op) :
    ∃ c', exec c op = some c' ∧ Consistent c' ∧ (CutsRange c op → Keeps c c') := by
  have hends : ∀ b e : Nat, (FileRange.ofEnds b e).mBegin ≤ (FileRange.ofEnds b e).mEnd := fun b e =>
    (min_le_left b e).trans (le_max_left b e)
  have hof : ∀ {o : Option FileContext}, (∃ c', o = some c' ∧ Keeps c c') →
      ∃ c', o = some c' ∧ Consistent c' ∧ (CutsRange c op → Keeps c c') :=
    fun ⟨c', hc', hk⟩ => ⟨c', hc', hk.consistent, fun _ => hk⟩
  cases op with
  | write b e count =>
    obtain ⟨c', hc', hs⟩ := write_cases h (hends b e) hi count
    exact hof ⟨c', hc', h.updateStep hs⟩
  | append length =>
    obtain ⟨c', hc', hs⟩ := append_cases h hi.1 hi.2
    exact hof ⟨c', hc', h.updateStep hs⟩
  | truncate n => exact h.truncate hi
  | reclaim => exact hof ⟨_, rfl, h.reclaim⟩
  | cancel b e =>
    obtain ⟨c', hc', hs, hd⟩ := cancel_spec h.downloads (hends b e)
    exact hof ⟨c', hc', hs.keeps (h.of_cutDown hs fun large => (hd large).1)⟩
  | read opt bitrate created q => exact hof (h.read opt bitrate created q)
  | data large d offset length buffer =>
    obtain ⟨c', hc', hs⟩ := data_cases h he ..
    exact hof ⟨c', hc', h.dataStep he hs⟩
  | completed large d => exact hof ⟨_, rfl, h.completed large d⟩
  | completedReplaced r =>
    exact hof ⟨_, rfl, { h with }, id⟩

def StepOf (P : FileContext → Op → Prop) (c c' : FileContext) : Prop :=
  ∃ op, op.Enabled c ∧ P c op ∧ MegaSdk.FileService.exec c op = some c'

/-- **The persisted state is the state in memory**, after every step of a run whose truncations cut
    a range on disk: the rows are the ranges on disk, the persisted size is the size of the file,
    and the ranges lie in the file. No step of it can fail. -/
theorem persisted_eq_memory {n : Nat} (hn : n + 1 < 2 ^ 64) {c : FileContext}
    (hr : Relation.ReflTransGen (StepOf fun c op => InRange c op ∧ CutsRange c op) (ofSize n) c) :
    c.rows.Perm c.mOnDisk ∧ c.persistedSize = c.size ∧ (∀ r ∈ c.mOnDisk, r.mEnd ≤ c.size) ∧
      ∀ op, op.Enabled c → InRange c op → (MegaSdk.FileService.exec c op).isSome := by
  have hinv : Consistent c ∧ c.persistedSize = c.size := by
    refine Base.run_inv (fun c => Consistent c ∧ c.persistedSize = c.size) (fun c c' h hs => ?_)
      ⟨.ofSize hn, rfl⟩ hr
    obtain ⟨op, he, ⟨hi, hcut⟩, hx⟩ := hs
    obtain ⟨k, hk, hst, hkeep⟩ := h.1.exec he hi
    rw [hk] at hx
    cases hx
    exact ⟨hst, (hkeep hcut).size h.2⟩
  refine ⟨hinv.1.rows, hinv.2, hinv.1.within, fun op he hi => ?_⟩
  obtain ⟨k, hk, _⟩ := hinv.1.exec he hi
  simp [hk]

/-- A file of four bytes, of which two are written and then one is cut off. -/
theorem persisted_eq_memory_write_truncate :
    ∃ c, Relation.ReflTransGen (StepOf fun c op => InRange c op ∧ CutsRange c op) (ofSize 4) c ∧
      c.mOnDisk = [⟨1, 2⟩] ∧ c.size = 2 ∧ c.rows.Perm c.mOnDisk ∧ c.persistedSize = c.size := by
  have hrun : Relation.ReflTransGen (StepOf fun c op => InRange c op ∧ CutsRange c op) (ofSize 4)
      { ofSize 2 with rows := [⟨1, 2⟩], mOnDisk := [⟨1, 2⟩] } := by
    refine .tail (.single ⟨.write 1 3 2, trivial, ⟨?_, trivial⟩, rfl⟩)
      ⟨.truncate 2, trivial, ⟨?_, fun _ => ⟨⟨1, 3⟩, by decide, by decide⟩⟩, rfl⟩
    · show max 1 3 + 1 < 2 ^ 64
      decide
    · show 2 + 1 < 2 ^ 64
      decide
  have h := persisted_eq_memory (by decide) hrun
  exact ⟨_, hrun, rfl, rfl, h.1, h.2.1⟩

/-- **A file of ten bytes, none of them on disk, is truncated to five**: its persisted size is
    still ten. -/
theorem truncate_uncached_size_kept :
    ∃ c, MegaSdk.FileService.exec (ofSize 10) (.truncate 5) = some c ∧ c.size = 5 ∧
      c.persistedSize = 10 :=
  ⟨{ ofSize 10 with size := 5 }, rfl, rfl, rfl⟩

end FileContext

end MegaSdk.FileService
