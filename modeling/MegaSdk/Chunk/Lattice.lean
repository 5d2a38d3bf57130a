/-
  File:      MegaSdk/Chunk/Lattice.lean
  Subject:   THE CHUNK LATTICE of `ChunkedHash` (utils.cpp): where the chunks of a file start
             and end.

  Chunks grow by one segment of 128 KiB up to the eighth and have eight segments from then on.
  `chunkfloor` and `chunkceil` walk the eight growing chunks in a loop and round the rest; both
  loops are kept here as the source has them (`growing` is the list the loop counter runs
  through). Positions (`m_off_t`) are integers.

  * `IsChunk c e` -- `[c, e)` is a chunk of the lattice, said without the loops;
  * `chunk_spec` -- a position lies in the chunk from its `chunkfloor` to its `chunkceil`;
  * `IsChunk.unique` -- chunks that share a position are the same chunk, so every position of a
    chunk has the chunk's start as its floor and its end as its ceiling (`chunkfloor_of_mem`,
    `chunkceil_of_mem`).
-/
import Mathlib

namespace MegaSdk

def SEGSIZE : Int := 131072

/-- `x & -m` for a power of two `m`: rounding down to a multiple, also below zero. -/
def landNeg (x m : Int) : Int := x - x % m

/-- The values the loop counter takes: the lengths, in segments, of the growing chunks. -/
def growing : List Int := [1, 2, 3, 4, 5, 6, 7, 8]

/-- The loop of `ChunkedHash::chunkfloor` from chunk start `cp` on. -/
def chunkfloorLoop (p : Int) : List Int → Int → Int
  | [], cp => landNeg (p - cp) (8 * SEGSIZE) + cp
  | i :: is, cp =>
    let np := cp + i * SEGSIZE
    if p ≥ cp ∧ p < np then cp else chunkfloorLoop p is np

/-- `ChunkedHash::chunkfloor`: the start of the chunk that holds `p`. -/
def chunkfloor (p : Int) : Int := chunkfloorLoop p growing 0

def clampTo (limit np : Int) : Int := if limit < 0 ∨ np < limit then np else limit

/-- The loop of `ChunkedHash::chunkceil` from chunk start `cp` on. -/
def chunkceilLoop (p limit : Int) : List Int → Int → Int
  | [], cp => clampTo limit (landNeg (p - cp) (8 * SEGSIZE) + cp + 8 * SEGSIZE)
  | i :: is, cp =>
    let np := cp + i * SEGSIZE
    if p ≥ cp ∧ p < np then clampTo limit np else chunkceilLoop p limit is np

/-- `ChunkedHash::chunkceil(p, limit)`: the end of the chunk that holds `p`, cut at `limit`. -/
def chunkceil (p limit : Int) : Int := chunkceilLoop p limit growing 0

def noLimit : Int := -1

variable {c e p : Int}

/-! ## 1. The chunks, without the loops -/

/-- `[c, e)` is a chunk at or after `cp`, when the chunks from `cp` on have the listed lengths
    and eight segments after that. -/
def ChunkFrom : List Int → Int → Int → Int → Prop
  | [], cp, c, e => cp ≤ c ∧ (c - cp) % (8 * SEGSIZE) = 0 ∧ e = c + 8 * SEGSIZE
  | i :: is, cp, c, e => (c = cp ∧ e = cp + i * SEGSIZE) ∨ ChunkFrom is (cp + i * SEGSIZE) c e

/-- `[c, e)` is a chunk of the lattice. -/
def IsChunk (c e : Int) : Prop := ChunkFrom growing 0 c e

theorem isChunk_iff (c e) : IsChunk c e ↔
    (c = 0 ∧ e = 131072) ∨ (c = 131072 ∧ e = 393216) ∨ (c = 393216 ∧ e = 786432) ∨
    (c = 786432 ∧ e = 1310720) ∨ (c = 1310720 ∧ e = 1966080) ∨ (c = 1966080 ∧ e = 2752512) ∨
    (c = 2752512 ∧ e = 3670016) ∨ (c = 3670016 ∧ e = 4718592) ∨
    (4718592 ≤ c ∧ (c - 4718592) % 1048576 = 0 ∧ e = c + 1048576) := by
  simp only [IsChunk, growing, ChunkFrom, SEGSIZE]
  norm_num

@[simp] theorem clampTo_noLimit (np : Int) : clampTo noLimit np = np := rfl

theorem chunkceil_limit (p limit : Int) :
    chunkceil p limit = clampTo limit (chunkceil p noLimit) := by
  have hloop : ∀ (is : List Int) (cp : Int),
      chunkceilLoop p limit is cp = clampTo limit (chunkceilLoop p noLimit is cp) := by
    intro is
    induction is with
    | nil => intro cp; simp [chunkceilLoop, clampTo, noLimit]
    | cons i is ih =>
      intro cp
      simp only [chunkceilLoop]
      split
      · simp [clampTo, noLimit]
      · exact ih _
  exact hloop growing 0

/-- The two loops side by side: from `cp` on they find the same chunk, and `p` lies in it. -/
theorem chunkLoop_spec (p) : ∀ (is : List Int) (cp : Int), cp ≤ p →
    ChunkFrom is cp (chunkfloorLoop p is cp) (chunkceilLoop p noLimit is cp) ∧
      chunkfloorLoop p is cp ≤ p ∧ p < chunkceilLoop p noLimit is cp
  | [], cp, h => by
      simp only [ChunkFrom, chunkfloorLoop, chunkceilLoop, landNeg, clampTo_noLimit]
      rw [show 8 * SEGSIZE = 1048576 from rfl]
      refine ⟨⟨?_, ?_, trivial⟩, ?_, ?_⟩ <;> omega
  | i :: is, cp, h => by
      simp only [chunkfloorLoop, chunkceilLoop]
      by_cases hp : p < cp + i * SEGSIZE
      · rw [if_pos ⟨h, hp⟩, if_pos ⟨h, hp⟩]
        exact ⟨.inl ⟨rfl, rfl⟩, h, hp⟩
      rw [if_neg fun hc => hp hc.2, if_neg fun hc => hp hc.2]
      have ih := chunkLoop_spec p is (cp + i * SEGSIZE) (not_lt.1 hp)
      exact ⟨.inr ih.1, ih.2⟩

/-- **A position lies in the chunk from its floor to its ceiling.** -/
theorem chunk_spec (p) (hp : 0 ≤ p) :
    IsChunk (chunkfloor p) (chunkceil p noLimit) ∧ chunkfloor p ≤ p ∧
      p < chunkceil p noLimit :=
  chunkLoop_spec p growing 0 hp

/-! ## 2. Chunks do not overlap -/

section

variable (h : IsChunk c e)
include h

theorem IsChunk.lt : c < e := by
  rw [isChunk_iff] at h
  omega

theorem IsChunk.nonneg : 0 ≤ c := by
  rw [isChunk_iff] at h
  omega

theorem IsChunk.le_add : e ≤ c + 1048576 := by
  rw [isChunk_iff] at h
  omega

theorem IsChunk.mod_block : c % 16 = 0 ∧ e % 16 = 0 := by
  rw [isChunk_iff] at h
  omega

/-- **Chunks that share a position are the same chunk.** -/
theorem IsChunk.unique {c' e' : Int} (h' : IsChunk c' e') (h1 : c ≤ p)
    (h2 : p < e) (h1' : c' ≤ p) (h2' : p < e') : c = c' ∧ e = e' := by
  rw [isChunk_iff] at h h'
  rcases h with h | h | h | h | h | h | h | h | h <;> omega

theorem IsChunk.next : ∃ e', IsChunk e e' := by
  have he : 0 ≤ e := h.nonneg.trans h.lt.le
  obtain ⟨hs, h1, h2⟩ := chunk_spec e he
  rw [isChunk_iff] at h hs
  refine ⟨chunkceil e noLimit, ?_⟩
  have hfloor : chunkfloor e = e := by
    rcases h with h | h | h | h | h | h | h | h | h <;> omega
  rwa [hfloor] at hs

theorem IsChunk.le_of_lt {c' e' : Int} (h' : IsChunk c' e') (hlt : c < c') : e ≤ c' := by
  by_contra hcon
  have := h.unique h' hlt.le (by omega) le_rfl h'.lt
  omega

end

theorem clampTo_le (limit np : Int) : clampTo limit np ≤ np := by
  unfold clampTo
  split <;> omega

theorem chunkfloor_of_mem (h : IsChunk c e) (h1 : c ≤ p) (h2 : p < e) : chunkfloor p = c := by
  have hs := chunk_spec p (h.nonneg.trans h1)
  exact (hs.1.unique h hs.2.1 hs.2.2 h1 h2).1

theorem chunkceil_of_mem (h : IsChunk c e) (h1 : c ≤ p) (h2 : p < e) (limit : Int) :
    chunkceil p limit = clampTo limit e := by
  have hs := chunk_spec p (h.nonneg.trans h1)
  rw [chunkceil_limit, (hs.1.unique h hs.2.1 hs.2.2 h1 h2).2]

theorem isChunk_of_floor (hc : 0 ≤ c) (h : chunkfloor c = c) : IsChunk c (chunkceil c noLimit) := by
  have hs := (chunk_spec c hc).1
  rwa [h] at hs

end MegaSdk
