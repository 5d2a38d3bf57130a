/-
  File:      MegaSdk/Chunk/Progress.lean
  Subject:   HOW FAR A TRANSFER IS (chunkmac_map::calcprogress, updateContiguousProgress, utils.cpp).

  `calcprogress` runs over the entries in file order. It overwrites the bytes counted so far whenever
  an entry continues the finished front of the file, and adds to them otherwise; a folded record
  stands for everything up to its end.

  * `finishedBytes`, `partialBytes` -- what the entries stand for: the bytes of the finished chunks as
    a set, and the bytes done in the others;
  * `ProgressRight` -- the results: the end of the longest finished front, every byte counted once;
  * `calcprogress_right` -- the loop computes them for entries inside the file;
  * `Foldable.fold` -- folding changes nothing they depend on;
  * `contiguous_same` -- and stepping on from an earlier position ends at the same place;
  * `progress_right` -- all together.
-/
import MegaSdk.Chunk.Fold

namespace MegaSdk

open Base List

namespace ChunkmacMap

/-! ## 1. What the entries stand for -/

/-- The bytes of the finished chunks that an entry stands for: those of its chunk, and all before them
    if it is the folded record. -/
def entryBytes (size : Int) (x : Int × ChunkMAC) : Set Int :=
  if x.2.isMacsmacSoFar then Set.Ico 0 (chunkceil x.1 size)
  else if x.2.finished then Set.Ico x.1 (chunkceil x.1 size)
  else ∅

def finishedBytes (size : Int) (l : List (Int × ChunkMAC)) : Set Int :=
  { q | ∃ x ∈ l, q ∈ entryBytes size x }

/-- The bytes done of the chunks that are not finished. -/
def partialBytes (l : List (Int × ChunkMAC)) : Int :=
  (l.map fun x => if x.2.finished then 0 else (x.2.offset.toNat : Int)).sum

/-- The map is one of a file of this size: its entries lie at chunk starts inside the file, and only
    the first can be a folded record. -/
structure InFile (m : ChunkmacMap) (size : Int) : Prop where
  lattice : ∀ x ∈ m.mMacMap.entries, ∃ e, IsChunk x.1 e
  inside : ∀ x ∈ m.mMacMap.entries, x.1 < size
  front : Unmarked m.mMacMap.entries.tail

/-- All bytes before `p` are those of finished chunks, and `p` is where a chunk ends in the file. -/
def FrontEnd (size : Int) (l : List (Int × ChunkMAC)) (p : Int) : Prop :=
  (p = 0 ∨ ∃ c e, IsChunk c e ∧ c < size ∧ p = min e size) ∧ Set.Ico 0 p ⊆ finishedBytes size l

/-- **The results of `calcprogress`**: the end of the longest finished front, and the bytes of the
    finished chunks, each counted once, with the bytes done of the others. -/
structure ProgressRight (size : Int) (l : List (Int × ChunkMAC)) (p : Progress) : Prop where
  chunkpos : IsGreatest { q | FrontEnd size l q } p.chunkpos
  completed : p.progresscompleted = (finishedBytes size l).ncard + partialBytes l
  partials : p.sumOfPartialChunks = partialBytes l

variable {size q : Int} {l seen : List (Int × ChunkMAC)} {x y : Int × ChunkMAC} {p : Progress}
  {e : Int} {m : ChunkmacMap}

theorem ncard_Ico {a b : Int} (h : a ≤ b) : ((Set.Ico a b).ncard : Int) = b - a := by
  rw [← Finset.coe_Ico, Set.ncard_coe_finset, Int.card_Ico, Int.toNat_of_nonneg (by omega)]

theorem finishedBytes_append : finishedBytes size (seen ++ [x]) =
    finishedBytes size seen ∪ entryBytes size x := by
  ext q
  simp only [finishedBytes, mem_append, mem_singleton]
  constructor
  · intro ⟨y, hy, hq⟩
    rcases hy with hy | hy
    · exact .inl ⟨y, hy, hq⟩
    · exact .inr (hy ▸ hq)
  intro h
  rcases h with ⟨y, hy, hq⟩ | hq
  · exact ⟨y, .inl hy, hq⟩
  · exact ⟨x, .inr rfl, hq⟩

theorem partialBytes_append : partialBytes (seen ++ [x]) =
    partialBytes seen + if x.2.finished then 0 else (x.2.offset.toNat : Int) := by
  simp [partialBytes]

theorem ceil_bounds (he : IsChunk x.1 e) (hx : x.1 < size) :
    x.1 < chunkceil x.1 size ∧ chunkceil x.1 size = min e size := by
  have h0 := he.nonneg
  have hlt := he.lt
  rw [chunkceil_of_mem he le_rfl he.lt, clampTo]
  split <;> omega

theorem entryBytes_lt (h : q ∈ entryBytes size x) : q < chunkceil x.1 size := by
  rw [entryBytes] at h
  split at h
  · exact h.2
  split at h
  · exact h.2
  · exact absurd h (Set.notMem_empty q)

theorem entryBytes_nonneg (he : IsChunk x.1 e) (h : q ∈ entryBytes size x) : 0 ≤ q := by
  rw [entryBytes] at h
  split at h
  · exact h.1
  split at h
  · exact he.nonneg.trans h.1
  · exact absurd h (Set.notMem_empty q)

/-! ## 2. The loop -/

/-- What the loop knows after the entries `seen`. -/
structure Counted (size : Int) (seen : List (Int × ChunkMAC)) (p : Progress) : Prop where
  last : p.chunkpos = 0 ∨ ∃ y ∈ seen, p.chunkpos = chunkceil y.1 size
  front : Set.Ico 0 p.chunkpos ⊆ finishedBytes size seen
  below : ∀ y ∈ seen, y.1 < p.chunkpos → y.2.finished = true ∧ chunkceil y.1 size ≤ p.chunkpos
  stop : ∀ y ∈ seen, y.2.finished = true → y.1 ≠ p.chunkpos
  marked : ∀ y ∈ seen, y.2.isMacsmacSoFar = true → y.1 < p.chunkpos
  completed : p.progresscompleted = (finishedBytes size seen).ncard + partialBytes seen
  partials : p.sumOfPartialChunks = partialBytes seen

theorem Counted.start (soFar : Int) : Counted size [] { macsmacSoFarPos := soFar } where
  last := .inl rfl
  front := by
    intro q hq
    exact absurd (hq.1.trans_lt hq.2) (lt_irrefl _)
  below := nofun
  stop := nofun
  marked := nofun
  completed := by
    simp [finishedBytes, partialBytes]
  partials := rfl

structure Next (size : Int) (seen : List (Int × ChunkMAC)) (x : Int × ChunkMAC) (e : Int) : Prop where
  chunk : IsChunk x.1 e
  inside : x.1 < size
  seenChunks : ∀ y ∈ seen, ∃ e, IsChunk y.1 e
  after : ∀ y ∈ seen, y.1 < x.1
  first : x.2.isMacsmacSoFar = true → seen = []

theorem Next.ceil_le (h : Next size seen x e) (hy : y ∈ seen) : chunkceil y.1 size ≤ x.1 := by
  obtain ⟨e', he'⟩ := h.seenChunks y hy
  exact (chunkceil_le he' size).trans (he'.le_of_lt h.chunk (h.after y hy))

theorem Counted.chunkpos_le (h : Counted size seen p) (hx : Next size seen x e) :
    p.chunkpos ≤ x.1 := by
  rcases h.last with h0 | ⟨y, hy, heq⟩
  · rw [h0]
    exact hx.chunk.nonneg
  · rw [heq]
    exact hx.ceil_le hy

theorem Next.finishedBytes_lt (hx : Next size seen x e) (hq : q ∈ finishedBytes size seen) :
    0 ≤ q ∧ q < x.1 := by
  obtain ⟨y, hy, hq⟩ := hq
  obtain ⟨e', he'⟩ := hx.seenChunks y hy
  exact ⟨entryBytes_nonneg he' hq, (entryBytes_lt hq).trans_le (hx.ceil_le hy)⟩

theorem entryBytes_finished (h : x.2.isMacsmacSoFar = false) (hfin : x.2.finished = true) :
    entryBytes size x = Set.Ico x.1 (chunkceil x.1 size) := by
  rw [entryBytes, if_neg (by rw [h]; decide), if_pos hfin]

theorem finished_of_marked {c : ChunkMAC} (h : c.isMacsmacSoFar = true) : c.finished = true := by
  rw [ChunkMAC.isMacsmacSoFar, Bool.and_eq_true] at h
  exact h.1

section

variable (h : Counted size seen p)
include h

section

variable (hx : Next size seen x e)
include hx

theorem Counted.move (hfin : x.2.finished = true)
    (hend : Set.Ico 0 x.1 ∪ entryBytes size x = Set.Ico 0 (chunkceil x.1 size))
    (hall : ∀ y ∈ seen, y.2.finished = true)
    (hfront : Set.Ico 0 x.1 ∪ entryBytes size x ⊆ finishedBytes size (seen ++ [x])) (soFar : Int) :
    Counted size (seen ++ [x]) { p with
      chunkpos := chunkceil x.1 size, progresscompleted := chunkceil x.1 size,
      macsmacSoFarPos := soFar } := by
  obtain ⟨hlt, -⟩ := ceil_bounds hx.chunk hx.inside
  have hpartial : partialBytes seen = 0 := by
    refine sum_eq_zero fun a ha => ?_
    obtain ⟨y, hy, rfl⟩ := mem_map.1 ha
    exact if_pos (hall y hy)
  have hbytes : finishedBytes size (seen ++ [x]) = Set.Ico 0 (chunkceil x.1 size) := by
    refine Set.Subset.antisymm ?_ (hend ▸ hfront)
    rw [finishedBytes_append, ← hend]
    exact Set.union_subset_union_left _ fun q => hx.finishedBytes_lt
  have hmem : ∀ y ∈ seen ++ [x], y.1 < chunkceil x.1 size ∧ y.2.finished = true ∧
      chunkceil y.1 size ≤ chunkceil x.1 size := by
    intro y hy
    rcases mem_append.1 hy with hy | hy
    · exact ⟨(hx.after y hy).trans hlt, hall y hy, (hx.ceil_le hy).trans hlt.le⟩
    · rw [mem_singleton.1 hy]
      exact ⟨hlt, hfin, le_rfl⟩
  refine ⟨.inr ⟨x, by simp, rfl⟩, hbytes.ge, fun y hy _ => (hmem y hy).2,
    fun y hy _ => (hmem y hy).1.ne, fun y hy _ => (hmem y hy).1, ?_, ?_⟩
  · rw [hbytes, ncard_Ico (hx.chunk.nonneg.trans hlt.le), partialBytes_append, hpartial, if_pos hfin]
    simp
  · rw [partialBytes_append, if_pos hfin, add_zero]
    exact h.partials

theorem Counted.keep (hmark : x.2.isMacsmacSoFar = false)
    (hne : ¬ (p.chunkpos = x.1 ∧ x.2.finished = true)) {done part : Int}
    (hdone : done = p.progresscompleted + (entryBytes size x).ncard +
      if x.2.finished then 0 else (x.2.offset.toNat : Int))
    (hpart : part = p.sumOfPartialChunks + if x.2.finished then 0 else (x.2.offset.toNat : Int)) :
    Counted size (seen ++ [x]) { p with progresscompleted := done, sumOfPartialChunks := part } := by
  have hle := h.chunkpos_le hx
  have hcases : ∀ y ∈ seen ++ [x], y ∈ seen ∨ y = x := fun y hy =>
    (mem_append.1 hy).imp id mem_singleton.1
  have hdisjoint : Disjoint (finishedBytes size seen) (entryBytes size x) := by
    rw [Set.disjoint_left]
    intro q hq hq'
    have hlt := (hx.finishedBytes_lt hq).2
    rw [entryBytes, if_neg (by rw [hmark]; decide)] at hq'
    split at hq'
    · exact absurd hq'.1 hlt.not_ge
    · exact Set.notMem_empty q hq'
  have hfinite : (finishedBytes size seen).Finite :=
    (Set.finite_Ico 0 x.1).subset fun q => hx.finishedBytes_lt
  have hfinite' : (entryBytes size x).Finite :=
    (Set.finite_Ico 0 (chunkceil x.1 size)).subset fun q hq =>
      ⟨entryBytes_nonneg hx.chunk hq, entryBytes_lt hq⟩
  refine ⟨?_, ?_, fun y hy hlt => ?_, fun y hy hfin => ?_, fun y hy hm => ?_, ?_, ?_⟩
  · exact h.last.imp_right fun ⟨y, hy, heq⟩ => ⟨y, mem_append_left _ hy, heq⟩
  · rw [finishedBytes_append]
    exact h.front.trans Set.subset_union_left
  · rcases hcases y hy with hy | rfl
    · exact h.below y hy hlt
    · exact absurd hlt hle.not_gt
  · rcases hcases y hy with hy | rfl
    · exact h.stop y hy hfin
    · exact fun heq => hne ⟨heq.symm, hfin⟩
  · rcases hcases y hy with hy | rfl
    · exact h.marked y hy hm
    · rw [hmark] at hm
      exact nomatch hm
  · simp only [hdone]
    rw [finishedBytes_append, Set.ncard_union_eq hdisjoint hfinite hfinite', partialBytes_append,
      h.completed]
    push_cast
    ring
  · simp only [hpart]
    rw [partialBytes_append, h.partials]

theorem Counted.round : Counted size (seen ++ [x]) (calcprogressRound size p x) := by
  obtain ⟨hlt, -⟩ := ceil_bounds hx.chunk hx.inside
  have h0 := hx.chunk.nonneg
  simp only [calcprogressRound]
  by_cases hmark : x.2.isMacsmacSoFar = true
  · -- the folded record: it is the first entry
    have hseen := hx.first hmark
    have hbytes : entryBytes size x = Set.Ico 0 (chunkceil x.1 size) := if_pos hmark
    rw [if_pos hmark]
    refine h.move hx (finished_of_marked hmark) ?_ ?_ ?_ x.1
    · rw [hbytes]
      exact Set.union_eq_self_of_subset_left (Set.Ico_subset_Ico_right hlt.le)
    · simp [hseen]
    rw [hbytes, Set.union_eq_self_of_subset_left (Set.Ico_subset_Ico_right hlt.le),
      finishedBytes_append, hbytes]
    exact Set.subset_union_right
  rw [if_neg hmark]
  rw [Bool.not_eq_true] at hmark
  by_cases hadv : p.chunkpos = x.1 ∧ x.2.finished = true
  · -- the entry continues the front: everything seen lies in it
    obtain ⟨hpos, hfin⟩ := hadv
    rw [if_pos (by simp [hpos, hfin])]
    refine h.move hx hfin ?_ ?_ ?_ p.macsmacSoFarPos
    · rw [entryBytes_finished hmark hfin]
      exact Set.Ico_union_Ico_eq_Ico h0 hlt.le
    · exact fun y hy => (h.below y hy (hpos ▸ hx.after y hy)).1
    · rw [finishedBytes_append]
      exact Set.union_subset_union_left _ (hpos ▸ h.front)
  · rw [if_neg (by simpa using hadv)]
    have hkeep := @Counted.keep _ _ _ _ _ h hx hmark hadv
    by_cases hfin : x.2.finished = true
    · rw [if_pos hfin]
      refine hkeep ?_ ?_
      · rw [entryBytes_finished hmark hfin, ncard_Ico hlt.le, if_pos hfin, add_zero,
          chunkfloor_of_mem hx.chunk le_rfl hx.chunk.lt]
      · rw [if_pos hfin, add_zero]
    have hbytes : entryBytes size x = ∅ := by
      rw [entryBytes, if_neg (by rw [hmark]; decide), if_neg hfin]
    rw [if_neg hfin]
    refine hkeep ?_ ?_
    · rw [hbytes, Set.ncard_empty, if_neg hfin, Int.natCast_zero, add_zero]
    · rw [if_neg hfin]

end

end

theorem Counted.loop : ∀ (l seen : List (Int × ChunkMAC)) (p : Progress),
    (seen ++ l).Pairwise (fun a b => a.1 < b.1) → (∀ x ∈ seen ++ l, ∃ e, IsChunk x.1 e) →
    (∀ x ∈ l, x.1 < size) → Unmarked (seen ++ l).tail → Counted size seen p →
    Counted size (seen ++ l) (l.foldl (calcprogressRound size) p)
  | [], seen, p, _, _, _, _, h => by simpa using h
  | x :: l, seen, p, hs, hl, hin, hu, h => by
      have hx : x ∈ seen ++ x :: l := by simp
      obtain ⟨e, he⟩ := hl x hx
      have hnext : Next size seen x e := by
        refine ⟨he, hin x mem_cons_self, fun y hy => hl y (mem_append_left _ hy),
          fun y hy => (pairwise_append.1 hs).2.2 y hy x mem_cons_self, fun hmark => ?_⟩
        cases seen with
        | nil => rfl
        | cons y seen =>
          have hno : x.2.isMacsmacSoFar = false := hu x (by simp)
          rw [hmark] at hno
          exact nomatch hno
      have hrest := Counted.loop l (seen ++ [x]) _ (by rwa [append_assoc])
        (by rwa [append_assoc]) (fun y hy => hin y (mem_cons_of_mem _ hy))
        (by rwa [append_assoc]) (h.round hnext)
      rwa [append_assoc] at hrest

/-! ## 3. The results -/

section

variable (h : Counted size l p)
include h

theorem Counted.chunkpos_notMem : p.chunkpos ∉ finishedBytes size l := by
  intro ⟨x, hx, hq⟩
  have hlt := entryBytes_lt hq
  have hge : ¬ x.1 < p.chunkpos := fun hbelow => absurd (h.below x hx hbelow).2 hlt.not_ge
  rw [entryBytes] at hq
  split at hq
  · rename_i hmark
    exact hge (h.marked x hx hmark)
  split at hq
  · rename_i hfin
    exact h.stop x hx hfin (le_antisymm hq.1 (not_lt.1 hge))
  · exact absurd hq (Set.notMem_empty _)

theorem Counted.chunkpos_nonneg (hl : ∀ x ∈ l, ∃ e, IsChunk x.1 e)
    (hin : ∀ x ∈ l, x.1 < size) : 0 ≤ p.chunkpos := by
  rcases h.last with h0 | ⟨y, hy, heq⟩
  · exact h0.ge
  obtain ⟨e, he⟩ := hl y hy
  rw [heq]
  exact he.nonneg.trans (ceil_bounds he (hin y hy)).1.le

theorem Counted.right (hl : ∀ x ∈ l, ∃ e, IsChunk x.1 e)
    (hin : ∀ x ∈ l, x.1 < size) : ProgressRight size l p := by
  refine ⟨⟨⟨?_, h.front⟩, fun q hq => ?_⟩, h.completed, h.partials⟩
  · refine h.last.imp_right fun ⟨y, hy, heq⟩ => ?_
    obtain ⟨e, he⟩ := hl y hy
    exact ⟨y.1, e, he, hin y hy, heq.trans (ceil_bounds he (hin y hy)).2⟩
  · by_contra hlt
    exact h.chunkpos_notMem (hq.2 ⟨h.chunkpos_nonneg hl hin, not_le.1 hlt⟩)

end

theorem InFile.counted (h : InFile m size) :
    Counted size m.mMacMap.entries (m.calcprogress size).1 :=
  Counted.loop m.mMacMap.entries [] _ m.mMacMap.sorted h.lattice h.inside h.front
    (Counted.start m.macsmacSoFarPos)

/-- **`calcprogress` counts right** for a map of the file. -/
theorem calcprogress_right (h : InFile m size) :
    ProgressRight size m.mMacMap.entries (m.calcprogress size).1 :=
  h.counted.right h.lattice h.inside

theorem ProgressRight.unique {l' : List (Int × ChunkMAC)} {p' : Progress}
    (h : ProgressRight size l p) (h' : ProgressRight size l' p')
    (hbytes : finishedBytes size l' = finishedBytes size l) (hpart : partialBytes l' = partialBytes l) :
    p'.chunkpos = p.chunkpos ∧ p'.progresscompleted = p.progresscompleted ∧
      p'.sumOfPartialChunks = p.sumOfPartialChunks := by
  refine ⟨?_, ?_, ?_⟩
  · have hset : { q | FrontEnd size l' q } = { q | FrontEnd size l q } := by
      simp [FrontEnd, hbytes]
    have hgreatest := h'.chunkpos
    rw [hset] at hgreatest
    exact hgreatest.unique h.chunkpos
  · rw [h'.completed, h.completed, hbytes, hpart]
  · rw [h'.partials, h.partials, hpart]

/-! ## 4. Folding -/

/-- A map of the file that can be folded: the entries up to `progresscontiguous` are finished chunks,
    and the folded record, if there is one, is the first. -/
structure Foldable (m : ChunkmacMap) (size : Int) : Prop where
  tracked : Tracked m
  first : FoldedFirst m
  inside : ∀ x ∈ m.mMacMap.entries, x.1 < size

theorem Foldable.inFile (h : Foldable m size) : InFile m size where
  lattice := h.tracked.lattice
  inside := h.inside
  front := by
    rcases h.first with ⟨_, hu⟩ | ⟨c, rest, hm, _, hu⟩
    · exact fun x hx => hu x (mem_of_mem_tail hx)
    · rwa [hm]

theorem finishedBytes_cons : finishedBytes size (x :: l) =
    entryBytes size x ∪ finishedBytes size l := by
  ext q
  simp [finishedBytes]

theorem partialBytes_cons : partialBytes (x :: l) =
    (if x.2.finished then 0 else (x.2.offset.toNat : Int)) + partialBytes l := by
  simp [partialBytes]

theorem entryBytes_marked (h : x.2.isMacsmacSoFar = true) :
    entryBytes size x = Set.Ico 0 (chunkceil x.1 size) := if_pos h

theorem isMacsmacSoFar_mark {c : ChunkMAC} (hfin : c.finished = true) (mac : Block) :
    ({ c with mac := mac, offset := unsignedMinusOne } : ChunkMAC).isMacsmacSoFar = true := by
  simp [ChunkMAC.isMacsmacSoFar, hfin]

/-- **One round of folding** changes nothing that the entries stand for. -/
theorem Foldable.foldFront (E : Block → Block) (h : Foldable m size) (hcan : canFold m = true) :
    Foldable (foldFront E m) size ∧
      finishedBytes size (foldFront E m).mMacMap.entries = finishedBytes size m.mMacMap.entries ∧
      partialBytes (foldFront E m).mMacMap.entries = partialBytes m.mMacMap.entries := by
  have hcase := h.tracked.foldCase h.first hcan
  have htracked : Tracked (ChunkmacMap.foldFront E m) := h.tracked.foldFront hcase
  cases hcase with
  | @next k k' c next rest hm hpos hc hchunk _ hfin hu =>
    obtain ⟨hent, hp, -⟩ := foldFront_of_marked hm hc
    have hmark := isMacsmacSoFar_mark hfin (E (Block.xor c.mac next.mac))
    have hk' : k' < size := h.inside (k', next) (by simp [hm])
    obtain ⟨e', he'⟩ : ∃ e', IsChunk k' e' := hchunk.next
    refine ⟨⟨htracked, .inr ⟨_, rest, ?_, hmark, fun x hx => hu x (mem_cons_of_mem _ hx)⟩,
      fun x hx => ?_⟩, ?_, ?_⟩
    · rwa [hp]
    · rw [hent] at hx
      rcases mem_cons.1 hx with rfl | hx
      · exact hk'
      · exact h.inside x (by simp [hm, hx])
    · -- the folded record ends where the next chunk begins
      have hceil : chunkceil k size = k' :=
        ((ceil_bounds (x := (k, c)) hchunk (hchunk.lt.trans hk')).2).trans (min_eq_left hk'.le)
      have hle : k' ≤ chunkceil k' size := (ceil_bounds (x := (k', next)) he' hk').1.le
      rw [hent, hm, finishedBytes_cons, finishedBytes_cons, finishedBytes_cons, ← Set.union_assoc,
        entryBytes_marked hmark, entryBytes_marked hc,
        entryBytes_finished (hu _ mem_cons_self) hfin, hceil,
        Set.Ico_union_Ico_eq_Ico (hchunk.nonneg.trans hchunk.lt.le) hle]
    rw [hent, hm, partialBytes_cons, partialBytes_cons, partialBytes_cons, if_pos hfin,
      if_pos hfin, if_pos (finished_of_marked hc)]
    omega
  | @first c rest hm hpos _ hfin hu =>
    obtain ⟨hent, hp, -⟩ := foldFront_of_first hm (hu _ mem_cons_self) hfin
    have hmark := isMacsmacSoFar_mark hfin (E (Block.xor Block.zero c.mac))
    refine ⟨⟨htracked, .inr ⟨_, rest, ?_, hmark, fun x hx => hu x (mem_cons_of_mem _ hx)⟩,
      fun x hx => ?_⟩, ?_, ?_⟩
    · rwa [hp]
    · rw [hent] at hx
      rcases mem_cons.1 hx with rfl | hx
      · exact h.inside (0, c) (by simp [hm])
      · exact h.inside x (by simp [hm, hx])
    · rw [hent, hm, finishedBytes_cons, finishedBytes_cons, entryBytes_marked hmark,
        entryBytes_finished (hu _ mem_cons_self) hfin]
    · rw [hent, hm, partialBytes_cons, partialBytes_cons, if_pos hfin, if_pos hfin]

/-- **Folding** ends, and leaves what the entries stand for. -/
theorem Foldable.fold (E : Block → Block) (h : Foldable m size) :
    (∃ fuel m', m.updateMacsmacProgress E fuel = some m') ∧
      ∀ fuel m', m.updateMacsmacProgress E fuel = some m' → Foldable m' size ∧
        finishedBytes size m'.mMacMap.entries = finishedBytes size m.mMacMap.entries ∧
        partialBytes m'.mMacMap.entries = partialBytes m.mMacMap.entries := by
  refine ⟨⟨foldMeasure m + 1, ?_⟩, fun fuel m' hl => ?_⟩
  · refine whileFuel_ends (fun m => Foldable m size) foldMeasure (fun m hm hcan => ?_) h
      (lt_add_one _)
    exact ⟨(hm.foldFront E hcan).1, (hm.tracked.foldCase hm.first hcan).progress.2.2⟩
  refine (whileFuel_inv (fun m' => Foldable m' size ∧
      finishedBytes size m'.mMacMap.entries = finishedBytes size m.mMacMap.entries ∧
      partialBytes m'.mMacMap.entries = partialBytes m.mMacMap.entries)
    (fun s hs hcan => ?_) ⟨h, rfl, rfl⟩ hl).1
  obtain ⟨hfold, hbytes, hpart⟩ := hs.1.foldFront E hcan
  exact ⟨hfold, hbytes.trans hs.2.1, hpart.trans hs.2.2⟩

/-! ## 5. Stepping on -/

/-- A position from which `updateContiguousProgress` may be started: behind the folded chunks, at a
    chunk boundary of the finished front. -/
structure Earlier (m : ChunkmacMap) (chunkpos p : Int) : Prop where
  after : ∀ x ∈ m.mMacMap.entries, x.2.isMacsmacSoFar = true → x.1 < p
  le : p ≤ chunkpos
  boundary : p = chunkpos ∨ ∃ e, IsChunk p e

theorem Counted.chunkpos_le_size (h : Counted size l p) (hl : ∀ x ∈ l, ∃ e, IsChunk x.1 e)
    (hin : ∀ x ∈ l, x.1 < size) : p.chunkpos = 0 ∨ p.chunkpos ≤ size := by
  refine h.last.imp_right fun ⟨y, hy, heq⟩ => ?_
  obtain ⟨e, he⟩ := hl y hy
  rw [heq, (ceil_bounds he (hin y hy)).2]
  exact min_le_right _ _

theorem Earlier.step (h : InFile m size) (hq : Earlier m (m.calcprogress size).1.chunkpos q)
    (hfin : m.finishedAt q = true) :
    Earlier m (m.calcprogress size).1.chunkpos (chunkceil q size) ∧ q < chunkceil q size := by
  obtain ⟨r, hr, hrfin⟩ := finishedAt_iff.1 hfin
  obtain ⟨e, he⟩ := h.lattice _ hr
  have hin := h.inside _ hr
  obtain ⟨hlt, heq⟩ := ceil_bounds he hin
  have hne : q ≠ (m.calcprogress size).1.chunkpos := h.counted.stop _ hr hrfin
  have hceil := (h.counted.below _ hr (lt_of_le_of_ne hq.le hne)).2
  refine ⟨⟨fun x hx hmark => (hq.after x hx hmark).trans hlt, hceil, ?_⟩, hlt⟩
  rcases le_total e size with hes | hes
  · rw [heq, min_eq_left hes]
    exact .inr he.next
  rw [heq, min_eq_right hes] at hceil ⊢
  left
  rcases h.counted.chunkpos_le_size h.lattice h.inside with h0 | hle
  · have := he.nonneg
    omega
  · exact le_antisymm hceil hle

theorem Earlier.stop (h : InFile m size) (hq : Earlier m (m.calcprogress size).1.chunkpos q)
    (hfin : m.finishedAt q = false) (h0 : 0 ≤ q) : q = (m.calcprogress size).1.chunkpos := by
  rcases hq.boundary with heq | ⟨e, he⟩
  · exact heq
  by_contra hne
  obtain ⟨x, hx, hmem⟩ := h.counted.front ⟨h0, lt_of_le_of_ne hq.le hne⟩
  obtain ⟨e', he'⟩ := h.lattice x hx
  have hlt : q < e' := (entryBytes_lt hmem).trans_le (chunkceil_le he' size)
  -- a byte of the front at a chunk start is the start of a finished entry
  have hstart : x.1 ≤ q → x.1 = q := fun hle => (he'.unique he hle hlt le_rfl he.lt).1
  rw [entryBytes] at hmem
  split at hmem
  · rename_i hmark
    have hafter := hq.after x hx hmark
    exact absurd (hstart hafter.le) hafter.ne
  split at hmem
  · rename_i hxfin
    have heq := hstart hmem.1
    have hat : m.finishedAt q = true := finishedAt_iff.2 ⟨x.2, heq ▸ hx, hxfin⟩
    rw [hfin] at hat
    exact nomatch hat
  · exact absurd hmem (Set.notMem_empty _)

/-- **Stepping on** from an earlier position of the front ends at its end. -/
theorem contiguous_same (h : InFile m size) (h0 : 0 ≤ q)
    (hq : Earlier m (m.calcprogress size).1.chunkpos q) :
    ∃ fuel m', (m.setProgressContiguous q).updateContiguousProgress size fuel = some m' ∧
      m'.progresscontiguous = (m.calcprogress size).1.chunkpos := by
  let Inv : ChunkmacMap → Prop := fun s => s.mMacMap = m.mMacMap ∧ 0 ≤ s.progresscontiguous ∧
    Earlier m (m.calcprogress size).1.chunkpos s.progresscontiguous
  have hround : ∀ s, Inv s → s.finishedAt s.progresscontiguous = true →
      Inv (s.setProgressContiguous (chunkceil s.progresscontiguous size)) ∧
        ((m.calcprogress size).1.chunkpos - chunkceil s.progresscontiguous size).toNat <
          ((m.calcprogress size).1.chunkpos - s.progresscontiguous).toNat := by
    intro s ⟨hmap, hs0, hs⟩ hfin
    have hat : m.finishedAt s.progresscontiguous = true := by
      rw [← hfin]
      simp [finishedAt, hmap]
    obtain ⟨hstep, hlt⟩ := hs.step h hat
    have hle := hstep.le
    exact ⟨⟨hmap, hs0.trans hlt.le, hstep⟩, by omega⟩
  have hstart : Inv (m.setProgressContiguous q) := ⟨rfl, h0, hq⟩
  obtain ⟨m', hm'⟩ := whileFuel_ends Inv
    (fun s => ((m.calcprogress size).1.chunkpos - s.progresscontiguous).toNat) hround hstart
    (lt_add_one _)
  obtain ⟨⟨hmap, h0', hs'⟩, hexit⟩ := whileFuel_inv Inv (fun s hs hc => (hround s hs hc).1) hstart hm'
  refine ⟨_, m', hm', hs'.stop h ?_ h0'⟩
  rw [← hexit]
  simp [finishedAt, hmap]

/-! ## 6. Together -/

/-- **The progress of a transfer.** For a map of the file `calcprogress` answers the end of the
    longest finished front and counts every byte once; if the map is one that can be folded, folding
    ends and changes none of the results; and `updateContiguousProgress` ends at the same place from
    every earlier position of the front. -/
theorem progress_right (E : Block → Block) (m : ChunkmacMap) (size : Int) (h : InFile m size) :
    ProgressRight size m.mMacMap.entries (m.calcprogress size).1 ∧
      (Foldable m size → (∃ fuel m', m.updateMacsmacProgress E fuel = some m') ∧
        ∀ fuel m', m.updateMacsmacProgress E fuel = some m' →
          (m'.calcprogress size).1.chunkpos = (m.calcprogress size).1.chunkpos ∧
          (m'.calcprogress size).1.progresscompleted = (m.calcprogress size).1.progresscompleted ∧
          (m'.calcprogress size).1.sumOfPartialChunks =
            (m.calcprogress size).1.sumOfPartialChunks) ∧
      ∀ q, 0 ≤ q → Earlier m (m.calcprogress size).1.chunkpos q →
        ∃ fuel m', (m.setProgressContiguous q).updateContiguousProgress size fuel = some m' ∧
          m'.progresscontiguous = (m.calcprogress size).1.chunkpos := by
  refine ⟨calcprogress_right h, fun hfold => ⟨(hfold.fold E).1, fun fuel m' hl => ?_⟩,
    fun q => contiguous_same h⟩
  obtain ⟨hfold', hbytes, hpart⟩ := (hfold.fold E).2 fuel m' hl
  exact (calcprogress_right h).unique (calcprogress_right hfold'.inFile) hbytes hpart

/-- A map with the first chunk finished and seven bytes of the third done. -/
def sampleMap : ChunkmacMap :=
  (({} : ChunkmacMap).setEntry 0 { finished := true }).setEntry 393216 { offset := 7 }

theorem foldable_sampleMap : Foldable sampleMap 1000000 := by
  have hall : ∀ x ∈ sampleMap.mMacMap.entries, 0 ≤ x.1 ∧ chunkfloor x.1 = x.1 ∧ x.1 < 1000000 ∧
      x.2.isMacsmacSoFar = false := by decide +kernel
  have hpc : sampleMap.progresscontiguous = 0 := by decide
  refine ⟨⟨fun x hx => ?_, fun x hx => ?_, fun x hx hlt => ?_, fun c e hc _ hlt => ?_⟩,
    .inl ⟨by decide, fun x hx => (hall x hx).2.2.2⟩, fun x hx => (hall x hx).2.2.1⟩
  · exact ⟨_, isChunk_of_floor (hall x hx).1 (hall x hx).2.1⟩
  · exact (hall x hx).2.2.1.trans (by norm_num)
  · exact absurd (hpc ▸ hlt) (not_lt.2 (hall x hx).1)
  · exact absurd (hpc ▸ hlt) hc.nonneg.not_gt

/-- Its front ends at 131072, and 131079 bytes are done. -/
theorem progress_right_sampleMap :
    ProgressRight 1000000 sampleMap.mMacMap.entries (sampleMap.calcprogress 1000000).1 ∧
      (sampleMap.calcprogress 1000000).1.progresscompleted = 131079 ∧
      (∃ fuel m', sampleMap.updateMacsmacProgress id fuel = some m') ∧
      ∃ fuel m', (sampleMap.setProgressContiguous 0).updateContiguousProgress 1000000 fuel = some m' ∧
        m'.progresscontiguous = 131072 := by
  obtain ⟨hright, hfold, hstep⟩ := progress_right id sampleMap 1000000 foldable_sampleMap.inFile
  have hpos : (sampleMap.calcprogress 1000000).1.chunkpos = 131072 := by decide +kernel
  refine ⟨hright, by decide +kernel, (hfold foldable_sampleMap).1, hpos ▸ hstep 0 le_rfl ⟨?_, ?_, ?_⟩⟩
  · have hall : ∀ x ∈ sampleMap.mMacMap.entries, x.2.isMacsmacSoFar = false := by decide +kernel
    intro x hx hmark
    rw [hall x hx] at hmark
    exact nomatch hmark
  · rw [hpos]
    decide
  · exact .inr ⟨131072, (isChunk_iff _ _).2 (.inl ⟨rfl, rfl⟩)⟩

/-- Two finished chunks, for a file of a hundred bytes: the second one lies behind its end, and the
    bytes that are missing up to it are subtracted. -/
theorem calcprogress_negative : let m : ChunkmacMap :=
      (({} : ChunkmacMap).setEntry 0 { finished := true }).setEntry 131072 { finished := true }
    (∀ x ∈ m.mMacMap.entries, ∃ e, IsChunk x.1 e) ∧ Unmarked m.mMacMap.entries ∧
      (m.calcprogress 100).1.progresscompleted = -130872 ∧
      ¬ ProgressRight 100 m.mMacMap.entries (m.calcprogress 100).1 := by
  intro m
  have hall : ∀ x ∈ m.mMacMap.entries, 0 ≤ x.1 ∧ chunkfloor x.1 = x.1 ∧
      x.2.isMacsmacSoFar = false := by decide +kernel
  have hneg : (m.calcprogress 100).1.progresscompleted = -130872 := by decide +kernel
  refine ⟨fun x hx => ⟨_, isChunk_of_floor (hall x hx).1 (hall x hx).2.1⟩,
    fun x hx => (hall x hx).2.2, hneg, fun hright => ?_⟩
  have hcount := hright.completed
  have hpart : partialBytes m.mMacMap.entries = 0 := by decide +kernel
  omega

end ChunkmacMap

end MegaSdk
