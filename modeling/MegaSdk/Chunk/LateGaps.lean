/-
  File:      MegaSdk/Chunk/LateGaps.lean
  Subject:   THE SEARCH FOR A FILE MAC WITH MISSING ENTRIES (chunkmac_map::macsmac_gaps in utils.cpp,
             TransferSlot::checkMetaMacWithMissingLateEntries in transferslot.cpp) ON A FOLDED MAP.

  Some old uploads have a file MAC in which the MACs of a few late chunks are missing.  The search
  recomputes the file MAC without one or two groups of chunks near the end, counted by index.

  * **`macsmacGaps_folded_lastOnly`** -- the folded record counts for one chunk more than it
    stands for, so the same gaps have indexes that are larger by one on the folded map;
  * `unfolded_of_run` -- a map with at most 101 chunks is never folded;
  * `check_differs` -- on a folded map the last chunk is behind every index that is tried;
  * **`checkMetaMac_of_run_iff`** -- so the search does not depend on folding exactly for files with
    at most 101 chunks.
-/
import MegaSdk.Chunk.Fold

namespace MegaSdk

open Base List OrdMap Block Bool

namespace ChunkmacMap

/-! ## 1. The code -/

/-- The four indexes of `macsmac_gaps`: two groups of chunks. -/
structure Gaps where
  g1 : Nat
  g2 : Nat
  g3 : Nat
  g4 : Nat
deriving DecidableEq, Repr

variable {l : List (Int × ChunkMAC)} {g : Gaps} {n : Nat}

/-- `(n >= g1 && n < g2) || (n >= g3 && n < g4)`. -/
def Gaps.has (g : Gaps) (n : Nat) : Bool := (g.g1 ≤ n && n < g.g2) || (g.g3 ≤ n && n < g.g4)

/-- `for (m_off_t pos = 0; pos <= it->first; pos = chunkceil(pos)) ++n`. -/
def countChunks (first : Int) (n : Nat) : Option (Int × Nat) :=
  whileFuel (fun s => s.1 ≤ first) (fun s => (chunkceil s.1 noLimit, s.2 + 1)) (first.toNat + 2)
    (0, n)

section Cipher

variable (E : Block → Block)

/-- A round of `macsmac_gaps` over an entry that is not the folded record. -/
def gapsRound (g : Gaps) (s : Block × Nat) (c : ChunkMAC) : Block × Nat :=
  (if g.has s.2 then s.1 else E (Block.xor s.1 c.mac), s.2 + 1)

/-- A round of `macsmac_gaps`: the MAC so far, and the index. -/
def gapsStep (g : Gaps) (s : Block × Nat) (x : Int × ChunkMAC) : Option (Block × Nat) :=
  if x.2.isMacsmacSoFar then (countChunks x.1 s.2).map fun p => (x.2.mac, p.2 + 1)
  else some (gapsRound E g s x.2)

/-- `chunkmac_map::macsmac_gaps`. -/
def macsmacGaps (m : ChunkmacMap) (g : Gaps) : Option Int :=
  (m.mMacMap.entries.foldlM (gapsStep E g) (Block.zero, 0)).map fun s => metaMac s.1

/-- The first loops of the search, over one group. -/
def singleGaps (size : Nat) : List Gaps :=
  (List.range' 1 (min (32 * 3) size)).flatMap fun countBack =>
    (List.range' 1 (min 64 (size - (size - countBack)))).map fun len1 =>
      ⟨size - countBack, size - countBack + len1, size, size⟩

/-- The second loops, over two groups with something in between. -/
def doubleGaps (size : Nat) : List Gaps :=
  let finalN := min (16 * 2 + 8) size
  (List.range' (size - finalN) finalN).flatMap fun start1 =>
    (List.range' 1 (min 16 (size - start1))).flatMap fun len1 =>
      (List.range' (start1 + len1 + 1) (size - (start1 + len1 + 1))).flatMap fun start2 =>
        (List.range' 1 (min 16 (size - start2))).map fun len2 =>
          ⟨start1, start1 + len1, start2, start2 + len2⟩

/-- The search, gap by gap. -/
def searchGaps (m : ChunkmacMap) (metamac : Int) : List Gaps → Option Bool
  | [] => some false
  | g :: gs => do
      let mac ← macsmacGaps E m g
      if metamac = mac then some true else searchGaps m metamac gs

/-- `TransferSlot::checkMetaMacWithMissingLateEntries`: the answer, and the transfer's file MAC
behind it. -/
def checkMetaMacWithMissingLateEntries (m : ChunkmacMap) (metamac : Int) : Option (Bool × Int) := do
  let found ← searchGaps E m metamac (singleGaps m.size ++ doubleGaps m.size)
  some (if found then (true, m.macsmac E) else (false, metamac))

/-! ## 2. The calculation over entries -/

/-- The calculation over entries of which none is the folded record. -/
def gapsOver (g : Gaps) (l : List (Int × ChunkMAC)) (s : Block × Nat) : Block × Nat :=
  l.foldl (fun s x => gapsRound E g s x.2) s

variable {E} {m plain : ChunkmacMap}

theorem gapsOver_append (g) (a b : List (Int × ChunkMAC)) (s : Block × Nat) :
    gapsOver E g (a ++ b) s = gapsOver E g b (gapsOver E g a s) := foldl_append

theorem macOver_append (a b : List (Int × ChunkMAC)) (mac : Block) :
    macOver E (a ++ b) mac = macOver E b (macOver E a mac) := foldl_append

theorem foldlM_gapsStep (hu : Unmarked l) (g) (s : Block × Nat) :
    l.foldlM (gapsStep E g) s = some (gapsOver E g l s) := by
  induction l generalizing s with
  | nil => rfl
  | cons x l ih =>
    have hx : x.2.isMacsmacSoFar = false := hu x mem_cons_self
    have hstep : gapsStep E g s x = some (gapsRound E g s x.2) := by
      rw [gapsStep, hx, if_neg Bool.false_ne_true]
    rw [foldlM_cons, hstep]
    exact ih (fun y hy => hu y (mem_cons_of_mem _ hy)) _

theorem macsmacGaps_plain (hu : Unmarked m.mMacMap.entries) (g) :
    macsmacGaps E m g = some (metaMac (gapsOver E g m.mMacMap.entries (Block.zero, 0)).1) := by
  rw [macsmacGaps, foldlM_gapsStep hu]
  rfl

theorem gapsOver_before (hu : Unmarked l) {mac : Block} (h1 : n + l.length ≤ g.g1)
    (h3 : n + l.length ≤ g.g3) : gapsOver E g l (mac, n) = (macOver E l mac, n + l.length) := by
  induction l generalizing mac n with
  | nil => rfl
  | cons x l ih =>
    have hx : x.2.isMacsmacSoFar = false := hu x mem_cons_self
    rw [length_cons] at h1 h3
    have hno : g.has n = false := by
      simp only [Gaps.has, or_eq_false_iff, and_eq_false_iff, decide_eq_false_iff_not]
      omega
    have hround : gapsRound E g (mac, n) x.2 = (macsmacRound E mac x.2, n + 1) := by
      simp only [gapsRound, macsmacRound, hno, hx]
      rfl
    have hrest : gapsOver E g l (macsmacRound E mac x.2, n + 1) =
        (macOver E l (macsmacRound E mac x.2), n + 1 + l.length) :=
      ih (fun y hy => hu y (mem_cons_of_mem _ hy)) (by omega) (by omega)
    rw [gapsOver] at hrest
    rw [gapsOver, foldl_cons, hround, hrest,
      length_cons]
    exact Prod.ext rfl (by simp only; omega)

end Cipher

/-! ## 3. Chunks by number -/

def chunkStart : Nat → Int
  | 0 => 0
  | i + 1 => chunkceil (chunkStart i) noLimit

theorem isChunk_chunkStart (i : Nat) : IsChunk (chunkStart i) (chunkStart (i + 1)) := by
  induction i with
  | zero => exact .inl ⟨rfl, rfl⟩
  | succ i ih =>
    obtain ⟨e, he⟩ := ih.next
    have hceil : chunkStart (i + 1 + 1) = e := by
      rw [chunkStart, chunkceil_of_mem he le_rfl he.lt, clampTo_noLimit]
    rwa [hceil]

theorem chunkStart_add_le (i : Nat) : chunkStart i + 131072 ≤ chunkStart (i + 1) := by
  have h := isChunk_chunkStart i
  rw [isChunk_iff] at h
  omega

theorem chunkStart_ge (i : Nat) : 131072 * (i : Int) ≤ chunkStart i := by
  induction i with
  | zero => exact le_rfl
  | succ i ih =>
    have := chunkStart_add_le i
    omega

theorem chunkStart_strictMono : StrictMono chunkStart :=
  strictMono_nat_of_lt_succ fun i => by
    have := chunkStart_add_le i
    omega

theorem exists_chunkStart {c e : Int} (h : IsChunk c e) (hn : c < chunkStart n) :
    ∃ i < n, c = chunkStart i := by
  induction n with
  | zero => exact absurd h.nonneg hn.not_ge
  | succ n ih =>
    by_cases hlt : c < chunkStart n
    · obtain ⟨i, hi, hc⟩ := ih hlt
      exact ⟨i, by omega, hc⟩
    · exact ⟨n, by omega, (h.unique (isChunk_chunkStart n) le_rfl h.lt (not_lt.1 hlt) hn).1⟩

theorem countChunks_pos {first : Int} (h : 0 ≤ first) (n : Nat) :
    ∃ p, countChunks first n = some p ∧ n < p.2 := by
  have hround : ∀ s : Int × Nat, 0 ≤ s.1 → s.1 < chunkceil s.1 noLimit := fun s hs =>
    (chunk_spec s.1 hs).2.2
  have hfirst : countChunks first n =
      whileFuel (fun s : Int × Nat => decide (s.1 ≤ first))
        (fun s => (chunkceil s.1 noLimit, s.2 + 1)) (first.toNat + 1)
        (chunkceil 0 noLimit, n + 1) := by
    rw [countChunks, whileFuel, if_pos (by simpa using h)]
  rw [hfirst]
  have hstart := hround (0, n) le_rfl
  simp only at hstart
  obtain ⟨p, hp⟩ := whileFuel_ends (c := fun s : Int × Nat => decide (s.1 ≤ first))
    (b := fun s => (chunkceil s.1 noLimit, s.2 + 1)) (fun s => 0 ≤ s.1 ∧ n < s.2)
    (fun s => (first + 1 - s.1).toNat)
    (fun s hs hc => by
      have hlt := hround s hs.1
      have hc' : s.1 ≤ first := by simpa using hc
      refine ⟨⟨by simp only; omega, by simp only; omega⟩, ?_⟩
      omega)
    (n := first.toNat + 1) (s := (chunkceil 0 noLimit, n + 1)) ⟨by simp only; omega, by simp⟩
    (by simp only; omega)
  refine ⟨p, hp, ?_⟩
  exact (whileFuel_inv (fun s : Int × Nat => 0 ≤ s.1 ∧ n < s.2)
    (fun s hs _ => ⟨by have := hround s hs.1; simp only; omega, by simp only; omega⟩)
    ⟨by simp only; omega, by simp⟩ hp).1.2

/-! ## 4. The folded record counts one chunk too many -/

section Folded

variable {E : Block → Block} {m plain : ChunkmacMap}

theorem macsmacGaps_cons {k : Int} {pre post : List (Int × ChunkMAC)} {p : Int × Nat}
    (hm : m.mMacMap.entries = (k, foldedRecord E pre) :: post) (hu : Unmarked post)
    (hp : countChunks k 0 = some p) (g) :
    macsmacGaps E m g =
      some (metaMac (gapsOver E g post (macOver E pre Block.zero, p.2 + 1)).1) := by
  have hstep : gapsStep E g (zero, 0) (k, foldedRecord E pre) =
      some (macOver E pre zero, p.2 + 1) := by
    rw [gapsStep, hp]
    rfl
  rw [macsmacGaps, hm, foldlM_cons, hstep]
  show (post.foldlM (gapsStep E g) _).map _ = _
  rw [foldlM_gapsStep hu]
  rfl

end Folded

/-! ## 5. Small files are never folded -/

section Runs

variable {E : Block → Block} {m plain : ChunkmacMap}

/-- What a run keeps besides `MacInv`: a map that is folded is large. -/
def FoldedLarge (s : ChunkmacMap × ChunkmacMap) : Prop :=
  s.1.mMacMap = s.2.mMacMap ∨ 101 < s.2.size

theorem size_setEntry_ge (m : ChunkmacMap) (k : Int) (c : ChunkMAC) :
    m.size ≤ (m.setEntry k c).size := by
  have hlen : ∀ l : List (Int × ChunkMAC), l.length ≤ (insertL k c l).length := fun l => by
    induction l with
    | nil => exact Nat.zero_le _
    | cons x l ih =>
      rw [insertL]
      split
      · simp
      split
      · simp
      · simpa using ih
  exact hlen m.mMacMap.entries

theorem FoldedLarge.foldl_setEntry (f : ChunkMAC → ChunkMAC) (l : List (Int × ChunkMAC))
    {m plain} (h : FoldedLarge (m, plain)) :
    FoldedLarge (l.foldl (fun m e => m.setEntry e.1 (f e.2)) m,
      l.foldl (fun m e => m.setEntry e.1 (f e.2)) plain) := by
  induction l generalizing m plain with
  | nil => exact h
  | cons e l ih =>
    refine ih ?_
    rcases h with h | h
    · refine .inl ?_
      exact congrArg (fun o => o.insert e.1 (f e.2)) h
    · exact .inr (lt_of_lt_of_le h (size_setEntry_ge plain e.1 (f e.2)))

theorem foldedLarge_step {s s' : ChunkmacMap × ChunkmacMap} (hinv : MacInv E s.1 s.2)
    (h : FoldedLarge s) (hs : MacStep E s s') : FoldedLarge s' := by
  cases hs with
  | @upload m plain macs _ _ => exact h.foldl_setEntry (fun r => { r with finished := true }) _
  | @download m plain piece _ _ => exact h.foldl_setEntry id _
  | @contiguous m plain m' fileSize fuel hl =>
    have hround : ∀ s : ChunkmacMap, s.mMacMap = m.mMacMap →
        s.finishedAt s.progresscontiguous = true →
        (s.setProgressContiguous (chunkceil s.progresscontiguous fileSize)).mMacMap = m.mMacMap :=
      fun s hs _ => hs
    have hmap := (whileFuel_inv _ hround rfl hl).1
    rcases h with h | h
    · exact .inl (hmap.trans h)
    · exact .inr h
  | @progress m plain fileSize => exact h
  | @fold m plain m' fuel hl =>
    rcases h with h | h
    · cases fuel with
      | zero => exact nomatch hl
      | succ fuel =>
        rw [updateMacsmacProgress, whileFuel] at hl
        split_ifs at hl with hc
        · refine .inr ?_
          have hsize := (canFold_iff.1 hc).2
          rwa [h] at hsize
        · cases hl
          exact .inl h
    · exact .inr h
  | @resume m plain m' rest rest' hsize hl =>
    obtain ⟨hmap, -⟩ := hinv.unserialized hsize hl
    rcases h with h | h
    · exact .inl (hmap.trans h)
    · exact .inr h

/-- **A map with at most 101 chunks is never folded.** -/
theorem unfolded_of_run {m₀ : ChunkmacMap} (h₀ : Plain m₀)
    (hr : Relation.ReflTransGen (MacStep E) (m₀, m₀) (m, plain)) (hsize : plain.size ≤ 101) :
    m.mMacMap = plain.mMacMap := by
  have hinv : MacInv E m plain ∧ FoldedLarge (m, plain) :=
    run_inv (fun s => MacInv E s.1 s.2 ∧ FoldedLarge s)
      (fun _ _ h hs => ⟨mac_step_inv h.1 hs, foldedLarge_step h.1 h.2 hs⟩)
      ⟨h₀.inv, .inl rfl⟩ hr
  rcases hinv.2 with h | h
  · exact h
  · exact absurd hsize (by simpa using h)

theorem MacInv.marked (h : MacInv E m plain) (hc : canFold m = true) {fuel : Nat}
    {m' : ChunkmacMap} (hl : m.updateMacsmacProgress E fuel = some m') :
    MacInv E m' plain ∧ 0 ≤ m'.macsmacSoFarPos := by
  have hround : ∀ s : ChunkmacMap, MacInv E s plain → canFold s = true →
      MacInv E (ChunkmacMap.foldFront E s) plain ∧
        0 ≤ (ChunkmacMap.foldFront E s).macsmacSoFarPos := fun s hs hcs => by
    exact ⟨(hs.foldFront hcs).1, (hs.tracked.foldCase hs.folded.first hcs).progress.1⟩
  cases fuel with
  | zero => exact nomatch hl
  | succ fuel =>
    rw [updateMacsmacProgress, whileFuel, if_pos hc] at hl
    exact (whileFuel_inv (fun s => MacInv E s plain ∧ 0 ≤ s.macsmacSoFarPos)
      (fun s hs => hround s hs.1) (hround m h hc) hl).1

end Runs

/-! ## 6. Large files are -/

section Search

variable {E : Block → Block} {m : ChunkmacMap} {metamac : Int} {gs : List Gaps}

theorem searchGaps_eq (hall : ∀ g ∈ gs, ∃ mac, macsmacGaps E m g = some mac) :
    ∃ found, searchGaps E m metamac gs = some found ∧
      (found = true ↔ ∃ g ∈ gs, macsmacGaps E m g = some metamac) := by
  induction gs with
  | nil => exact ⟨false, rfl, by simp⟩
  | cons a gs ih =>
    obtain ⟨mac, hmac⟩ := hall a mem_cons_self
    rw [searchGaps, hmac, exists_mem_cons_iff, hmac]
    show ∃ found, (if metamac = mac then _ else _) = _ ∧ _
    split_ifs with heq
    · exact ⟨true, rfl, by simp [heq]⟩
    rw [or_iff_right fun h => heq (Option.some.inj h).symm]
    exact ih fun g hg => hall g (mem_cons_of_mem _ hg)

/-- The search tries no index behind the number of records. -/
theorem le_of_mem_gaps {size : Nat} (h : g ∈ singleGaps size ++ doubleGaps size) :
    g.g2 ≤ size ∧ g.g4 ≤ size := by
  rcases mem_append.1 h with h | h
  · simp only [singleGaps, mem_flatMap, mem_map, mem_range'_1] at h
    obtain ⟨countBack, -, len1, hlen, rfl⟩ := h
    exact ⟨by simp only; omega, le_rfl⟩
  simp only [doubleGaps, mem_flatMap, mem_map, mem_range'_1] at h
  obtain ⟨start1, -, len1, hl1, start2, -, len2, hl2, rfl⟩ := h
  exact ⟨by simp only; omega, by simp only; omega⟩

theorem mem_gaps_last {size : Nat} (h : 0 < size) :
    ⟨size - 1, size, size, size⟩ ∈ singleGaps size ++ doubleGaps size := by
  refine mem_append_left _ ?_
  simp only [singleGaps, mem_flatMap, mem_map, mem_range'_1]
  exact ⟨1, by omega, 1, by omega, by congr 1; omega⟩

end Search

/-- The MAC of the last chunk in `lastOnly`. -/
def lastMac : Block := fun i => if i.val = 0 then 1 else 0

/-- The entries of `n` finished chunks, where only chunk `last` has a MAC other than zero. -/
def lastEntries (last n : Nat) : List (Int × ChunkMAC) :=
  (List.range n).map fun i =>
    (chunkStart i, { mac := if i = last then lastMac else Block.zero, finished := true })

/-- A complete file of `n + 1` chunks. -/
def lastOnly (n : Nat) : ChunkmacMap where
  mMacMap := ⟨lastEntries n (n + 1), by
    rw [lastEntries, pairwise_map]
    exact pairwise_lt_range.imp fun h => chunkStart_strictMono h⟩
  progresscontiguous := chunkStart (n + 1)

theorem unmarked_lastEntries (last n : Nat) : Unmarked (lastEntries last n) := fun x hx => by
  obtain ⟨i, -, rfl⟩ := mem_map.1 hx
  rfl

theorem lastEntries_succ (n) : lastEntries n (n + 1) =
    lastEntries n n ++ [(chunkStart n, { mac := lastMac, finished := true })] := by
  rw [lastEntries, lastEntries, range_succ]
  simp

theorem mac_lastEntries {x : Int × ChunkMAC} (hx : x ∈ lastEntries n n) : x.2.mac = Block.zero := by
  obtain ⟨i, hi, rfl⟩ := mem_map.1 hx
  exact if_neg (mem_range.1 hi).ne

theorem plain_lastOnly (hn : chunkStart (n + 1) < 2 ^ 63) : Plain (lastOnly n) where
  lattice x hx := by
    obtain ⟨i, -, rfl⟩ := mem_map.1 hx
    exact ⟨_, isChunk_chunkStart i⟩
  int64 x hx := by
    obtain ⟨i, hi, rfl⟩ := mem_map.1 hx
    exact lt_trans (chunkStart_strictMono (mem_range.1 hi)) hn
  finished x hx _ := by
    obtain ⟨i, -, rfl⟩ := mem_map.1 hx
    rfl
  contiguous c e hc _ hlt := by
    obtain ⟨i, hi, rfl⟩ := exists_chunkStart hc hlt
    exact ⟨_, mem_map.2 ⟨i, mem_range.2 hi, rfl⟩⟩
  unmarked := unmarked_lastEntries n (n + 1)
  nothing := rfl

theorem size_lastOnly (n) : (lastOnly n).size = n + 1 := by
  simp [size, OrdMap.size, lastOnly, lastEntries]

theorem gapsOver_zero (h : ∀ x ∈ l, x.2.mac = Block.zero) (g) (n) :
    gapsOver id g l (Block.zero, n) = (Block.zero, n + l.length) := by
  induction l generalizing n with
  | nil => rfl
  | cons x l ih =>
    have hround : gapsRound id g (zero, n) x.2 = (zero, n + 1) := by
      rw [gapsRound, h x mem_cons_self]
      simp
    have hrest := ih (fun y hy => h y (mem_cons_of_mem _ hy)) (n + 1)
    rw [gapsOver] at hrest
    rw [gapsOver, foldl_cons, hround, hrest, length_cons, add_assoc,
      add_comm 1]

theorem macOver_zero (hu : Unmarked l) (h : ∀ x ∈ l, x.2.mac = Block.zero) :
    macOver id l Block.zero = Block.zero := by
  have hbefore : gapsOver id ⟨l.length, 0, l.length, 0⟩ l (zero, 0) =
      (macOver id l zero, 0 + l.length) :=
    gapsOver_before hu (by simp) (by simp)
  rw [gapsOver_zero h] at hbefore
  exact (congrArg Prod.fst hbefore).symm

/-- Without its last chunk the file of `lastOnly` has the MAC zero. -/
theorem macsmacGaps_lastOnly (n) :
    macsmacGaps id (lastOnly n) ⟨n + 1 - 1, n + 1, n + 1, n + 1⟩ = some 0 := by
  rw [macsmacGaps_plain (unmarked_lastEntries n (n + 1))]
  have hfront := gapsOver_zero (l := lastEntries n n) (fun x => mac_lastEntries)
    ⟨n + 1 - 1, n + 1, n + 1, n + 1⟩ 0
  rw [show (lastEntries n n).length = n by simp [lastEntries]] at hfront
  have hall : gapsOver id ⟨n + 1 - 1, n + 1, n + 1, n + 1⟩ (lastOnly n).mMacMap.entries
      (zero, 0) = (zero, n + 1) := by
    show gapsOver id _ (lastEntries n (n + 1)) _ = _
    rw [lastEntries_succ, gapsOver_append, hfront]
    simp [gapsOver, gapsRound, Gaps.has]
  rw [hall]
  exact congrArg some (show metaMac zero = 0 by decide)

/-- Once it is folded, every gap that is tried leaves the last chunk in. -/
theorem macsmacGaps_folded_lastOnly {m : ChunkmacMap} (h : Folded id m (lastOnly n))
    (hpos : 0 ≤ m.macsmacSoFarPos) (h2 : g.g2 ≤ m.size) (h4 : g.g4 ≤ m.size) :
    macsmacGaps id m g = some 1 := by
  obtain ⟨hu, ⟨h1, -⟩ | ⟨pre, post, hp, -, -, hm⟩⟩ := h
  · omega
  have hmac : metaMac lastMac = 1 := by decide
  have hent : lastEntries n n ++ [(chunkStart n, { mac := lastMac, finished := true })] =
      pre ++ post := by
    rw [← lastEntries_succ]
    exact hp
  obtain ⟨p, hcount, hp1⟩ := countChunks_pos hpos 0
  have hupost : Unmarked post := fun x hx => hu x (hp ▸ mem_append_right _ hx)
  rw [macsmacGaps_cons hm hupost hcount]
  rcases eq_nil_or_concat post with rfl | ⟨post, x, rfl⟩
  · -- everything is folded, the last chunk too
    rw [append_nil] at hent
    have hpre : macOver id pre zero = lastMac := by
      rw [← hent, macOver_append,
        macOver_zero (unmarked_lastEntries n n) fun x hx => mac_lastEntries hx]
      simp [macOver, macsmacRound]
    rw [hpre]
    exact congrArg some hmac
  rw [concat_eq_append, ← append_assoc] at hent
  obtain ⟨hfront, hlast⟩ := append_inj' hent rfl
  have hzero : ∀ y ∈ pre ++ post, y.2.mac = zero := fun y hy =>
    mac_lastEntries (hfront ▸ hy)
  have hupre : Unmarked pre := fun y hy =>
    unmarked_lastEntries n n y (hfront ▸ mem_append_left _ hy)
  have hsize : m.size = post.length + 2 := by
    rw [size, OrdMap.size, hm]
    simp
  rw [macOver_zero hupre fun y hy => hzero y (mem_append_left _ hy), concat_eq_append,
    gapsOver_append, gapsOver_zero fun y hy => hzero y (mem_append_right _ hy), ← hlast]
  have hno : g.has (p.2 + 1 + post.length) = false := by
    simp only [Gaps.has, or_eq_false_iff, and_eq_false_iff, decide_eq_false_iff_not]
    omega
  simp only [gapsOver, foldl_cons, gapsRound, hno]
  simpa using hmac

/-- **A folded map gives another answer**: the file MAC without the last chunk is found before the
map of a complete file is folded, and not after. -/
theorem check_differs (hn : 101 ≤ n) (h63 : chunkStart (n + 1) < 2 ^ 63) :
    ∃ m, Relation.ReflTransGen (MacStep id) (lastOnly n, lastOnly n) (m, lastOnly n) ∧
      checkMetaMacWithMissingLateEntries id (lastOnly n) 0 =
        some (true, (lastOnly n).macsmac id) ∧
      checkMetaMacWithMissingLateEntries id m 0 = some (false, 0) := by
  have hinv : MacInv id (lastOnly n) (lastOnly n) := (plain_lastOnly h63).inv
  have hc : canFold (lastOnly n) = true := by
    have hge := chunkStart_ge (n + 1)
    have hsize := size_lastOnly n
    rw [canFold_iff]
    constructor
    · show (-1 : Int) + 5242880 < chunkStart (n + 1)
      omega
    · rw [size, OrdMap.size] at hsize
      omega
  obtain ⟨m, hm⟩ := hinv.fold_ends (Nat.lt_succ_self _)
  obtain ⟨hinv', hpos⟩ := hinv.marked hc hm
  refine ⟨m, .single (MacStep.fold _ hm), ?_, ?_⟩
  · have hlast : macsmacGaps id (lastOnly n) ⟨(lastOnly n).size - 1, (lastOnly n).size,
        (lastOnly n).size, (lastOnly n).size⟩ = some 0 := by
      rw [size_lastOnly]
      exact macsmacGaps_lastOnly n
    obtain ⟨found, hsearch, hfound⟩ := searchGaps_eq (m := lastOnly n) fun g _ =>
      ⟨_, macsmacGaps_plain (unmarked_lastEntries n (n + 1)) g⟩
    rw [checkMetaMacWithMissingLateEntries, hsearch,
      hfound.2 ⟨_, mem_gaps_last (by rw [size_lastOnly]; omega), hlast⟩]
    rfl
  have hone : ∀ g ∈ singleGaps m.size ++ doubleGaps m.size, macsmacGaps id m g = some 1 :=
    fun g hg => macsmacGaps_folded_lastOnly hinv'.folded hpos (le_of_mem_gaps hg).1
      (le_of_mem_gaps hg).2
  obtain ⟨found, hsearch, hfound⟩ := searchGaps_eq fun g hg => ⟨1, hone g hg⟩
  rw [checkMetaMacWithMissingLateEntries, hsearch]
  cases found with
  | false => rfl
  | true =>
    obtain ⟨g, hg, hmac⟩ := hfound.1 rfl
    cases (hone g hg).symm.trans hmac

/-! ## 7. The search and folding -/

structure Complete (n : Nat) (plain : ChunkmacMap) : Prop where
  keys : plain.mMacMap.keys = (List.range n).map chunkStart
  finished : ∀ x ∈ plain.mMacMap.entries, x.2.finished = true

/-- How many chunks the folded record stands for. -/
def foldedChunks (m plain : ChunkmacMap) : Nat :=
  (plain.mMacMap.entries.filter fun x => x.1 ≤ m.macsmacSoFarPos).length

/-- The search does not see whether `m` is folded: it gives the same answer for every file MAC, and
gaps behind the folded chunks leave out the same chunks. -/
structure SameSearch (E : Block → Block) (m plain : ChunkmacMap) : Prop where
  answer : ∀ metamac, ∃ r, checkMetaMacWithMissingLateEntries E m metamac = some r ∧
    checkMetaMacWithMissingLateEntries E plain metamac = some r
  gaps : ∀ g : Gaps, foldedChunks m plain ≤ g.g1 → foldedChunks m plain ≤ g.g2 →
    foldedChunks m plain ≤ g.g3 → foldedChunks m plain ≤ g.g4 →
    ∃ mac, macsmacGaps E m g = some mac ∧ macsmacGaps E plain g = some mac

section Same

variable {E : Block → Block} {m plain : ChunkmacMap}

theorem searchGaps_congr (h : m.mMacMap = plain.mMacMap) (metamac : Int) (gs : List Gaps) :
    searchGaps E m metamac gs = searchGaps E plain metamac gs := by
  have hgaps : ∀ g, macsmacGaps E m g = macsmacGaps E plain g := fun g => by
    rw [macsmacGaps, macsmacGaps, h]
  induction gs with
  | nil => rfl
  | cons g gs ih => rw [searchGaps, searchGaps, hgaps, ih]

theorem SameSearch.of_eq (h : m.mMacMap = plain.mMacMap) (hu : Unmarked plain.mMacMap.entries) :
    SameSearch E m plain where
  answer metamac := by
    obtain ⟨found, hfound, -⟩ := @searchGaps_eq E plain metamac
      (singleGaps plain.size ++ doubleGaps plain.size) fun g _ => ⟨_, macsmacGaps_plain hu g⟩
    refine ⟨if found then (true, plain.macsmac E) else (false, metamac), ?_, ?_⟩
    · rw [checkMetaMacWithMissingLateEntries, searchGaps_congr h, size, h, ← size, hfound, macsmac,
        h]
      rfl
    · rw [checkMetaMacWithMissingLateEntries, hfound]
      rfl
  gaps g _ _ _ _ :=
    ⟨_, by rw [macsmacGaps, h, ← macsmacGaps, macsmacGaps_plain hu], macsmacGaps_plain hu g⟩

end Same

theorem complete_lastOnly (n) : Complete (n + 1) (lastOnly n) where
  keys := by
    show (lastEntries n (n + 1)).map (·.1) = _
    rw [lastEntries, map_map]
    rfl
  finished x hx := by
    obtain ⟨i, -, rfl⟩ := mem_map.1 hx
    rfl

/-- **The search and folding.** For files of `n` chunks: whatever the cipher, the chunk MACs and the
run of completions, progress updates, folds and resumes, the search on the transfer's map is the
search on the map that is never folded -- exactly when `n` is at most 101. -/
theorem checkMetaMac_of_run_iff (n : Nat) (h63 : chunkStart n < 2 ^ 63) :
    (∀ (E : Block → Block) (m₀ m plain : ChunkmacMap), Plain m₀ →
      Relation.ReflTransGen (MacStep E) (m₀, m₀) (m, plain) → Complete n plain →
      SameSearch E m plain) ↔ n ≤ 101 := by
  constructor
  · intro h
    by_contra hlarge
    obtain ⟨k, rfl⟩ : ∃ k, n = k + 1 := ⟨n - 1, by omega⟩
    obtain ⟨m, hrun, hplain, hm⟩ := check_differs (by omega) h63
    obtain ⟨r, hr, hr'⟩ :=
      (h id _ m _ (plain_lastOnly h63) hrun (complete_lastOnly k)).answer 0
    rw [hm, Option.some.injEq] at hr
    rw [hplain, Option.some.injEq, ← hr] at hr'
    exact absurd (congrArg Prod.fst hr') (by simp)
  · intro hn E m₀ m plain h₀ hrun hcomplete
    have hsize : plain.size = n := by
      rw [size, ← length_keys, hcomplete.keys]
      simp
    have hinv : MacInv E m plain :=
      run_inv (fun s => MacInv E s.1 s.2) (fun _ _ => mac_step_inv) h₀.inv hrun
    exact .of_eq (unfolded_of_run h₀ hrun (by omega)) hinv.folded.1

/-- A file of 60 chunks. -/
theorem checkMetaMac_of_run_sixty :
    Complete 60 (lastOnly 59) ∧ SameSearch id (lastOnly 59) (lastOnly 59) :=
  have h63 : chunkStart 60 < 2 ^ 63 := by decide +kernel
  ⟨complete_lastOnly 59, (checkMetaMac_of_run_iff 60 h63).2 (by decide) id _ _ _
    (plain_lastOnly h63) .refl (complete_lastOnly 59)⟩

/-- A file of 102 chunks, of which folding takes two: the file MAC without the last chunk is no
longer found. -/
theorem checkMetaMac_folded :
    ∃ m, Plain (lastOnly 101) ∧ Complete 102 (lastOnly 101) ∧
      Relation.ReflTransGen (MacStep id) (lastOnly 101, lastOnly 101) (m, lastOnly 101) ∧
      checkMetaMacWithMissingLateEntries id (lastOnly 101) 0 =
        some (true, (lastOnly 101).macsmac id) ∧
      checkMetaMacWithMissingLateEntries id m 0 = some (false, 0) := by
  have h63 : chunkStart 102 < 2 ^ 63 := by decide +kernel
  obtain ⟨m, hrun, hplain, hm⟩ := check_differs (by decide) h63
  exact ⟨m, plain_lastOnly h63, complete_lastOnly 101, hrun, hplain, hm⟩

end ChunkmacMap

end MegaSdk
