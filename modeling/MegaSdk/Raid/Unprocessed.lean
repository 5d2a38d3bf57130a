/-
  File:      MegaSdk/Raid/Unprocessed.lean
  Subject:   WHICH BYTES A REQUEST ASKS FOR (chunkmac_map::nextUnprocessedPosFrom and
             expandUnprocessedPiece, utils.cpp).

  The search goes from chunk to chunk over the finished ones. In the first chunk that is not finished
  it adds the number of bytes done in that chunk to the position, whether or not the position is the
  chunk's start.

  * `NextRight` -- the result is the first byte to be processed, a second call does not move it, and
    the piece from there on has only bytes to be processed;
  * `nextRight_of_stop` -- so it is when the chunk the search stops in was not started;
  * `least_of_start` -- from a chunk's start the result is the first byte to be processed in any case;
  * `nextRight_iff` -- and all of it holds from everywhere exactly when no chunk was left in its
    middle.
-/
import MegaSdk.Raid.Requests

namespace MegaSdk.Raid

open Base

/-! ## 1. Processed bytes -/

/-- The byte at `q` is one of a finished chunk, or one of the first `offset` bytes of a started one. -/
def Processed (m : ChunkmacMap) (q : Int) : Prop :=
  ∃ c, m.mMacMap.get? (chunkfloor q) = some c ∧
    (c.finished = true ∨ q < chunkfloor q + c.offset.toNat)

def FinishedChunk (m : ChunkmacMap) (q : Int) : Prop :=
  ∃ c, m.mMacMap.get? (chunkfloor q) = some c ∧ c.finished = true

def offsetAt (m : ChunkmacMap) (q : Int) : Nat :=
  match m.mMacMap.get? (chunkfloor q) with
  | none => 0
  | some c => c.offset.toNat

variable {m : ChunkmacMap} {pos p q : Int}

theorem FinishedChunk.processed (h : FinishedChunk m q) : Processed m q := by
  obtain ⟨c, hc, hfin⟩ := h
  exact ⟨c, hc, .inl hfin⟩

theorem processed_iff (h : ¬ FinishedChunk m q) (hq : 0 ≤ q) :
    Processed m q ↔ q < chunkfloor q + offsetAt m q := by
  have hfloor := (chunk_spec q hq).2.1
  rw [offsetAt]
  cases hget : m.mMacMap.get? (chunkfloor q) with
  | none =>
    constructor
    · intro ⟨c, hc, _⟩
      exact nomatch hget.symm.trans hc
    intro hlt
    simp only at hlt
    omega
  | some c =>
    constructor
    · intro ⟨c', hc', hor⟩
      cases hget.symm.trans hc'
      exact hor.resolve_left fun hfin => h ⟨c, hget, hfin⟩
    · exact fun hlt => ⟨c, hget, .inr hlt⟩

theorem chunkfloor_eq_of_mem (hp : 0 ≤ p) (h1 : chunkfloor p ≤ q) (h2 : q < chunkceil p noLimit) :
    chunkfloor q = chunkfloor p :=
  chunkfloor_of_mem (chunk_spec p hp).1 h1 h2

theorem finishedChunk_congr (h : chunkfloor q = chunkfloor p) :
    FinishedChunk m q ↔ FinishedChunk m p := by
  rw [FinishedChunk, FinishedChunk, h]

theorem offsetAt_congr (h : chunkfloor q = chunkfloor p) : offsetAt m q = offsetAt m p := by
  rw [offsetAt, offsetAt, h]

theorem not_processed_of_chunk (hp : 0 ≤ p) (hfin : ¬ FinishedChunk m p) (hoff : offsetAt m p = 0)
    (h1 : chunkfloor p ≤ q) (h2 : q < chunkceil p noLimit) : ¬ Processed m q := by
  have hfloor := chunkfloor_eq_of_mem hp h1 h2
  have hq : 0 ≤ q := (chunk_spec p hp).1.nonneg.trans h1
  rw [processed_iff (mt (finishedChunk_congr hfloor).1 hfin) hq, offsetAt_congr hfloor]
  omega

theorem chunkfloor_of_isStart (h : IsStart p) : chunkfloor p = p := by
  obtain ⟨e, he⟩ := h
  exact chunkfloor_of_mem he le_rfl he.lt

/-! ## 2. The search -/

/-- Where the search from `pos` stops: behind finished chunks, in one that is not finished. -/
structure StopsAt (m : ChunkmacMap) (pos p : Int) : Prop where
  le : pos ≤ p
  passed : ∀ q, pos ≤ q → q < p → FinishedChunk m q
  at_start : p = pos ∨ IsStart p
  unfinished : ¬ FinishedChunk m p

theorem chunksFrom_lt_size (m p) : chunksFrom m p < m.size + 1 := by
  have hle := List.length_filter_le (fun k => decide (p ≤ k)) m.mMacMap.keys
  rw [OrdMap.length_keys] at hle
  exact Nat.lt_succ_of_le hle

theorem next_of_unfinished (hfin : ¬ FinishedChunk m pos) (n : Nat) :
    nextUnprocessedPosFrom m (n + 1) pos = some (pos + offsetAt m pos) := by
  rw [nextUnprocessedPosFrom, offsetAt]
  cases hget : m.mMacMap.get? (chunkfloor pos) with
  | none => simp
  | some c => exact if_neg fun hc => hfin ⟨c, hget, hc⟩

/-- **The search stops, and adds the offset it finds there.** -/
theorem search_spec {n : Nat} (hpos : 0 ≤ pos) (hn : chunksFrom m (chunkfloor pos) < n) :
    ∃ p, StopsAt m pos p ∧ nextUnprocessedPosFrom m n pos = some (p + offsetAt m p) := by
  induction n generalizing pos with
  | zero => cases hn
  | succ n ih =>
    by_cases hfin : FinishedChunk m pos
    · obtain ⟨-, hfloor, hceil⟩ := chunk_spec pos hpos
      have hstart : IsStart (chunkceil pos noLimit) := isStart_chunkceil hpos
      obtain ⟨c, hget, hc⟩ := hfin
      have hkey : chunkfloor pos ∈ m.mMacMap.keys := OrdMap.mem_keys.2 (by rw [hget]; rfl)
      have hless := chunksFrom_lt hkey (show chunkfloor pos < chunkceil pos noLimit by omega)
      obtain ⟨p, hstop, hp⟩ := ih (show 0 ≤ chunkceil pos noLimit by omega) (by
        rw [chunkfloor_of_isStart hstart]
        omega)
      refine ⟨p, ⟨hceil.le.trans hstop.le, fun q h1 h2 => ?_, .inr ?_, hstop.unfinished⟩, ?_⟩
      · -- the rest of this chunk, then what the rest of the search has passed
        rcases lt_or_ge q (chunkceil pos noLimit) with hq | hq
        · rw [finishedChunk_congr (chunkfloor_eq_of_mem hpos (hfloor.trans h1) hq)]
          exact ⟨c, hget, hc⟩
        · exact hstop.passed q hq h2
      · rcases hstop.at_start with hp | hp
        · rwa [hp]
        · exact hp
      rw [nextUnprocessedPosFrom, hget]
      simp only [hc]
      exact hp
    · exact ⟨pos, ⟨le_rfl, fun q h1 h2 => absurd h2 h1.not_gt, .inl rfl, hfin⟩,
        next_of_unfinished hfin n⟩

/-! ## 3. The piece -/

def PieceInv (m : ChunkmacMap) (p fileSize npos : Int) : Prop :=
  (∀ q, p ≤ q → q < npos → ¬ Processed m q) ∧ (IsStart npos ∨ fileSize ≤ npos)

theorem clampTo_cases (limit np : Int) : clampTo limit np = np ∨ clampTo limit np = limit := by
  unfold clampTo
  split
  · exact .inl rfl
  · exact .inr rfl

theorem pieceInv_ceil (hp : 0 ≤ p) (hfin : ¬ FinishedChunk m p) (hoff : offsetAt m p = 0)
    (fileSize : Int) : PieceInv m p fileSize (chunkceil p fileSize) := by
  have hfloor := (chunk_spec p hp).2.1
  rw [chunkceil_limit]
  refine ⟨fun q h1 h2 => ?_, ?_⟩
  · exact not_processed_of_chunk hp hfin hoff (hfloor.trans h1) (h2.trans_le (clampTo_le _ _))
  rcases clampTo_cases fileSize (chunkceil p noLimit) with h | h
  · rw [h]
    exact .inl (isStart_chunkceil hp)
  · exact .inr h.ge

theorem offsetAt_of_notStartedAt (hp : IsStart p) (h : notStartedAt m p = true) :
    ¬ FinishedChunk m p ∧ offsetAt m p = 0 := by
  rw [FinishedChunk, offsetAt, chunkfloor_of_isStart hp]
  rw [notStartedAt] at h
  cases hget : m.mMacMap.get? p with
  | none =>
    refine ⟨fun hfin => ?_, rfl⟩
    obtain ⟨_, hc, _⟩ := hfin
    cases hc
  | some c =>
    rw [hget] at h
    obtain ⟨hfin, hoff⟩ : c.finished = false ∧ c.offset = 0 := by
      simpa [ChunkMAC.notStarted] using h
    refine ⟨fun hfin' => ?_, congrArg UInt32.toNat hoff⟩
    obtain ⟨c', hc', hfin'⟩ := hfin'
    cases hc'
    exact absurd hfin' (by rw [hfin]; decide)

theorem IsStart.nonneg (h : IsStart p) : 0 ≤ p := by
  obtain ⟨e, he⟩ := h
  exact he.nonneg

/-- **The piece grows by whole chunks that were not started.** -/
theorem expand_unprocessed (hp : 0 ≤ p) (hfin : ¬ FinishedChunk m p) (hoff : offsetAt m p = 0)
    (fileSize maxReqSize : Int) :
    ∃ npos, expandUnprocessedPiece m p (chunkceil p fileSize) fileSize maxReqSize = some npos ∧
      ∀ q, p ≤ q → q < npos → ¬ Processed m q := by
  have hround : ∀ npos, PieceInv m p fileSize npos →
      (npos < fileSize && npos - p < maxReqSize && notStartedAt m npos) = true →
      PieceInv m p fileSize (chunkceil npos fileSize) ∧
        (fileSize - chunkceil npos fileSize).toNat < (fileSize - npos).toNat := by
    intro npos hinv hc
    simp only [Bool.and_eq_true, decide_eq_true_eq] at hc
    have hstart : IsStart npos := hinv.2.resolve_right (by omega)
    obtain ⟨hfin', hoff'⟩ := offsetAt_of_notStartedAt hstart hc.2
    have hnext := pieceInv_ceil hstart.nonneg hfin' hoff' fileSize
    have hlt := (lt_chunkceil_limit hstart.nonneg hc.1.1).1
    refine ⟨⟨fun q h1 h2 => ?_, hnext.2⟩, by omega⟩
    rcases lt_or_ge q npos with hq | hq
    · exact hinv.1 q h1 hq
    · exact hnext.1 q hq h2
  have hfirst := pieceInv_ceil hp hfin hoff fileSize
  obtain ⟨npos, hend⟩ := whileFuel_ends (PieceInv m p fileSize) (fun npos => (fileSize - npos).toNat)
    hround hfirst (lt_add_one _)
  exact ⟨npos, hend, (whileFuel_inv (PieceInv m p fileSize) (fun s hs hc => (hround s hs hc).1)
    hfirst hend).1.1⟩

/-! ## 4. When the result is right -/

/-- The first byte from `pos` on that is to be processed. -/
structure Least (m : ChunkmacMap) (pos p : Int) : Prop where
  le : pos ≤ p
  todo : ¬ Processed m p
  least : ∀ q, pos ≤ q → q < p → Processed m q

theorem Least.unique (h : Least m pos p) (h' : Least m pos q) : p = q := by
  rcases lt_trichotomy p q with hlt | heq | hgt
  · exact absurd (h'.least p h.le hlt) h.todo
  · exact heq
  · exact absurd (h.least q h'.le hgt) h'.todo

theorem Least.of_le {pos' : Int} (h : Least m pos p) (h1 : pos ≤ pos') (h2 : pos' ≤ p) :
    Least m pos' p := ⟨h2, h.todo, fun q hq => h.least q (h1.trans hq)⟩

/-- **`nextUnprocessedPosFrom(pos)` and the piece from there on are right**: the result is the first
    byte to be processed, a second call does not move it, and for every size of the file and of the
    request the piece has only bytes to be processed. -/
def NextRight (m : ChunkmacMap) (pos : Int) : Prop :=
  ∃ p, nextUnprocessedPosFrom m (m.size + 1) pos = some p ∧ Least m pos p ∧
    nextUnprocessedPosFrom m (m.size + 1) p = some p ∧
    ∀ fileSize maxReqSize, ∃ npos,
      expandUnprocessedPiece m p (chunkceil p fileSize) fileSize maxReqSize = some npos ∧
        ∀ q, p ≤ q → q < npos → ¬ Processed m q

/-- The search stops in a chunk that was not started. -/
theorem nextRight_of_stop (hpos : 0 ≤ pos) (hstop : StopsAt m pos p) (hoff : offsetAt m p = 0)
    (hnext : nextUnprocessedPosFrom m (m.size + 1) pos = some (p + offsetAt m p)) :
    NextRight m pos := by
  have hp : 0 ≤ p := hpos.trans hstop.le
  obtain ⟨_, hfloor, hceil⟩ := chunk_spec p hp
  rw [hoff, Int.natCast_zero, add_zero] at hnext
  refine ⟨p, hnext, ⟨hstop.le, ?_, fun q h1 h2 => (hstop.passed q h1 h2).processed⟩, ?_, ?_⟩
  · exact not_processed_of_chunk hp hstop.unfinished hoff hfloor hceil
  · rw [next_of_unfinished hstop.unfinished, hoff, Int.natCast_zero, add_zero]
  · exact expand_unprocessed hp hstop.unfinished hoff

/-- From a chunk's start on the result is the first byte to be processed, as long as offsets lie
    inside their chunks: a started chunk is then met at its start. -/
theorem least_of_start (hpos : IsStart pos)
    (hin : ∀ q, 0 ≤ q → chunkfloor q + offsetAt m q < chunkceil q noLimit) :
    ∃ p, nextUnprocessedPosFrom m (m.size + 1) pos = some p ∧ Least m pos p := by
  obtain ⟨p, hstop, hnext⟩ := search_spec hpos.nonneg (chunksFrom_lt_size m (chunkfloor pos))
  have hp : 0 ≤ p := hpos.nonneg.trans hstop.le
  have hstart : chunkfloor p = p := by
    rcases hstop.at_start with h | h
    · rw [h, chunkfloor_of_isStart hpos]
    · exact chunkfloor_of_isStart h
  have hlt := hin p hp
  rw [hstart] at hlt
  -- all positions up to the result lie in the chunk the search stopped in
  have hchunk : ∀ q, p ≤ q → q ≤ p + offsetAt m p → (Processed m q ↔ q < p + offsetAt m p) := by
    intro q h1 h2
    have hfloor := chunkfloor_eq_of_mem hp (hstart.le.trans h1) (h2.trans_lt hlt)
    rw [processed_iff (mt (finishedChunk_congr hfloor).1 hstop.unfinished) (hp.trans h1),
      offsetAt_congr hfloor, hfloor, hstart]
  refine ⟨_, hnext, hstop.le.trans (by omega), ?_, fun q h1 h2 => ?_⟩
  · rw [hchunk _ (by omega) le_rfl]
    exact lt_irrefl _
  rcases lt_or_ge q p with hq | hq
  · exact (hstop.passed q h1 hq).processed
  · exact (hchunk q hq h2.le).2 h2

/-! ## 5. The map -/

/-- The entries lie at chunk starts; nothing was folded, or the chunks up to some position were. -/
structure OnLattice (m : ChunkmacMap) : Prop where
  keys : ∀ s c, m.mMacMap.get? s = some c → IsStart s
  folded : m.macsmacSoFarPos = -1 ∨ IsStart m.macsmacSoFarPos

/-- No chunk behind the folded ones was left in its middle. -/
def NoneHalfDone (m : ChunkmacMap) : Prop :=
  ∀ s c, m.mMacMap.get? s = some c → m.macsmacSoFarPos ≤ s → c.finished = false → c.offset = 0

/-- A position behind the start of a folded chunk lies in no chunk before it. -/
theorem OnLattice.le_chunkfloor (h : OnLattice m) (hp : m.macsmacSoFarPos < p) :
    0 ≤ p ∧ m.macsmacSoFarPos ≤ chunkfloor p := by
  rcases h.folded with hnone | hstart
  · have h0 : 0 ≤ p := by omega
    have hfloor := (chunk_spec p h0).1.nonneg
    exact ⟨h0, by omega⟩
  have h0 : 0 ≤ p := hstart.nonneg.trans hp.le
  obtain ⟨hchunk, -, hceil⟩ := chunk_spec p h0
  refine ⟨h0, not_lt.1 fun hlt => ?_⟩
  obtain ⟨e, he⟩ := hstart
  have hle := hchunk.le_of_lt he hlt
  omega

/-- A chunk left in its middle: one of the two positions behind its start is sent too far. -/
theorem not_nextRight_of_offset {s : Int} (hs : IsStart s) (hfin : ¬ FinishedChunk m s)
    (hoff : 0 < offsetAt m s) : ¬ (NextRight m (s + 1) ∧ NextRight m (s + 2)) := by
  intro ⟨⟨p, hp, hleast, _⟩, p', hp', hleast', _⟩
  obtain ⟨e, he⟩ := hs
  have hlen : s + 131072 ≤ e := by
    have hchunk := he
    rw [isChunk_iff] at hchunk
    omega
  have hrec : ∀ q, s ≤ q → q < e → chunkfloor q = chunkfloor s := fun q h1 h2 => by
    rw [chunkfloor_of_mem he h1 h2, chunkfloor_of_mem he le_rfl he.lt]
  -- from inside the chunk the offset is added to the position
  have hadd : ∀ q, s ≤ q → q < e →
      nextUnprocessedPosFrom m (m.size + 1) q = some (q + offsetAt m s) := fun q h1 h2 => by
    rw [next_of_unfinished (mt (finishedChunk_congr (hrec q h1 h2)).1 hfin),
      offsetAt_congr (hrec q h1 h2)]
  have heq : p = s + 1 + offsetAt m s := Option.some.inj (hp.symm.trans (hadd _ (by omega) (by omega)))
  have heq' : p' = s + 2 + offsetAt m s :=
    Option.some.inj (hp'.symm.trans (hadd _ (by omega) (by omega)))
  -- from `s + 1` the first byte to be processed is not behind `p`, and it is that from `s + 2` too
  have hsame : p = p' := (hleast.of_le (by omega) (by omega)).unique hleast'
  omega

/-- **From every position behind the folded prefix, exactly when no chunk was left in its middle.** -/
theorem nextRight_iff (h : OnLattice m) :
    (∀ pos, m.macsmacSoFarPos < pos → NextRight m pos) ↔ NoneHalfDone m := by
  constructor
  · intro hall s c hget hs hfin
    by_contra hne
    have hstart := h.keys s c hget
    have hfloor := chunkfloor_of_isStart hstart
    refine not_nextRight_of_offset hstart ?_ ?_ ⟨hall _ (by omega), hall _ (by omega)⟩
    · intro ⟨c', hget', hfin'⟩
      rw [hfloor, hget] at hget'
      cases hget'
      exact absurd hfin' (by rw [hfin]; decide)
    · rw [offsetAt, hfloor, hget]
      exact pos_of_ne_zero fun h0 => hne (UInt32.toNat_inj.1 h0)
  intro hnone pos hpos
  have h0 := (h.le_chunkfloor hpos).1
  obtain ⟨p, hstop, hnext⟩ := search_spec h0 (chunksFrom_lt_size m (chunkfloor pos))
  refine nextRight_of_stop h0 hstop ?_ hnext
  have hkey := (h.le_chunkfloor (hpos.trans_le hstop.le)).2
  rw [offsetAt]
  cases hget : m.mMacMap.get? (chunkfloor p) with
  | none => rfl
  | some c =>
    have hfin : c.finished = false := by
      rw [← Bool.not_eq_true]
      exact fun hfin => hstop.unfinished ⟨c, hget, hfin⟩
    exact congrArg UInt32.toNat (hnone _ c hget hkey hfin)

def firstDone : ChunkmacMap := ({} : ChunkmacMap).setEntry 0 { finished := true }

def tenOfFirst : ChunkmacMap := ({} : ChunkmacMap).setEntry 0 { offset := 10 }

theorem get?_first {c c' : ChunkMAC} {s : Int}
    (h : (({} : ChunkmacMap).setEntry 0 c).mMacMap.get? s = some c') : s = 0 ∧ c' = c := by
  rw [ChunkmacMap.setEntry, OrdMap.get?_insert] at h
  split at h
  · rename_i hs
    exact ⟨hs.symm, (Option.some.inj h).symm⟩
  · exact nomatch h

theorem onLattice_first (c : ChunkMAC) : OnLattice (({} : ChunkmacMap).setEntry 0 c) where
  keys := fun _ _ hget => ⟨131072, (isChunk_iff _ _).2 (.inl ⟨(get?_first hget).1, rfl⟩)⟩
  folded := .inl rfl

/-- Behind a finished chunk everything is to be done. -/
theorem nextRight_firstDone : NextRight firstDone 5 :=
  (nextRight_iff (onLattice_first _)).2 (by
    intro s c hget _ hfin
    rw [(get?_first hget).2] at hfin
    exact nomatch hfin) 5 (by decide)

/-- With ten bytes of the first chunk done, the search from byte 4 answers 14 although byte 10 is to
    be processed, and from its own result 10 it goes on to 20. -/
theorem next_too_far : OnLattice tenOfFirst ∧
    nextUnprocessedPosFrom tenOfFirst (tenOfFirst.size + 1) 4 = some 14 ∧ Least tenOfFirst 4 10 ∧
    nextUnprocessedPosFrom tenOfFirst (tenOfFirst.size + 1) 0 = some 10 ∧
    nextUnprocessedPosFrom tenOfFirst (tenOfFirst.size + 1) 10 = some 20 := by
  have hfloor : ∀ q : Int, 0 ≤ q → q < 131072 → chunkfloor q = 0 := fun q h1 h2 =>
    chunkfloor_of_mem ((isChunk_iff _ _).2 (.inl ⟨rfl, rfl⟩)) h1 h2
  refine ⟨onLattice_first _, by decide +kernel, ⟨by decide, ?_, fun q h1 h2 => ?_⟩,
    by decide +kernel, by decide +kernel⟩
  · intro ⟨c, hget, hor⟩
    rw [(get?_first hget).2] at hor
    exact absurd hor (by decide)
  · rw [Processed, hfloor q (by omega) (by omega)]
    exact ⟨{ offset := 10 }, by decide +kernel, .inr (by simpa using h2)⟩

end MegaSdk.Raid
