/-
  File:      MegaSdk/Raid/Requests.lean
  Subject:   THE NEXT RANGE OF A CONNECTION (TransferBufferManager::nextNPosForConnection, raid.cpp)
             for transfers whose parts are not downloaded one by one.

  A request covers whole chunks.  In a download through the RAID proxy (`isNewRaid`) it also has to
  be whole RAID lines, except at the end of the file; chunks have 128 KiB and more, which is no
  multiple of the 80 bytes of a line, so the code looks for a chunk whose end fits.

  * `expand_spec` -- where `expandUnprocessedPiece` stops: at the end of the file, at a chunk that
    was started, or at the chunk the search found;
  * **`nextNPosForConnection_newRaid`** -- so the range is one of whole lines exactly when it starts
    on one.
-/
import MegaSdk.Raid.Layout
import MegaSdk.Chunk.MacMap

namespace MegaSdk.Raid

open Base OrdMap Option Bool

variable {limit p pos r size : Int}

/-! ## 1. The code -/

/-- `chunkmac_map::nextUnprocessedPosFrom`, in at most `n` lookups. -/
def nextUnprocessedPosFrom (m : ChunkmacMap) : Nat → Int → Option Int
  | 0, _ => none
  | n + 1, pos =>
    match m.mMacMap.get? (chunkfloor pos) with
    | none => some pos
    | some c =>
      if c.finished then nextUnprocessedPosFrom m n (chunkceil pos noLimit)
      else some (pos + c.offset.toNat)

variable (m : ChunkmacMap)

/-- `it == mMacMap.end() || it->second.notStarted()`. -/
def notStartedAt (npos : Int) : Bool :=
  match m.mMacMap.get? npos with
  | none => true
  | some c => c.notStarted

def expandUnprocessedPiece (pos npos fileSize maxReqSize : Int) : Option Int :=
  whileFuel
    (fun npos => npos < fileSize && npos - pos < maxReqSize && notStartedAt m npos)
    (fun npos => chunkceil npos fileSize) ((fileSize - npos).toNat + 1) npos

/-- `direction_t`. -/
inductive Direction where
  | put | get
deriving DecidableEq, Repr

/-- What `nextNPosForConnection` reads of the transfer and of its slot. -/
structure Transfer where
  type : Direction
  size : Int
  pos : Int
  progresscompleted : Int
  chunkmacs : ChunkmacMap
  /-- `slot->connections`. -/
  connections : Int

variable {t : Transfer}

def offsetToRaidLine (offset : Int) : Int := Int.tmod offset RAIDLINE

/-- The largest request of an upload. -/
def putMaxReqSize (t : Transfer) (npos uploadSpeed : Int) : Int :=
  let largeSize : Int := 32 * 1024 * 1024
  let maxsize := largeSize
  let maxsize := if npos + 2 * maxsize > t.size then maxsize.tdiv 2 else maxsize
  let maxsize := if npos + maxsize > t.size then maxsize.tdiv 2 else maxsize
  let maxsize := if npos + maxsize > t.size then maxsize.tdiv 2 else maxsize
  let speedsize := min maxsize ((uploadSpeed * 2).tdiv 3)
  let sizesize : Int := if t.size > largeSize then 8 * 1024 * 1024 else 0
  max sizesize speedsize

def MAX_REQ_SIZE_NEW_RAID : Int := 2 * 1024 * 1024

def UPPER_FILESIZE_LIMIT_FOR_SMALLER_CHUNKS : Int := 25 * 1024 * 1024

/-- The largest request of a download through the RAID proxy, before it is fitted to lines. -/
def newRaidReqSize (t : Transfer) : Int :=
  let maxReqsSize := MAX_REQ_SIZE_NEW_RAID * EFFECTIVE_RAIDPARTS * 4
  let maxReqSize := maxReqsSize.tdiv t.connections
  let maxReqSize := max maxReqSize (1 * 1024 * 1024 * EFFECTIVE_RAIDPARTS)
  let maxReqSize := min maxReqSize t.size
  if t.size ≤ UPPER_FILESIZE_LIMIT_FOR_SMALLER_CHUNKS then t.size.tdiv 4 else maxReqSize

/-- The loop that looks for a chunk that ends on a line, with `maxReqSize` and `nextChunk`. -/
def adjust (t : Transfer) (s : Int × Int) : Option (Int × Int) :=
  whileFuel
    (fun s => s.2 < t.size && offsetToRaidLine (s.2 - t.pos) != 0)
    (fun s =>
      let maxReqSize := chunkceil s.1 t.size
      (maxReqSize, chunkceil (t.pos + maxReqSize) t.size))
    (t.size.toNat + 2) s

/-- The largest request of a download through the RAID proxy. -/
def newRaidMaxReqSize (t : Transfer) : Option Int := do
  let maxReqSize := newRaidReqSize t
  let s ← adjust t (maxReqSize, chunkceil (t.pos + maxReqSize) t.size)
  some (s.1 + 1)

/-- The largest request of another download: a power of two, less one MiB. -/
def nonRaidMaxReqSize (t : Transfer) (maxRequestSize connectionCount : Int) : Option Int :=
  let maxReqSize := ((t.size - t.progresscompleted).tdiv connectionCount).tdiv 2
  let maxReqSize := if maxReqSize > maxRequestSize then maxRequestSize else maxReqSize
  if maxReqSize > 0x100000 then do
    let val ← whileFuel (fun val => val ≤ maxReqSize) (fun val => val * 2) 64 (0x100000 : Int)
    some (val.tdiv 2 - 0x100000)
  else some 0

def maxReqSizeFor (isNewRaid : Bool) (maxRequestSize connectionCount uploadSpeed : Int)
    (t : Transfer) (npos : Int) : Option Int :=
  match t.type with
  | .put => some (putMaxReqSize t npos uploadSpeed)
  | .get =>
    if isNewRaid then newRaidMaxReqSize t
    else nonRaidMaxReqSize t maxRequestSize connectionCount

def startPos (t : Transfer) : Option Int :=
  if t.size ≠ 0 then nextUnprocessedPosFrom t.chunkmacs (t.chunkmacs.size + 1) t.pos else some 0

/-- `TransferBufferManager::nextNPosForConnection` when `isRaid()` is false: the range, and the
transfer with its position. -/
def nextNPosForConnection (isNewRaid : Bool) (maxRequestSize connectionCount uploadSpeed : Int)
    (t : Transfer) : Option ((Int × Int) × Transfer) := do
  let pos ← startPos t
  let t := { t with pos := pos }
  let npos := if t.size ≠ 0 then chunkceil t.pos t.size else 0
  if npos > t.pos then
    if t.type = .get ∧ isNewRaid ∧ offsetToRaidLine t.pos ≠ 0 then some ((-1, -1), t)
    else
      let maxReqSize ← maxReqSizeFor isNewRaid maxRequestSize connectionCount uploadSpeed t npos
      let npos ← expandUnprocessedPiece t.chunkmacs t.pos npos t.size maxReqSize
      if isNewRaid ∧ npos < t.size ∧ offsetToRaidLine (npos - t.pos) ≠ 0 then some ((-1, -1), t)
      else some ((t.pos, npos), t)
  else some ((t.pos, npos), t)

/-! ## 2. The lattice with a limit -/

def IsStart (c : Int) : Prop := ∃ e, IsChunk c e

theorem chunkceil_eq_min (h : 0 ≤ limit) : chunkceil p limit = min (chunkceil p noLimit) limit := by
  rw [chunkceil_limit, clampTo]
  split <;> omega

theorem isStart_chunkceil (h : 0 ≤ p) : IsStart (chunkceil p noLimit) :=
  (chunk_spec p h).1.next

theorem chunkceil_le_of_isStart {c : Int} (hp : 0 ≤ p) (hc : IsStart c) (h : p < c) :
    chunkceil p noLimit ≤ c := by
  obtain ⟨e, he⟩ := hc
  obtain ⟨hs, hle, -⟩ := chunk_spec p hp
  exact hs.le_of_lt he (by omega)

theorem chunkceil_mono {a b : Int} (ha : 0 ≤ a) (h : a ≤ b) :
    chunkceil a noLimit ≤ chunkceil b noLimit := by
  have hb := (chunk_spec b (ha.trans h)).2.2
  exact chunkceil_le_of_isStart ha (isStart_chunkceil (ha.trans h)) (by omega)

theorem lt_chunkceil_limit (hp : 0 ≤ p) (h : p < limit) :
    p < chunkceil p limit ∧ chunkceil p limit ≤ limit := by
  have := (chunk_spec p hp).2.2
  rw [chunkceil_eq_min (by omega)]
  omega

theorem chunkceil_limit_of_le (hl : 0 ≤ limit) (h : limit ≤ p) : chunkceil p limit = limit := by
  have := (chunk_spec p (hl.trans h)).2.2
  rw [chunkceil_eq_min hl]
  omega

/-! ## 3. The loops end -/

/-- **The search ends** at a chunk that ends on a line, or at the end of the file. -/
theorem adjust_ends (hsize : 0 ≤ t.size) (hpos : 0 ≤ t.pos) (hr : 0 ≤ r) :
    ∃ r', adjust t (r, chunkceil (t.pos + r) t.size) = some (r', chunkceil (t.pos + r') t.size) ∧
      0 ≤ r' ∧ (t.size ≤ chunkceil (t.pos + r') t.size ∨
        offsetToRaidLine (chunkceil (t.pos + r') t.size - t.pos) = 0) := by
  -- behind the end of the file every chunk ends there
  have hround : ∀ s : Int × Int, (0 ≤ s.1 ∧ s.2 = chunkceil (t.pos + s.1) t.size) →
      (s.2 < t.size && offsetToRaidLine (s.2 - t.pos) != 0) = true →
      (0 ≤ chunkceil s.1 t.size ∧ s.1 < chunkceil s.1 t.size ∧ s.1 < t.size) := by
    rintro ⟨r, next⟩ ⟨hr, hnext⟩ hc
    simp only [and_eq_true, decide_eq_true_eq] at hc hr hnext ⊢
    have hlt : r < t.size := by
      by_contra hge
      rw [hnext, chunkceil_limit_of_le hsize (by omega)] at hc
      omega
    obtain ⟨h1, -⟩ := lt_chunkceil_limit hr hlt
    omega
  obtain ⟨s', hs'⟩ := whileFuel_ends
    (b := fun s => (chunkceil s.1 t.size, chunkceil (t.pos + chunkceil s.1 t.size) t.size))
    (fun s => 0 ≤ s.1 ∧ s.2 = chunkceil (t.pos + s.1) t.size) (fun s => (t.size - s.1).toNat)
    (fun s hs hc => by
      obtain ⟨h0, h1, h2⟩ := hround s hs hc
      refine ⟨⟨h0, rfl⟩, ?_⟩
      omega)
    (n := t.size.toNat + 2) (s := (r, chunkceil (t.pos + r) t.size)) ⟨hr, rfl⟩ (by
      omega)
  obtain ⟨⟨h0, hnext⟩, hexit⟩ := whileFuel_inv
    (fun s => 0 ≤ s.1 ∧ s.2 = chunkceil (t.pos + s.1) t.size)
    (fun s hs hc => ⟨(hround s hs hc).1, rfl⟩) ⟨hr, rfl⟩ hs'
  refine ⟨s'.1, ?_, h0, ?_⟩
  · rw [← hnext]
    exact hs'
  rw [← hnext]
  simp only [Bool.and_eq_false_iff, decide_eq_false_iff_not, bne_eq_false_iff_eq] at hexit
  omega

/-- What the loop of `expandUnprocessedPiece` keeps: the piece ends at a boundary, not behind the
first one above `pos + r`. -/
structure Expands (pos size r npos : Int) : Prop where
  lt : pos < npos
  le : npos ≤ size
  boundary : npos = size ∨ IsStart npos
  bound : npos ≤ chunkceil (pos + r) size

theorem Expands.first (hpos : 0 ≤ pos) (hlt : pos < size) (hr : 0 ≤ r) :
    Expands pos size r (chunkceil pos size) := by
  have hsize : 0 ≤ size := by omega
  obtain ⟨h1, h2⟩ := lt_chunkceil_limit hpos hlt
  refine ⟨h1, h2, ?_, ?_⟩
  · rw [chunkceil_eq_min hsize]
    rcases Int.le_total (chunkceil pos noLimit) size with h | h
    · exact .inr (by rw [min_eq_left h]; exact isStart_chunkceil hpos)
    · exact .inl (min_eq_right h)
  have := chunkceil_mono hpos (show pos ≤ pos + r by omega)
  rw [chunkceil_eq_min hsize, chunkceil_eq_min hsize]
  omega

theorem Expands.step {npos : Int} (h : Expands pos size r npos) (hpos : 0 ≤ pos) (hlt : npos < size)
    (hr : npos ≤ pos + r) : Expands pos size r (chunkceil npos size) := by
  have hlt' := h.lt
  have hnext : Expands npos size (pos + r - npos) (chunkceil npos size) :=
    Expands.first (by omega) hlt (by omega)
  have hbound := hnext.bound
  rw [show npos + (pos + r - npos) = pos + r by omega] at hbound
  exact ⟨by have := hnext.lt; omega, hnext.le, hnext.boundary, hbound⟩

/-- **Where a piece ends**: at the end of the file, at a chunk that was started, or at the first
boundary above `pos + r`. -/
theorem expand_spec (hpos : 0 ≤ pos) (hlt : pos < size) (hr : 0 ≤ r) :
    ∃ npos, expandUnprocessedPiece m pos (chunkceil pos size) size (r + 1) = some npos ∧
      pos < npos ∧ npos ≤ size ∧ (npos = size ∨ IsStart npos) ∧
      (npos = size ∨ notStartedAt m npos = false ∨ npos = chunkceil (pos + r) size) := by
  have hcond : ∀ npos : Int,
      (npos < size && npos - pos < r + 1 && notStartedAt m npos) = true →
        npos < size ∧ npos ≤ pos + r := fun npos hc => by
    simp only [and_eq_true, decide_eq_true_eq] at hc
    omega
  have hfirst := Expands.first hpos hlt hr
  obtain ⟨npos, hend⟩ := whileFuel_ends
    (Expands pos size r) (fun npos => (size - npos).toNat)
    (fun npos hs hc => by
      obtain ⟨h1, h2⟩ := hcond npos hc
      have hlt' := hs.lt
      obtain ⟨h3, -⟩ := lt_chunkceil_limit (by omega) h1
      exact ⟨hs.step hpos h1 h2, by omega⟩)
    (n := (size - chunkceil pos size).toNat + 1) hfirst (by omega)
  obtain ⟨hinv, hexit⟩ := whileFuel_inv (Expands pos size r)
    (fun npos hs hc => hs.step hpos (hcond npos hc).1 (hcond npos hc).2) hfirst hend
  have h1 := hinv.lt
  have h2 := hinv.le
  refine ⟨npos, hend, h1, h2, hinv.boundary, ?_⟩
  simp only [Bool.and_eq_false_iff, decide_eq_false_iff_not] at hexit
  rcases hexit with (hsize | hreq) | hstarted
  · exact .inl (by omega)
  · rcases hinv.boundary with hb | hb
    · exact .inl hb
    · -- a boundary above `pos + r` that is not above the first one
      have hle := chunkceil_le_of_isStart (p := pos + r) (by omega) hb (by omega)
      have hbound := hinv.bound
      rw [chunkceil_eq_min (by omega)] at hbound ⊢
      exact .inr (.inr (by omega))
  · exact .inr (.inl hstarted)

/-- How many chunks of the map start at or above a position. -/
def chunksFrom (p : Int) : Nat := (m.mMacMap.keys.filter fun k => p ≤ k).length

theorem chunksFrom_lt {m} {q : Int} (hp : p ∈ m.mMacMap.keys) (h : p < q) :
    chunksFrom m q < chunksFrom m p := by
  have hsub : (m.mMacMap.keys.filter fun k => q ≤ k) =
      ((m.mMacMap.keys.filter fun k => p ≤ k).filter fun k => q ≤ k) := by
    rw [List.filter_filter]
    refine List.filter_congr fun k _ => ?_
    rw [← decide_and]
    exact decide_eq_decide.2 (by omega)
  unfold chunksFrom
  rw [hsub]
  refine List.length_filter_lt_length_iff_exists.2 ⟨p, List.mem_filter.2 ⟨hp, by simp⟩, ?_⟩
  simpa using h

/-- The finished chunks are skipped: the position ends at or above where it was. -/
theorem nextUnprocessedPosFrom_ends {n : Nat} (hpos : 0 ≤ pos)
    (hn : chunksFrom m (chunkfloor pos) < n) :
    ∃ p, nextUnprocessedPosFrom m n pos = some p ∧ pos ≤ p := by
  induction n generalizing pos with
  | zero => cases hn
  | succ n ih =>
    obtain ⟨hchunk, hfloor, hceil⟩ := chunk_spec pos hpos
    rw [nextUnprocessedPosFrom]
    split
    · exact ⟨pos, rfl, le_rfl⟩
    rename_i c hc
    split
    · have hnext : chunkfloor (chunkceil pos noLimit) = chunkceil pos noLimit := by
        obtain ⟨e, he⟩ := hchunk.next
        exact chunkfloor_of_mem he le_rfl he.lt
      have hkey : chunkfloor pos ∈ m.mMacMap.keys := mem_keys.2 (by rw [hc]; rfl)
      have hless := chunksFrom_lt hkey (show chunkfloor pos < chunkceil pos noLimit by omega)
      obtain ⟨p, hp, hle⟩ := ih (show 0 ≤ chunkceil pos noLimit by omega) (by
        rw [hnext]
        omega)
      exact ⟨p, hp, by omega⟩
    · exact ⟨_, rfl, by omega⟩

/-! ## 4. The range -/

theorem startPos_ends (hpos : 0 ≤ t.pos) : ∃ p, startPos t = some p ∧ 0 ≤ p := by
  unfold startPos
  split
  · have hfuel : chunksFrom t.chunkmacs (chunkfloor t.pos) < t.chunkmacs.size + 1 := by
      have := List.length_filter_le (fun k => decide (chunkfloor t.pos ≤ k)) t.chunkmacs.mMacMap.keys
      rw [length_keys] at this
      exact Nat.lt_succ_of_le this
    obtain ⟨p, hp, hle⟩ := nextUnprocessedPosFrom_ends t.chunkmacs hpos hfuel
    exact ⟨p, hp, hpos.trans hle⟩
  · exact ⟨0, rfl, le_rfl⟩

/-- A range as the RAID proxy needs it: no error, and up to the end of the file or to a chunk
boundary a number of whole lines away. -/
def Lined (size : Int) (r : Int × Int) : Prop :=
  r ≠ (-1, -1) ∧ (r.2 = size ∨ IsStart r.2 ∧ (RAIDLINE : Int) ∣ r.2 - r.1)

theorem offsetToRaidLine_eq_zero {x : Int} : offsetToRaidLine x = 0 ↔ (RAIDLINE : Int) ∣ x :=
  (Int.dvd_iff_tmod_eq_zero).symm

theorem newRaidReqSize_nonneg (hsize : 0 ≤ t.size) : 0 ≤ newRaidReqSize t := by
  unfold newRaidReqSize
  simp only
  split
  · exact Int.tdiv_nonneg hsize (by decide)
  · omega

/-- **From a line on**, the piece that is found ends on a line or at the end of the file. -/
theorem newRaid_piece (hpos : 0 ≤ t.pos) (hlt : t.pos < t.size) (hline : (RAIDLINE : Int) ∣ t.pos)
    (hstarted : ∀ c, notStartedAt t.chunkmacs c = false → (RAIDLINE : Int) ∣ c) :
    ∃ r npos, newRaidMaxReqSize t = some (r + 1) ∧
      expandUnprocessedPiece t.chunkmacs t.pos (chunkceil t.pos t.size) t.size (r + 1) = some npos ∧
      (npos = t.size ∨ npos < t.size ∧ IsStart npos ∧ (RAIDLINE : Int) ∣ npos - t.pos) := by
  have hsize : 0 ≤ t.size := by omega
  obtain ⟨r, hadjust, hr, hfit⟩ := adjust_ends hsize hpos (newRaidReqSize_nonneg hsize)
  obtain ⟨npos, hexpand, -, hle, hboundary, hstop⟩ := expand_spec t.chunkmacs hpos hlt hr
  refine ⟨r, npos, by rw [newRaidMaxReqSize, hadjust]; rfl, hexpand, ?_⟩
  rcases hboundary with hend | hstart
  · exact .inl hend
  rcases hstop with hend | hst | hfound
  · exact .inl hend
  · by_cases hend : npos = t.size
    · exact .inl hend
    · exact .inr ⟨by omega, hstart, Int.dvd_sub (hstarted npos hst) hline⟩
  rw [← hfound] at hfit
  rcases hfit with hsz | hfit
  · exact .inl (by omega)
  by_cases hend : npos = t.size
  · exact .inl hend
  · exact .inr ⟨by omega, hstart, offsetToRaidLine_eq_zero.1 hfit⟩

/-- **The next range of a download through the RAID proxy.** The function returns, and when started
chunks start on lines its range is one of whole lines exactly when nothing is left to be downloaded
from the position behind the finished chunks on, or that position is on a line. -/
theorem nextNPosForConnection_newRaid (t : Transfer)
    (maxRequestSize connectionCount uploadSpeed : Int) (hget : t.type = .get)
    (hsize : 0 ≤ t.size) (hpos : 0 ≤ t.pos)
    (hstarted : ∀ c, notStartedAt t.chunkmacs c = false → (RAIDLINE : Int) ∣ c) :
    ∃ p r t', startPos t = some p ∧
      nextNPosForConnection true maxRequestSize connectionCount uploadSpeed t = some (r, t') ∧
      (Lined t.size r ↔ t.size ≤ p ∨ (RAIDLINE : Int) ∣ p) := by
  obtain ⟨p, hp, hp0⟩ := startPos_ends hpos
  unfold nextNPosForConnection
  rw [hp]
  simp only [bind_eq_bind, bind_some]
  by_cases hlt : p < t.size
  · have hne : t.size ≠ 0 := by omega
    obtain ⟨hceil, -⟩ := lt_chunkceil_limit hp0 hlt
    rw [if_pos hne, if_pos hceil]
    by_cases hline : (RAIDLINE : Int) ∣ p
    · obtain ⟨r, npos, hreq, hexpand, hnpos⟩ :=
        newRaid_piece (t := { t with pos := p }) hp0 hlt hline hstarted
      have hgood : Lined t.size (p, npos) := by
        refine ⟨fun h => ?_, ?_⟩
        · have := congrArg Prod.fst h
          omega
        rcases hnpos with h | ⟨-, h⟩
        · exact .inl h
        · exact .inr h
      have hcheck : ¬(True ∧ npos < t.size ∧ offsetToRaidLine (npos - p) ≠ 0) := by
        rintro ⟨-, hlt', hoff⟩
        rcases hnpos with h | ⟨-, -, h⟩
        · exact absurd h (by simp only; omega)
        · exact hoff (offsetToRaidLine_eq_zero.2 h)
      refine ⟨p, (p, npos), { t with pos := p }, rfl, ?_, iff_of_true hgood (.inr hline)⟩
      rw [if_neg fun h => h.2.2 (offsetToRaidLine_eq_zero.2 hline)]
      have hmax : maxReqSizeFor true maxRequestSize connectionCount uploadSpeed
          { t with pos := p } (chunkceil p t.size) = some (r + 1) := by
        rw [← hreq, maxReqSizeFor]
        simp only [hget, if_true]
      rw [hmax, bind_some, hexpand, bind_some, if_neg hcheck]
    · refine ⟨p, (-1, -1), { t with pos := p }, rfl, ?_, iff_of_false (fun h => h.1 rfl) ?_⟩
      · rw [if_pos ⟨hget, trivial, fun h => hline (offsetToRaidLine_eq_zero.1 h)⟩]
      · rintro (h | h)
        · omega
        · exact hline h
  have hnpos : (if t.size ≠ 0 then chunkceil p t.size else 0) = t.size := by
    split
    · exact chunkceil_limit_of_le hsize (by omega)
    · omega
  rw [hnpos, if_neg (by omega)]
  refine ⟨p, (p, t.size), { t with pos := p }, rfl, rfl, iff_of_true ⟨fun h => ?_, .inl rfl⟩ ?_⟩
  · have := congrArg Prod.fst h
    omega
  · exact .inl (by omega)

def freshDownload : Transfer where
  type := .get
  size := 41943040
  pos := 0
  progresscompleted := 0
  chunkmacs := {}
  connections := 4

theorem nextNPosForConnection_newRaid_fresh :
    ∃ r t', nextNPosForConnection true 0 4 0 freshDownload = some (r, t') ∧
      Lined freshDownload.size r := by
  obtain ⟨p, r, t', hp, hr, hiff⟩ := nextNPosForConnection_newRaid freshDownload 0 4 0 rfl
    (by decide) (by decide) nofun
  have hp0 : p = 0 :=
    some.inj (hp.symm.trans (show startPos freshDownload = some 0 by decide))
  exact ⟨r, t', hr, hiff.2 (.inr (hp0 ▸ Int.dvd_zero _))⟩

/-- The same download with its first chunk finished: the next one does not start on a line. -/
def resumedDownload : Transfer :=
  { freshDownload with
    chunkmacs := { mMacMap := OrdMap.empty.insert 0 { finished := true } } }

theorem nextNPosForConnection_unlined :
    (∀ c, notStartedAt resumedDownload.chunkmacs c = false → (RAIDLINE : Int) ∣ c) ∧
      IsStart resumedDownload.pos ∧ (RAIDLINE : Int) ∣ resumedDownload.pos ∧
      nextNPosForConnection true 0 4 0 resumedDownload =
        some ((-1, -1), { resumedDownload with pos := 131072 }) := by
  refine ⟨fun c hc => ?_, ⟨131072, .inl ⟨rfl, rfl⟩⟩, Int.dvd_zero _, rfl⟩
  by_cases h0 : 0 = c
  · exact h0 ▸ Int.dvd_zero _
  have hnone : resumedDownload.chunkmacs.mMacMap.get? c = none := by
    show (empty.insert (0 : Int) _).get? c = none
    rw [get?_insert, if_neg h0]
    rfl
  rw [notStartedAt, hnone] at hc
  exact nomatch hc

end MegaSdk.Raid
