/-
  File:      MegaSdk/Chunk/Fold.lean
  Subject:   FOLDING THE FRONT OF THE CHUNK MAP DOES NOT CHANGE THE FILE MAC.

  `updateMacsmacProgress` replaces the leading entries of the map by one record that holds the MAC
  calculation up to there. The map is compared, over whole runs, with a second one that receives
  the same chunk completions and is never folded.

  * `Tracked` -- the entries before `progresscontiguous` are the finished chunks of the lattice,
    without a gap after the folded record;
  * `Folded E m plain` -- `m` is `plain` with a (possibly empty) front part folded into one record;
  * `MacStep` -- completions, progress updates, folding and a resume from the state cache;
  * `mac_step_inv` -- every step keeps both, and with them folding terminates (`fold_ends`) and
    the file MACs agree (`Folded.macsmac_eq`).
-/
import MegaSdk.Chunk.MacMap

namespace MegaSdk

open Base List OrdMap Block

namespace ChunkmacMap

/-- The entries up to `progresscontiguous` are finished chunks of the lattice, and none of them is
    missing after the folded record; later entries only have to be at chunk starts. -/
structure Tracked (m : ChunkmacMap) : Prop where
  lattice : ∀ x ∈ m.mMacMap.entries, ∃ e, IsChunk x.1 e
  int64 : ∀ x ∈ m.mMacMap.entries, x.1 < 2 ^ 63
  finished : ∀ x ∈ m.mMacMap.entries, x.1 < m.progresscontiguous → x.2.finished = true
  contiguous : ∀ c e, IsChunk c e → m.macsmacSoFarPos < c → c < m.progresscontiguous →
    ∃ r, (c, r) ∈ m.mMacMap.entries

/-- No record carries the mark of the folded record. -/
def Unmarked (l : List (Int × ChunkMAC)) : Prop := ∀ x ∈ l, x.2.isMacsmacSoFar = false

/-- A map whose entries are finished chunks contiguous up to `progresscontiguous`, plus arbitrary
    later entries, and of which nothing has been folded yet. -/
structure Plain (m : ChunkmacMap) : Prop extends Tracked m where
  unmarked : Unmarked m.mMacMap.entries
  nothing : m.macsmacSoFarPos = -1

section Cipher

variable (E : Block → Block)

def macOver (l : List (Int × ChunkMAC)) (mac : Block) : Block :=
  l.foldl (fun mac x => macsmacRound E mac x.2) mac

/-- The record that stands for the entries `pre`. -/
def foldedRecord (pre : List (Int × ChunkMAC)) : ChunkMAC :=
  { mac := macOver E pre Block.zero, offset := unsignedMinusOne, finished := true }

/-- `m` is `plain` with a front part folded: either nothing is, or the first record of `m` stands
    for the entries of `plain` up to its key. -/
def Folded (m plain : ChunkmacMap) : Prop :=
  Unmarked plain.mMacMap.entries ∧
    ((m.macsmacSoFarPos = -1 ∧ m.mMacMap.entries = plain.mMacMap.entries) ∨
      ∃ pre post, plain.mMacMap.entries = pre ++ post ∧
        (∀ x ∈ pre, x.1 ≤ m.macsmacSoFarPos) ∧ 0 ≤ m.macsmacSoFarPos ∧
        m.mMacMap.entries = (m.macsmacSoFarPos, foldedRecord E pre) :: post)

/-- One step of the transfer, on its map and on the map that is never folded. Completed chunks lie
    at chunk starts after the folded record, and a chunk of the contiguous part does not become
    unfinished again. -/
inductive MacStep : ChunkmacMap × ChunkmacMap → ChunkmacMap × ChunkmacMap → Prop
  | upload {m plain : ChunkmacMap} (macs : OrdMap Int ChunkMAC)
      (hk : ∀ x ∈ macs.entries, m.macsmacSoFarPos < x.1 ∧ (∃ e, IsChunk x.1 e) ∧ x.1 < 2 ^ 63)
      (ho : ∀ x ∈ macs.entries, x.2.offset ≠ unsignedMinusOne) :
      MacStep (m, plain) (m.finishedUploadChunks macs, plain.finishedUploadChunks macs)
  | download {m plain : ChunkmacMap} (piece : ChunkmacMap)
      (hk : ∀ x ∈ piece.mMacMap.entries,
        m.macsmacSoFarPos < x.1 ∧ (∃ e, IsChunk x.1 e) ∧ x.1 < 2 ^ 63)
      (ho : ∀ x ∈ piece.mMacMap.entries, x.2.isMacsmacSoFar = false ∧
        (x.2.finished = true ∨ m.progresscontiguous ≤ x.1)) :
      MacStep (m, plain) (piece.copyEntriesTo m, piece.copyEntriesTo plain)
  | contiguous {m plain m' : ChunkmacMap} (fileSize : Int) (fuel : Nat)
      (h : m.updateContiguousProgress fileSize fuel = some m') : MacStep (m, plain) (m', plain)
  | progress {m plain : ChunkmacMap} (fileSize : Int) :
      MacStep (m, plain) ((m.calcprogress fileSize).2, plain)
  | fold {m plain m' : ChunkmacMap} (fuel : Nat) (h : m.updateMacsmacProgress E fuel = some m') :
      MacStep (m, plain) (m', plain)
  | resume {m plain m' : ChunkmacMap} (rest rest' : List UInt8) (hsize : m.size < 65536)
      (h : unserialize {} (m.serialize ++ rest) = some (m', rest')) : MacStep (m, plain) (m', plain)

structure MacInv (m plain : ChunkmacMap) : Prop where
  tracked : Tracked m
  folded : Folded E m plain

variable {k : Int} {c next r : ChunkMAC} {rest : List (Int × ChunkMAC)} {m' : ChunkmacMap}

/-! ## 1. The file MAC of a folded map -/

theorem macsmac_eq_macOver (m : ChunkmacMap) :
    m.macsmac E = metaMac (macOver E m.mMacMap.entries Block.zero) := rfl

theorem isMacsmacSoFar_foldedRecord (pre : List (Int × ChunkMAC)) :
    (foldedRecord E pre).isMacsmacSoFar = true := rfl

variable {E} {m plain : ChunkmacMap}

/-- **A folded map has the file MAC of the plain one.** -/
theorem Folded.macsmac_eq (h : Folded E m plain) : m.macsmac E = plain.macsmac E := by
  obtain ⟨_, ⟨_, heq⟩ | ⟨pre, post, hp, _, _, hm⟩⟩ := h
  · rw [macsmac_eq_macOver, macsmac_eq_macOver, heq]
  rw [macsmac_eq_macOver, macsmac_eq_macOver, hp, hm]
  have hfirst : macsmacRound E zero (foldedRecord E pre) = macOver E pre zero := by
    rfl
  unfold macOver
  rw [foldl_append]
  rfl

theorem finishedAt_iff {pos : Int} :
    m.finishedAt pos = true ↔ ∃ r, (pos, r) ∈ m.mMacMap.entries ∧ r.finished = true := by
  unfold finishedAt
  split
  · rename_i c hc
    refine ⟨fun h => ⟨c, get?_eq_some.1 hc, h⟩, fun ⟨r, hr, hf⟩ => ?_⟩
    have hrc : some c = some r := hc ▸ get?_eq_some.2 hr
    cases hrc
    exact hf
  rename_i hn
  refine ⟨fun h => (Bool.false_ne_true h).elim, fun ⟨r, hr, _⟩ => ?_⟩
  have hsome := get?_eq_some.2 hr
  rw [hn] at hsome
  cases hsome

/-! ## 2. Completed chunks -/

theorem Tracked.setEntry (h : Tracked m) (hk : ∃ e, IsChunk k e) (hk63 : k < 2 ^ 63)
    (hr : r.finished = true ∨ m.progresscontiguous ≤ k) :
    Tracked (m.setEntry k r) where
  lattice := by
    intro x hx
    rcases mem_entries_insert.1 hx with rfl | ⟨hx, _⟩
    · exact hk
    · exact h.lattice x hx
  int64 := by
    intro x hx
    rcases mem_entries_insert.1 hx with rfl | ⟨hx, _⟩
    · exact hk63
    · exact h.int64 x hx
  finished := by
    intro x hx hlt
    rcases mem_entries_insert.1 hx with rfl | ⟨hx, _⟩
    · exact hr.resolve_right hlt.not_ge
    · exact h.finished x hx hlt
  contiguous := by
    intro c e hc h1 h2
    obtain ⟨r', hr'⟩ := h.contiguous c e hc h1 h2
    by_cases hck : c = k
    · exact ⟨r, mem_entries_insert.2 (.inl (by rw [hck]))⟩
    · exact ⟨r', mem_entries_insert.2 (.inr ⟨hr', hck⟩)⟩

theorem Folded.setEntry (h : Folded E m plain) (hk : m.macsmacSoFarPos < k)
    (hr : r.isMacsmacSoFar = false) : Folded E (m.setEntry k r) (plain.setEntry k r) := by
  obtain ⟨hu, hcase⟩ := h
  refine ⟨fun x hx => ?_, ?_⟩
  · rcases mem_entries_insert.1 hx with rfl | ⟨hx, _⟩
    · exact hr
    · exact hu x hx
  rcases hcase with ⟨h1, heq⟩ | ⟨pre, post, hp, hpre, h0, hm⟩
  · left
    refine ⟨h1, ?_⟩
    show insertL k r m.mMacMap.entries = insertL k r plain.mMacMap.entries
    rw [heq]
  right
  refine ⟨pre, insertL k r post, ?_, hpre, h0, ?_⟩
  · show insertL k r plain.mMacMap.entries = _
    rw [hp]
    exact insertL_append fun x hx => (hpre x hx).trans_lt hk
  show insertL k r m.mMacMap.entries = _
  rw [hm]
  -- the folded record alone is the front part here
  have hfront : ∀ x ∈ [(m.macsmacSoFarPos, foldedRecord E pre)], x.1 < k := fun x hx => by
    rwa [mem_singleton.1 hx]
  exact insertL_append hfront

theorem MacInv.foldl_setEntry (f : ChunkMAC → ChunkMAC) : ∀ (l : List (Int × ChunkMAC))
    (m plain : ChunkmacMap), MacInv E m plain →
    (∀ x ∈ l, m.macsmacSoFarPos < x.1 ∧ (∃ e, IsChunk x.1 e) ∧ x.1 < 2 ^ 63) →
    (∀ x ∈ l, (f x.2).isMacsmacSoFar = false ∧
      ((f x.2).finished = true ∨ m.progresscontiguous ≤ x.1)) →
    MacInv E (l.foldl (fun m x => m.setEntry x.1 (f x.2)) m)
      (l.foldl (fun m x => m.setEntry x.1 (f x.2)) plain)
  | [], _, _, h, _, _ => h
  | x :: l, m, plain, h, hk, hr => by
      obtain ⟨h1, h2, h3⟩ := hk x mem_cons_self
      obtain ⟨hm, hf⟩ := hr x mem_cons_self
      have hstep : MacInv E (m.setEntry x.1 (f x.2)) (plain.setEntry x.1 (f x.2)) :=
        ⟨h.tracked.setEntry h2 h3 hf, h.folded.setEntry h1 hm⟩
      exact MacInv.foldl_setEntry f l _ _ hstep
        (fun y hy => hk y (mem_cons_of_mem _ hy))
        (fun y hy => hr y (mem_cons_of_mem _ hy))

/-! ## 3. Progress -/

theorem Tracked.setProgressContiguous (h : Tracked m) {fileSize : Int}
    (hf : m.finishedAt m.progresscontiguous = true) :
    Tracked (m.setProgressContiguous (chunkceil m.progresscontiguous fileSize)) := by
  obtain ⟨r, hr, hfin⟩ := finishedAt_iff.1 hf
  obtain ⟨e, he⟩ := h.lattice _ hr
  have hceil : chunkceil m.progresscontiguous fileSize ≤ e := by
    rw [chunkceil_of_mem he le_rfl he.lt]
    exact clampTo_le _ _
  refine ⟨h.lattice, h.int64, fun x hx hlt => ?_, fun c e' hc h1 h2 => ?_⟩
  · obtain ⟨ex, hex⟩ := h.lattice x hx
    have hlt' : x.1 < e := lt_of_lt_of_le hlt hceil
    by_cases hxp : x.1 < m.progresscontiguous
    · exact h.finished x hx hxp
    have hxe : m.progresscontiguous = x.1 :=
      (he.unique hex (not_lt.1 hxp) hlt' le_rfl hex.lt).1
    have hsame : x.2 = r := value_unique (hx) (hxe ▸ hr)
    rwa [hsame]
  · by_cases hcp : c < m.progresscontiguous
    · exact h.contiguous c e' hc h1 hcp
    · have hce : m.progresscontiguous = c :=
        (he.unique hc (not_lt.1 hcp) (lt_of_lt_of_le h2 hceil) le_rfl hc.lt).1
      exact ⟨r, hce ▸ hr⟩

/-- What the loop of `calcprogress` knows after the entries `seen`. -/
structure CalcInv (soFar : Int) (seen : List (Int × ChunkMAC)) (p : Progress) : Prop where
  position : p.macsmacSoFarPos = soFar
  finished : ∀ x ∈ seen, x.1 < p.chunkpos → x.2.finished = true
  contiguous : ∀ c e, IsChunk c e → soFar < c → c < p.chunkpos → ∃ r, (c, r) ∈ seen

theorem chunkceil_le {e : Int} (h : IsChunk k e) (limit : Int) : chunkceil k limit ≤ e := by
  rw [chunkceil_of_mem h le_rfl h.lt]
  exact clampTo_le _ _

/-- One round of `calcprogress` over an unmarked entry that is after all seen ones. -/
theorem CalcInv.round {soFar e : Int} {seen : List (Int × ChunkMAC)} {p : Progress}
    {x : Int × ChunkMAC} (h : CalcInv soFar seen p) (size : Int)
    (hmark : x.2.isMacsmacSoFar = false) (he : IsChunk x.1 e) (hp : p.chunkpos ≤ x.1)
    (hseen : ∀ y ∈ seen, y.1 < x.1) :
    CalcInv soFar (seen ++ [x]) (calcprogressRound size p x) ∧
      (calcprogressRound size p x).chunkpos ≤ e := by
  have hlast : ∀ y ∈ seen ++ [x], y ∈ seen ∨ y = x := fun y hy =>
    (mem_append.1 hy).imp id mem_singleton.1
  by_cases hadv : p.chunkpos = x.1 ∧ x.2.finished = true
  · obtain ⟨hpe, hfin⟩ := hadv
    have hval : calcprogressRound size p x =
        { p with chunkpos := chunkceil x.1 size, progresscompleted := chunkceil x.1 size } := by
      simp [calcprogressRound, hmark, hpe, hfin]
    have hceil := chunkceil_le he size
    rw [hval]
    refine ⟨⟨h.position, fun y hy _ => ?_, fun c e' hc h1 h2 => ?_⟩, hceil⟩
    · rcases hlast y hy with hy | rfl
      · exact h.finished y hy (hpe ▸ hseen y hy)
      · exact hfin
    by_cases hcp : c < p.chunkpos
    · obtain ⟨r, hr⟩ := h.contiguous c e' hc h1 hcp
      exact ⟨r, mem_append_left _ hr⟩
    have hce : x.1 = c := (he.unique hc (by omega) (lt_of_lt_of_le h2 hceil) le_rfl hc.lt).1
    refine ⟨x.2, mem_append_right _ ?_⟩
    rw [← hce]
    exact mem_singleton_self _
  have hval : (calcprogressRound size p x).chunkpos = p.chunkpos ∧
      (calcprogressRound size p x).macsmacSoFarPos = p.macsmacSoFarPos := by
    have hcond : ¬ ((p.chunkpos == x.1 && x.2.finished) = true) := by simpa using hadv
    unfold calcprogressRound
    rw [if_neg (by rw [hmark]; decide), if_neg hcond]
    split <;> exact ⟨rfl, rfl⟩
  obtain ⟨hpos, hsf⟩ := hval
  refine ⟨⟨hsf.trans h.position, fun y hy hlt => ?_, fun c e' hc h1 h2 => ?_⟩, ?_⟩
  · rw [hpos] at hlt
    rcases hlast y hy with hy | rfl
    · exact h.finished y hy hlt
    · exact absurd hlt hp.not_gt
  · rw [hpos] at h2
    obtain ⟨r, hr⟩ := h.contiguous c e' hc h1 h2
    exact ⟨r, mem_append_left _ hr⟩
  · rw [hpos]
    exact hp.trans he.lt.le

/-- The loop of `calcprogress` over unmarked entries. The contiguous part never reaches past the
    next entry, because entries are at chunk starts. -/
theorem CalcInv.loop (size soFar : Int) : ∀ (l seen : List (Int × ChunkMAC)) (p : Progress),
    Unmarked l → (seen ++ l).Pairwise (fun a b => a.1 < b.1) →
    (∀ x ∈ l, ∃ e, IsChunk x.1 e) → (∀ x ∈ l, p.chunkpos ≤ x.1) → CalcInv soFar seen p →
    CalcInv soFar (seen ++ l) (l.foldl (calcprogressRound size) p)
  | [], seen, p, _, _, _, _, h => by simpa using h
  | x :: l, seen, p, hu, hs, hl, hp, h => by
      obtain ⟨e, he⟩ := hl x mem_cons_self
      have hseen : ∀ y ∈ seen, y.1 < x.1 := fun y hy =>
        (pairwise_append.1 hs).2.2 y hy x mem_cons_self
      have hafter : ∀ y ∈ l, x.1 < y.1 :=
        (pairwise_cons.1 (pairwise_append.1 hs).2.1).1
      obtain ⟨hround, hpos⟩ :=
        h.round size (hu x mem_cons_self) he (hp x mem_cons_self) hseen
      have hnext : ∀ y ∈ l, (calcprogressRound size p x).chunkpos ≤ y.1 := fun y hy => by
        obtain ⟨e', he'⟩ := hl y (mem_cons_of_mem _ hy)
        exact hpos.trans (he.le_of_lt he' (hafter y hy))
      have hrest := CalcInv.loop size soFar l (seen ++ [x]) _
        (fun y hy => hu y (mem_cons_of_mem _ hy)) (by rwa [append_assoc])
        (fun y hy => hl y (mem_cons_of_mem _ hy)) hnext hround
      rwa [append_assoc] at hrest

/-- `calcprogress` leaves a map of a run tracked and folded as it was. -/
theorem MacInv.calcprogress (h : MacInv E m plain) (size : Int) :
    MacInv E (m.calcprogress size).2 plain := by
  obtain ⟨ht, hu, hcase⟩ := h
  have hnn : ∀ x ∈ m.mMacMap.entries, 0 ≤ x.1 := fun x hx => (ht.lattice x hx).choose_spec.nonneg
  -- the loop's result, whether or not the first record is a folded one
  have hcalc : CalcInv m.macsmacSoFarPos m.mMacMap.entries
      (m.mMacMap.entries.foldl (calcprogressRound size)
        { macsmacSoFarPos := m.macsmacSoFarPos }) := by
    rcases hcase with ⟨-, heq⟩ | ⟨pre, post, hp, -, -, hm⟩
    · refine CalcInv.loop size m.macsmacSoFarPos m.mMacMap.entries [] _ (heq ▸ hu)
        m.mMacMap.sorted ht.lattice hnn ⟨rfl, nofun, ?_⟩
      intro c e hc _ h2
      exact absurd h2 hc.nonneg.not_gt
    have hfirst : (m.macsmacSoFarPos, foldedRecord E pre) ∈ m.mMacMap.entries :=
      hm ▸ mem_cons_self
    obtain ⟨e, he⟩ := ht.lattice _ hfirst
    have hsorted := m.mMacMap.sorted
    rw [hm] at hsorted
    have hpost : ∀ y ∈ post, y ∈ m.mMacMap.entries := fun y => hm ▸ mem_cons_of_mem _
    have hceil := chunkceil_le he size
    rw [hm]
    refine CalcInv.loop size m.macsmacSoFarPos post [(m.macsmacSoFarPos, foldedRecord E pre)] _
      (fun x hx => hu x (hp ▸ mem_append_right _ hx)) hsorted
      (fun x hx => ht.lattice x (hpost x hx)) (fun y hy => ?_) ⟨rfl, fun x hx _ => ?_, ?_⟩
    · obtain ⟨e', he'⟩ := ht.lattice y (hpost y hy)
      exact hceil.trans (he.le_of_lt he' ((pairwise_cons.1 hsorted).1 y hy))
    · rw [mem_singleton.1 hx]
      rfl
    intro c e' hc h1 h2
    have := (he.unique hc h1.le (lt_of_lt_of_le h2 hceil) le_rfl hc.lt).1
    exact absurd this h1.ne
  have hpos : (m.calcprogress size).2.macsmacSoFarPos = m.macsmacSoFarPos := hcalc.position
  refine ⟨⟨ht.lattice, ht.int64, hcalc.finished, ?_⟩, hu, ?_⟩
  · intro c e hc h1 h2
    exact hcalc.contiguous c e hc (hpos ▸ h1) h2
  · rwa [hpos]

/-! ## 4. Folding -/

theorem foldedRecord_append {pre : List (Int × ChunkMAC)} (hf : next.finished = true)
    (hu : next.isMacsmacSoFar = false) :
    foldedRecord E (pre ++ [(k, next)]) =
      { next with
        mac := E (Block.xor (foldedRecord E pre).mac next.mac)
        offset := unsignedMinusOne } := by
  have hmac : macOver E (pre ++ [(k, next)]) zero =
      E (xor (macOver E pre zero) next.mac) := by
    simp [macOver, macsmacRound, hu]
  simp [foldedRecord, hmac, hf]

theorem foldFront_of_marked {k' : Int} (hm : m.mMacMap.entries = (k, c) :: (k', next) :: rest)
    (hc : c.isMacsmacSoFar = true) :
    (foldFront E m).mMacMap.entries =
        (k', { next with mac := E (Block.xor c.mac next.mac), offset := unsignedMinusOne }) :: rest ∧
      (foldFront E m).macsmacSoFarPos = k' ∧
      (foldFront E m).progresscontiguous = m.progresscontiguous := by
  have hlt : k < k' := by
    have hs := m.mMacMap.sorted
    rw [hm] at hs
    exact (pairwise_cons.1 hs).1 _ mem_cons_self
  have hins : ∀ r : ChunkMAC, insertL k' r m.mMacMap.entries =
      (k, c) :: (k', r) :: rest := by
    intro r
    rw [hm]
    simp [insertL, hlt.not_gt, hlt.ne]
  simp only [foldFront, hm, hc, if_true]
  refine ⟨?_, trivial, trivial⟩
  rw [entries_eraseFirst, entries_insert, hins]
  rfl

theorem foldFront_of_first (hm : m.mMacMap.entries = (0, c) :: rest) (hc : c.isMacsmacSoFar = false)
    (hf : c.finished = true) :
    (foldFront E m).mMacMap.entries =
        (0, { c with mac := E (Block.xor Block.zero c.mac), offset := unsignedMinusOne }) :: rest ∧
      (foldFront E m).macsmacSoFarPos = 0 ∧
      (foldFront E m).progresscontiguous = m.progresscontiguous := by
  have hat : m.finishedAt 0 = true := finishedAt_iff.2 ⟨c, hm ▸ mem_cons_self, hf⟩
  have hins : ∀ r : ChunkMAC, insertL 0 r m.mMacMap.entries = (0, r) :: rest := by
    intro r
    rw [hm]
    simp [insertL]
  simp only [foldFront, hm, hc, hat]
  exact ⟨hins _, rfl, rfl⟩

/-- What folding keeps of `Tracked`: the new front record is at a chunk start of the contiguous
    part and finished, and the later entries are old ones. -/
theorem Tracked.of_fold (h : Tracked m) (hm' : m'.mMacMap.entries = (k, r) :: rest)
    (hpos : m'.macsmacSoFarPos = k) (hpc : m'.progresscontiguous = m.progresscontiguous)
    (hk : (k, next) ∈ m.mMacMap.entries) (hr : r.finished = true)
    (hrest : ∀ x ∈ rest, x ∈ m.mMacMap.entries) (hle : m.macsmacSoFarPos ≤ k)
    (hkeep : ∀ x ∈ m.mMacMap.entries, k < x.1 → x ∈ rest) : Tracked m' := by
  have hmem : ∀ x ∈ m'.mMacMap.entries, x = (k, r) ∨ x ∈ rest := fun x hx => by
    rw [hm'] at hx
    exact mem_cons.1 hx
  refine ⟨fun x hx => ?_, fun x hx => ?_, fun x hx hlt => ?_, fun c e hc h1 h2 => ?_⟩
  · rcases hmem x hx with rfl | hx
    · exact h.lattice (k, next) hk
    · exact h.lattice x (hrest x hx)
  · rcases hmem x hx with rfl | hx
    · exact h.int64 (k, next) hk
    · exact h.int64 x (hrest x hx)
  · rcases hmem x hx with rfl | hx
    · exact hr
    · exact h.finished x (hrest x hx) (hpc ▸ hlt)
  rw [hpos] at h1
  obtain ⟨r', hr'⟩ := h.contiguous c e hc (hle.trans_lt h1) (hpc ▸ h2)
  exact ⟨r', hm' ▸ mem_cons_of_mem _ (hkeep _ hr' h1)⟩

theorem canFold_iff : canFold m = true ↔
    m.macsmacSoFarPos + 5242880 < m.progresscontiguous ∧ 101 < m.mMacMap.entries.length := by
  simp [canFold, size, OrdMap.size]

def FoldedFirst (m : ChunkmacMap) : Prop :=
  (m.macsmacSoFarPos = -1 ∧ Unmarked m.mMacMap.entries) ∨
    ∃ c rest, m.mMacMap.entries = (m.macsmacSoFarPos, c) :: rest ∧ c.isMacsmacSoFar = true ∧
      Unmarked rest

theorem Folded.first (h : Folded E m plain) : FoldedFirst m := by
  obtain ⟨hu, hcase⟩ := h
  rcases hcase with ⟨h1, heq⟩ | ⟨pre, post, hp, _, _, hm⟩
  · exact .inl ⟨h1, heq ▸ hu⟩
  · exact .inr ⟨_, post, hm, isMacsmacSoFar_foldedRecord E pre,
      fun x hx => hu x (hp ▸ mem_append_right _ hx)⟩

/-- What a round of folding finds: the folded record and the chunk behind it, or the first chunk. Both
    lie in the contiguous part. -/
inductive FoldCase (m : ChunkmacMap) : Prop
  | next {k k' : Int} {c next : ChunkMAC} {rest : List (Int × ChunkMAC)}
      (hm : m.mMacMap.entries = (k, c) :: (k', next) :: rest) (hpos : m.macsmacSoFarPos = k)
      (hc : c.isMacsmacSoFar = true) (hchunk : IsChunk k k') (hk : k' < m.progresscontiguous)
      (hfin : next.finished = true) (hu : Unmarked ((k', next) :: rest))
  | first {c : ChunkMAC} {rest : List (Int × ChunkMAC)} (hm : m.mMacMap.entries = (0, c) :: rest)
      (hpos : m.macsmacSoFarPos = -1) (hk : 0 < m.progresscontiguous) (hfin : c.finished = true)
      (hu : Unmarked ((0, c) :: rest))

section

variable (h : Tracked m)
include h

theorem Tracked.foldCase_marked {post : List (Int × ChunkMAC)}
    (hcan : canFold m = true) (hm : m.mMacMap.entries = (m.macsmacSoFarPos, c) :: post)
    (hc : c.isMacsmacSoFar = true) (hu : Unmarked post) : FoldCase m := by
  obtain ⟨hroom, hsize⟩ := canFold_iff.1 hcan
  have hsorted := m.mMacMap.sorted
  rw [hm] at hsorted hsize
  obtain ⟨⟨k, next⟩, rest, rfl⟩ : ∃ x rest, post = x :: rest := by
    cases post with
    | nil => exact absurd hsize (by simp)
    | cons x rest => exact ⟨x, rest, rfl⟩
  obtain ⟨hfirst, hsorted'⟩ := pairwise_cons.1 hsorted
  have hlt : m.macsmacSoFarPos < k := hfirst _ mem_cons_self
  have hnextmem : (k, next) ∈ m.mMacMap.entries := by simp [hm]
  -- the chunk after the folded record is still in the contiguous part
  obtain ⟨e, he⟩ := h.lattice (m.macsmacSoFarPos, c) (by simp [hm])
  obtain ⟨e', he'⟩ := he.next
  have hepc : e < m.progresscontiguous := by
    have := he.le_add
    omega
  obtain ⟨r, hr⟩ := h.contiguous e e' he' he.lt hepc
  have hke : k ≤ e := by
    rw [hm] at hr
    rcases mem_cons.1 hr with hr | hr
    · exact absurd (congrArg Prod.fst hr) he.lt.ne'
    rcases mem_cons.1 hr with hr | hr
    · exact (congrArg Prod.fst hr).ge
    · exact ((pairwise_cons.1 hsorted').1 _ hr).le
  obtain ⟨e'', he''⟩ := h.lattice _ hnextmem
  have hek : e = k := le_antisymm (he.le_of_lt he'' hlt) hke
  subst hek
  exact .next hm rfl hc he hepc (h.finished _ hnextmem hepc) hu

theorem Tracked.foldCase_plain (hcan : canFold m = true)
    (h1 : m.macsmacSoFarPos = -1) (hu : Unmarked m.mMacMap.entries) : FoldCase m := by
  obtain ⟨hroom, -⟩ := canFold_iff.1 hcan
  have hchunk0 : IsChunk 0 131072 := (isChunk_iff _ _).2 (by omega)
  obtain ⟨c, hcmem⟩ := h.contiguous 0 _ hchunk0 (by omega) (by omega)
  have hfin : c.finished = true := h.finished _ hcmem (show (0 : Int) < _ by omega)
  -- no key is below zero, so the entry of the first chunk is the first entry
  obtain ⟨rest, hm⟩ : ∃ rest, m.mMacMap.entries = (0, c) :: rest := by
    have hsorted := m.mMacMap.sorted
    cases hent : m.mMacMap.entries with
    | nil =>
      rw [hent] at hcmem
      cases hcmem
    | cons x rest =>
      rw [hent] at hcmem hsorted
      rcases mem_cons.1 hcmem with hx | hx
      · exact ⟨rest, by rw [hx]⟩
      have hneg : x.1 < 0 := (pairwise_cons.1 hsorted).1 _ hx
      obtain ⟨e, he⟩ := h.lattice x (hent ▸ mem_cons_self)
      exact absurd he.nonneg hneg.not_ge
  exact .first hm h1 (by omega) hfin (hm ▸ hu)

theorem Tracked.foldCase (hf : FoldedFirst m) (hcan : canFold m = true) : FoldCase m := by
  rcases hf with ⟨h1, hu⟩ | ⟨c, rest, hm, hc, hu⟩
  · exact h.foldCase_plain hcan h1 hu
  · exact h.foldCase_marked hcan hm hc hu

theorem Tracked.foldFront (hcase : FoldCase m) : Tracked (foldFront E m) := by
  cases hcase with
  | @next k k' c next rest hm hpos hc hchunk _ hfin _ =>
    obtain ⟨hent, hp, hpc⟩ := foldFront_of_marked hm hc
    have hmem : (k', next) ∈ m.mMacMap.entries := by simp [hm]
    refine h.of_fold hent hp hpc hmem hfin fun x hx => by simp [hm, hx]
      (hpos ▸ hchunk.lt.le) fun x hx hkx => ?_
    rw [hm] at hx
    rcases mem_cons.1 hx with rfl | hx
    · exact absurd hkx hchunk.lt.le.not_gt
    rcases mem_cons.1 hx with rfl | hx
    · exact absurd hkx (lt_irrefl _)
    · exact hx
  | @first c rest hm hpos _ hfin hu =>
    obtain ⟨hent, hp, hpc⟩ := foldFront_of_first hm (hu _ mem_cons_self) hfin
    have hmem : (0, c) ∈ m.mMacMap.entries := by simp [hm]
    refine h.of_fold hent hp hpc hmem hfin fun x hx => by simp [hm, hx]
      (by omega) fun x hx hkx => ?_
    rw [hm] at hx
    rcases mem_cons.1 hx with rfl | hx
    · exact absurd hkx (lt_irrefl _)
    · exact hx

end

/-- How many rounds folding can still take: a round removes an entry, except for the one that
    marks the first record. -/
def foldMeasure (m : ChunkmacMap) : Nat := 2 * m.size + if m.macsmacSoFarPos < 0 then 1 else 0

theorem progresscontiguous_foldFront :
    (foldFront E m).progresscontiguous = m.progresscontiguous := by
  unfold foldFront
  split
  · split
    · split <;> rfl
    · split <;> rfl
  · rfl

theorem Folded.foldFront (h : Folded E m plain) (hcase : FoldCase m) :
    Folded E (foldFront E m) plain := by
  obtain ⟨hu, hfold⟩ := h
  refine ⟨hu, .inr ?_⟩
  cases hcase with
  | @next k k' c next rest hm hpos hc hchunk _ hfin hrest =>
    obtain ⟨hent, hp, -⟩ := foldFront_of_marked (E := E) hm hc
    have h0 : 0 ≤ k := hchunk.nonneg
    rcases hfold with ⟨h1, -⟩ | ⟨pre, post, hplain, hpre, -, hm'⟩
    · omega
    rw [hm] at hm'
    obtain ⟨hrec, rfl⟩ := List.cons.inj hm'
    obtain rfl : c = foldedRecord E pre := congrArg Prod.snd hrec
    refine ⟨pre ++ [(k', next)], rest, by simp [hplain], fun x hx => ?_,
      by rw [hp]; exact h0.trans hchunk.lt.le, ?_⟩
    · rw [hp]
      rcases mem_append.1 hx with hx | hx
      · exact (hpre x hx).trans (hpos ▸ hchunk.lt.le)
      · exact (congrArg Prod.fst (mem_singleton.1 hx)).le
    · rw [hent, hp, foldedRecord_append hfin (hrest (k', next) mem_cons_self)]
  | @first c rest hm hpos _ hfin hmark =>
    obtain ⟨hent, hp, -⟩ := foldFront_of_first (E := E) hm (hmark _ mem_cons_self) hfin
    rcases hfold with ⟨-, heq⟩ | ⟨_, _, _, _, h0, _⟩
    · refine ⟨[(0, c)], rest, by rw [← heq, hm]; rfl, fun x hx => ?_, by rw [hp], ?_⟩
      · rw [hp, mem_singleton.1 hx]
      · rw [hent, hp, show [((0 : Int), c)] = [] ++ [(0, c)] from rfl,
          foldedRecord_append hfin (hmark (0, c) mem_cons_self)]
        rfl
    · omega

theorem FoldCase.progress (hcase : FoldCase m) :
    0 ≤ (foldFront E m).macsmacSoFarPos ∧ (foldFront E m).macsmacSoFarPos < m.progresscontiguous ∧
      foldMeasure (foldFront E m) < foldMeasure m := by
  cases hcase with
  | @next k k' c next rest hm hpos hc hchunk hk _ _ =>
    obtain ⟨hent, hp, -⟩ := foldFront_of_marked hm hc
    have h0 := hchunk.nonneg
    have hlt := hchunk.lt
    refine ⟨by rw [hp]; omega, by rwa [hp], ?_⟩
    simp only [foldMeasure, size, OrdMap.size, hent, hm, length_cons]
    split <;> split <;> omega
  | @first c rest hm hpos hk hfin hu =>
    obtain ⟨hent, hp, -⟩ := foldFront_of_first hm (hu _ mem_cons_self) hfin
    refine ⟨hp.ge, by rwa [hp], ?_⟩
    simp only [foldMeasure, size, OrdMap.size, hent, hm, hp, hpos]
    simp

/-- **One round of folding** keeps the invariant, stays in the contiguous part and makes progress. -/
theorem MacInv.foldFront (h : MacInv E m plain) (hc : canFold m = true) :
    MacInv E (foldFront E m) plain ∧
      (ChunkmacMap.foldFront E m).macsmacSoFarPos < m.progresscontiguous ∧
        foldMeasure (ChunkmacMap.foldFront E m) < foldMeasure m := by
  have hcase := h.tracked.foldCase h.folded.first hc
  exact ⟨⟨h.tracked.foldFront hcase, h.folded.foldFront hcase⟩, (hcase.progress).2⟩

theorem MacInv.fold_ends (h : MacInv E m plain) {fuel : Nat} (hfuel : foldMeasure m < fuel) :
    ∃ m', m.updateMacsmacProgress E fuel = some m' :=
  whileFuel_ends (fun m => MacInv E m plain) foldMeasure
    (fun _ hs hc => ⟨(hs.foldFront hc).1, (hs.foldFront hc).2.2⟩) h hfuel

/-! ## 5. Resuming from the state cache -/

theorem foldl_readEntry_position : ∀ (l : List (Int × ChunkMAC)) (m : ChunkmacMap), Unmarked l →
    (l.foldl readEntry m).macsmacSoFarPos = m.macsmacSoFarPos
  | [], _, _ => rfl
  | x :: l, m, hu => by
      have hmark : x.2.isMacsmacSoFar = false := hu x mem_cons_self
      rw [foldl_cons,
        foldl_readEntry_position l _ fun y hy => hu y (mem_cons_of_mem _ hy)]
      simp [readEntry, hmark, ChunkmacMap.setEntry]

theorem MacInv.resume (h : MacInv E m plain) (hmap : m'.mMacMap = m.mMacMap)
    (hm' : m' = m.mMacMap.entries.foldl readEntry {}) : MacInv E m' plain := by
  obtain ⟨ht, hu, hcase⟩ := h
  have hpc : m'.progresscontiguous = 0 := by
    rw [hm', progresscontiguous_foldl_readEntry]
  have hpos : m'.macsmacSoFarPos = m.macsmacSoFarPos := by
    rcases hcase with ⟨h1, heq⟩ | ⟨pre, post, hp, -, -, hm⟩
    · rw [hm', foldl_readEntry_position _ _ (heq ▸ hu), h1]
    rw [hm', hm, foldl_cons,
      foldl_readEntry_position post _ fun x hx => hu x (hp ▸ mem_append_right _ hx)]
    rfl
  have hnn : ∀ x ∈ m.mMacMap.entries, 0 ≤ x.1 := fun x hx => (ht.lattice x hx).choose_spec.nonneg
  refine ⟨⟨hmap ▸ ht.lattice, hmap ▸ ht.int64, fun x hx hlt => ?_, fun c e hc _ h2 => ?_⟩, hu, ?_⟩
  · rw [hpc] at hlt
    rw [hmap] at hx
    exact absurd hlt (hnn x hx).not_gt
  · rw [hpc] at h2
    exact absurd h2 hc.nonneg.not_gt
  · rwa [hmap, hpos]

theorem MacInv.unserialized (h : MacInv E m plain) {rest rest' : List UInt8}
    (hsize : m.size < 65536) (hl : unserialize {} (m.serialize ++ rest) = some (m', rest')) :
    m'.mMacMap = m.mMacMap ∧ m' = m.mMacMap.entries.foldl readEntry {} := by
  have hkeys : ∀ x ∈ m.mMacMap.entries, -2 ^ 63 ≤ x.1 ∧ x.1 < 2 ^ 63 := fun x hx => by
    have := (h.tracked.lattice x hx).choose_spec.nonneg
    exact ⟨by omega, h.tracked.int64 x hx⟩
  obtain ⟨m'', hread, hmap, hval⟩ := unserialize_serialize m rest hsize hkeys
  rw [hl] at hread
  cases hread
  exact ⟨hmap, hval⟩

/-! ## 6. Runs -/

/-- **Every step keeps the invariant.** -/
theorem mac_step_inv {s s' : ChunkmacMap × ChunkmacMap} (h : MacInv E s.1 s.2)
    (hs : MacStep E s s') : MacInv E s'.1 s'.2 := by
  cases hs with
  | @upload m plain macs hk ho =>
    refine MacInv.foldl_setEntry (fun r => { r with finished := true }) _ _ _ h hk fun x hx => ?_
    refine ⟨?_, .inl rfl⟩
    simpa [ChunkMAC.isMacsmacSoFar] using ho x hx
  | @download m plain piece hk ho => exact MacInv.foldl_setEntry id _ _ _ h hk ho
  | @contiguous m plain m' fileSize fuel hl =>
    have hround : ∀ m, MacInv E m plain → m.finishedAt m.progresscontiguous = true →
        MacInv E (m.setProgressContiguous (chunkceil m.progresscontiguous fileSize)) plain :=
      fun m hm hf => ⟨hm.tracked.setProgressContiguous hf, hm.folded⟩
    exact (whileFuel_inv (fun m => MacInv E m plain) hround h hl).1
  | @progress m plain fileSize => exact h.calcprogress fileSize
  | @fold m plain m' fuel hl =>
    exact (whileFuel_inv (fun m => MacInv E m plain) (fun m hm hc => (hm.foldFront hc).1)
      h hl).1
  | @resume m plain m' rest rest' hsize hl =>
    obtain ⟨hmap, hval⟩ := h.unserialized hsize hl
    exact h.resume hmap hval

theorem Plain.inv (h : Plain m) : MacInv E m m :=
  ⟨h.toTracked, h.unmarked, .inl ⟨h.nothing, rfl⟩⟩

end Cipher

/-- **Folding is invisible.** From a map whose entries are finished chunks contiguous up to
    `progresscontiguous` (plus later ones), after any run of chunk completions, progress updates,
    folds and resumes: folding again ends, and the file MAC is that of the map never folded. -/
theorem macsmac_of_run (E : Block → Block) {m₀ m plain : ChunkmacMap} (h₀ : Plain m₀)
    (hr : Relation.ReflTransGen (MacStep E) (m₀, m₀) (m, plain)) :
    (∃ fuel m', m.updateMacsmacProgress E fuel = some m') ∧ m.macsmac E = plain.macsmac E := by
  have hinv : MacInv E m plain :=
    run_inv (fun s => MacInv E s.1 s.2) (fun _ _ => mac_step_inv) h₀.inv hr
  exact ⟨⟨foldMeasure m + 1, hinv.fold_ends (lt_add_one _)⟩, hinv.folded.macsmac_eq⟩

theorem plain_empty : Plain {} where
  lattice := nofun
  int64 := nofun
  finished := nofun
  contiguous := fun _ _ hc _ h2 => absurd h2 hc.nonneg.not_gt
  unmarked := nofun
  nothing := rfl

/-- The first 110 chunks, with the chunk number as MAC. -/
def firstChunks : OrdMap Int ChunkMAC where
  entries := (List.range 110).map fun i =>
    ((if i ≤ 8 then (i * (i + 1) / 2 : Nat) * 131072 else 4718592 + ((i : Int) - 8) * 1048576),
      { mac := fun _ => UInt8.ofNat i })
  sorted := by decide +kernel

/-- Upload the first 110 chunks, compute the progress and fold: nine entries go into the folded
    record, and the file MAC is that of the 110 entries. -/
theorem macsmac_of_run_firstChunks : ∃ m plain : ChunkmacMap,
    Relation.ReflTransGen (MacStep id) ({}, {}) (m, plain) ∧ plain.size = 110 ∧ m.size = 101 ∧
      m.macsmac id = plain.macsmac id := by
  have hfloor : ∀ x ∈ firstChunks.entries, -1 < x.1 ∧ 0 ≤ x.1 ∧ chunkfloor x.1 = x.1 ∧
      x.1 < 2 ^ 63 ∧ x.2.offset ≠ unsignedMinusOne := by decide +kernel
  let plain := ({} : ChunkmacMap).finishedUploadChunks firstChunks
  have hup : MacStep id ({}, {}) (plain, plain) :=
    MacStep.upload firstChunks
      (fun x hx => ⟨(hfloor x hx).1,
        ⟨_, isChunk_of_floor (hfloor x hx).2.1 (hfloor x hx).2.2.1⟩, (hfloor x hx).2.2.2.1⟩)
      (fun x hx => (hfloor x hx).2.2.2.2)
  have hprog : MacStep id (plain, plain) ((plain.calcprogress 111149056).2, plain) :=
    MacStep.progress 111149056
  have hfold : ((plain.calcprogress 111149056).2.updateMacsmacProgress id 20).map size =
      some 101 := by decide +kernel
  obtain ⟨m, hm, hsize⟩ := Option.map_eq_some_iff.1 hfold
  have hrun : Relation.ReflTransGen (MacStep id) ({}, {}) (m, plain) :=
    ((Relation.ReflTransGen.single hup).tail hprog).tail (MacStep.fold 20 hm)
  exact ⟨m, plain, hrun, by decide +kernel, hsize, (macsmac_of_run id plain_empty hrun).2⟩

end ChunkmacMap

end MegaSdk
