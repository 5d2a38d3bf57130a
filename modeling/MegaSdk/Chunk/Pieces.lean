/-
  File:      MegaSdk/Chunk/Pieces.lean
  Subject:   DOWNLOADING A CHUNK IN PIECES (`RaidBufferManager::FilePiece::finalize`, raid.cpp).

  A piece of a download is finalized in two passes: the serial one decrypts parts of chunks, the
  parallel one the parts that complete their chunk. The MAC of a part of a chunk is meant to be
  carried from the transfer's map into the piece's map (`copyEntryTo`) before the next part is
  decrypted, and merged back afterwards (`copyEntriesTo`).

  * `downloadPiece`, `downloadPieces` -- a piece through both passes and the merge, and the pieces
    of a chunk one after another;
  * `downloadPieces_spec` -- the plaintext comes out whatever the cut, and the MAC left in the map
    is the MAC of the LAST piece alone: `copyEntryTo` copies in the other direction, so every piece
    starts its MAC anew;
  * `download_matches_upload_iff` -- so the chunk MAC is the one of the upload for every cipher and
    text exactly when the chunk arrives in one piece.
-/
import MegaSdk.Chunk.MacMap

namespace MegaSdk

open Base List

structure FilePiece where
  pos : Int
  buf : List UInt8
  chunkmacs : ChunkmacMap := {}
  finalized : Bool := false

/-- The variables of the loop of `finalize`; `source` is `source_chunkmacs`. -/
structure FinalizeState where
  buf : List UInt8
  chunkmacs : ChunkmacMap
  source : Option ChunkmacMap
  chunkstart : Nat
  startpos : Int
  endpos : Int
  queueParallel : Bool

namespace FinalizeState

/-- `static_cast<unsigned>(endpos - startpos)`. -/
def chunksize (s : FinalizeState) : Nat := ((s.endpos - s.startpos) % 2 ^ 32).toNat

section Cipher

variable (E : Block → Block)

/-- `chunkmacs.ctr_decrypt` on the part of the buffer that belongs to the chunk. -/
def decrypt (s : FinalizeState) (chunkid : Int) (ctriv : UInt64) (finishesChunk : Bool) :
    FinalizeState :=
  let part := (s.buf.drop s.chunkstart).take s.chunksize
  let (out, macs) := s.chunkmacs.ctrDecrypt E chunkid part s.startpos ctriv finishesChunk
  { s with
    buf := s.buf.take s.chunkstart ++ out ++ s.buf.drop (s.chunkstart + s.chunksize)
    chunkmacs := macs }

/-- `if (source_chunkmacs) source_chunkmacs->copyEntryTo(chunkid, chunkmacs)`. -/
def copyEntry (s : FinalizeState) (chunkid : Int) : FinalizeState :=
  match s.source with
  | some source =>
    let (source', macs) := source.copyEntryTo chunkid s.chunkmacs
    { s with source := some source', chunkmacs := macs }
  | none => s

/-- The loop body of `finalize`, before the positions advance. -/
def chunk (parallel : Bool) (filesize : Int) (ctriv : UInt64) (s : FinalizeState) :
    FinalizeState :=
  let chunkid := chunkfloor s.startpos
  if s.chunkmacs.finishedAt chunkid then s
  else
    let s := s.copyEntry chunkid
    if s.endpos == chunkceil chunkid filesize then
      if parallel then s.decrypt E chunkid ctriv true else { s with queueParallel := true }
    else if parallel then s
    else s.decrypt E chunkid ctriv false

def advance (finalpos : Int) (s : FinalizeState) (chunksize : Nat) (endpos : Int) : FinalizeState :=
  { s with
    chunkstart := s.chunkstart + chunksize
    startpos := endpos
    endpos := chunkceil endpos finalpos }

end Cipher

end FinalizeState

section Cipher

variable (E : Block → Block)

/-- `FilePiece::finalize`: the piece, the source map and whether the parallel pass is needed. Every
    round takes at least one byte off the piece, so the loop is cut off after one round more. -/
def FilePiece.finalize (p : FilePiece) (parallel : Bool) (filesize : Int) (ctriv : UInt64)
    (source : Option ChunkmacMap) : Option (FilePiece × Option ChunkmacMap × Bool) := do
  let finalpos := p.pos + p.buf.length
  let finalpos := if finalpos ≠ filesize then landNeg finalpos BLOCKSIZE else finalpos
  let s : FinalizeState :=
    { buf := p.buf, chunkmacs := p.chunkmacs, source := source, chunkstart := 0, startpos := p.pos
      endpos := chunkceil p.pos finalpos, queueParallel := false }
  let s ← whileFuel (fun s => s.chunksize != 0)
    (fun s => (s.chunk E parallel filesize ctriv).advance finalpos s.chunksize s.endpos)
    (p.buf.length + 2) s
  some ({ p with buf := s.buf, chunkmacs := s.chunkmacs, finalized := !s.queueParallel },
    s.source, s.queueParallel)

/-- A downloaded piece: the serial pass with the transfer's map as source, the parallel pass when
    that asks for it, and the merge into the transfer's map once the data is written. -/
def downloadPiece (filesize : Int) (ctriv : UInt64) (macs : ChunkmacMap) (pos : Int)
    (data : List UInt8) : Option (ChunkmacMap × List UInt8) := do
  let (p, source, parallelNeeded) ←
    ({ pos := pos, buf := data } : FilePiece).finalize E false filesize ctriv (some macs)
  let p ←
    if parallelNeeded then do
      let (p', _, _) ← p.finalize E true filesize ctriv none
      some p'
    else some p
  some (p.chunkmacs.copyEntriesTo (source.getD {}), p.buf)

/-- Consecutive pieces from `pos` on, in order: the transfer's map and the bytes written. -/
def downloadPieces (filesize : Int) (ctriv : UInt64) :
    ChunkmacMap → Int → List (List UInt8) → Option (ChunkmacMap × List UInt8)
  | macs, _, [] => some (macs, [])
  | macs, pos, data :: rest => do
      let (macs, out) ← downloadPiece E filesize ctriv macs pos data
      let (macs, out') ← downloadPieces filesize ctriv macs (pos + data.length) rest
      some (macs, out ++ out')

end Cipher

/-- The pieces of the given lengths. -/
def cutInto : List Nat → List UInt8 → List (List UInt8)
  | [], _ => []
  | l :: ls, data => data.take l :: cutInto ls (data.drop l)

/-- The lengths cut `n` bytes into pieces at block boundaries. -/
structure IsCut (ls : List Nat) (n : Nat) : Prop where
  pos : ∀ l ∈ ls, 0 < l
  blocks : ∀ l ∈ ls.dropLast, l % 16 = 0
  sum : ls.sum = n

/-- The download of the chunk at `c`, uploaded as `text`, in pieces of the given lengths yields the
    text, and the transfer's map then has the chunk finished with the MAC of the upload. -/
def DownloadMatches (E : Block → Block) (filesize : Int) (ctriv : UInt64) (c : Int)
    (macs : ChunkmacMap) (text : List UInt8) (ls : List Nat) : Prop :=
  let (data, uploaded) := ({} : ChunkmacMap).ctrEncrypt E c text c ctriv false
  ∃ macs', downloadPieces E filesize ctriv macs c (cutInto ls data) = some (macs', text) ∧
    macs'.finishedAt c = true ∧ (macs'.entry c).mac = (uploaded.entry c).mac

/-! ## 1. One part of one chunk -/

section Part

variable {E : Block → Block} {c e filesize pos : Int} {ctriv : UInt64} (m : ChunkmacMap)
  {s : FinalizeState}

@[simp] theorem entry_setEntry (k : Int) (r : ChunkMAC) : (m.setEntry k r).entry k = r := by
  simp [ChunkmacMap.entry, ChunkmacMap.setEntry]

@[simp] theorem finishedAt_setEntry (k : Int) (r : ChunkMAC) :
    (m.setEntry k r).finishedAt k = r.finished := by
  simp [ChunkmacMap.finishedAt, ChunkmacMap.setEntry]

/-- A part `[pos, pos + n)` of the chunk `[c, e)` of a file, with what the positions in `finalize`
    are for it. -/
structure IsPart (c e filesize pos : Int) (n : Nat) : Prop where
  isChunk : IsChunk c e
  start : c ≤ pos
  size : 0 < n
  inChunk : pos + n ≤ e
  inFile : pos + n ≤ filesize
  stop : pos + n = filesize ∨ (pos + n) % 16 = 0

section

variable {n : Nat} (h : IsPart c e filesize pos n)
include h

theorem IsPart.floor : chunkfloor pos = c :=
  chunkfloor_of_mem h.isChunk h.start (by have := h.size; have := h.inChunk; omega)

theorem IsPart.ceil : chunkceil pos (pos + n) = pos + n := by
  have h1 := h.size
  have h2 := h.inChunk
  have h3 := h.isChunk.nonneg
  have h4 := h.start
  rw [chunkceil_of_mem h.isChunk h.start (by omega), clampTo]
  split <;> omega

theorem IsPart.ceil_end : chunkceil (pos + n) (pos + n) = pos + n := by
  have h3 := h.isChunk.nonneg
  have h4 := h.start
  have hs := (chunk_spec (pos + n) (by omega)).2.2
  rw [chunkceil_limit, clampTo]
  split <;> omega

theorem IsPart.finalpos :
    (if pos + n ≠ filesize then landNeg (pos + n) BLOCKSIZE else pos + n) = pos + n := by
  split
  · rename_i hne
    have := h.stop.resolve_left hne
    simp only [landNeg, BLOCKSIZE]
    omega
  · rfl

theorem IsPart.chunksize : ((pos + n - pos) % 2 ^ 32).toNat = n := by
  have h1 := h.inChunk
  have h2 := h.isChunk.le_add
  have h3 := h.start
  omega

end

/-- The loop variables of `finalize` on entry, for a piece that is a part of one chunk. -/
def FilePiece.partState (p : FilePiece) (source : Option ChunkmacMap) : FinalizeState :=
  { buf := p.buf, chunkmacs := p.chunkmacs, source := source, chunkstart := 0, startpos := p.pos
    endpos := p.pos + p.buf.length, queueParallel := false }

theorem finalize_part {p : FilePiece} (h : IsPart c e filesize p.pos p.buf.length)
    (parallel : Bool) (source : Option ChunkmacMap) :
    p.finalize E parallel filesize ctriv source =
      let s := (p.partState source).chunk E parallel filesize ctriv
      some ({ p with buf := s.buf, chunkmacs := s.chunkmacs, finalized := !s.queueParallel },
        s.source, s.queueParallel) := by
  have hsize : (p.partState source).chunksize = p.buf.length := h.chunksize
  have hne : ((p.partState source).chunksize != 0) = true := by
    rw [hsize]
    simpa using ne_of_gt h.size
  -- the second evaluation of the condition sees an empty chunk
  have hend : ∀ s : FinalizeState,
      ((s.advance (p.pos + p.buf.length) p.buf.length (p.pos + p.buf.length)).chunksize != 0) =
        false := by
    intro s
    simp [FinalizeState.advance, FinalizeState.chunksize, h.ceil_end]
  unfold FilePiece.finalize
  simp only [h.finalpos, h.ceil]
  show Option.bind (whileFuel _ _ (p.buf.length + 1 + 1) (p.partState source)) _ = _
  rw [whileFuel, if_pos hne, whileFuel, hsize,
    show (p.partState source).endpos = p.pos + p.buf.length from rfl, if_neg (by rw [hend]; decide)]
  rfl

theorem decrypt_part (h : IsPart c e filesize s.startpos s.buf.length)
    (h0 : s.chunkstart = 0) (hend : s.endpos = s.startpos + s.buf.length)
    (hm : (s.chunkmacs.entry c).notStarted = true) (fin : Bool) :
    s.decrypt E c ctriv fin =
      { s with
        buf := ctrProcess E ctriv s.startpos s.buf
        chunkmacs := s.chunkmacs.setEntry c
          { mac := cbcMac E (ctrProcess E ctriv s.startpos s.buf) (macInit ctriv)
            offset := if fin then 0 else (s.chunkmacs.entry c).offset + UInt32.ofNat s.buf.length
            finished := fin } } := by
  have hsize : s.chunksize = s.buf.length := by
    unfold FinalizeState.chunksize
    rw [hend]
    exact h.chunksize
  unfold FinalizeState.decrypt
  simp only [h0, hsize]
  cases fin <;> simp [ChunkmacMap.ctrDecrypt, ctrCrypt, macDecrypt_eq, hm]

@[simp] theorem endpos_copyEntry (s : FinalizeState) (k : Int) :
    (s.copyEntry k).endpos = s.endpos := by
  unfold FinalizeState.copyEntry
  split <;> rfl

/-- What a round does to a part that completes its chunk. -/
theorem chunk_of_end (hfloor : chunkfloor s.startpos = c)
    (hfresh : s.chunkmacs.finishedAt c = false) (hend : s.endpos = chunkceil c filesize)
    (parallel : Bool) :
    s.chunk E parallel filesize ctriv =
      if parallel then (s.copyEntry c).decrypt E c ctriv true
      else { s.copyEntry c with queueParallel := true } := by
  unfold FinalizeState.chunk
  simp only [hfloor, hfresh, Bool.false_eq_true, if_false, endpos_copyEntry]
  rw [if_pos (beq_iff_eq.2 hend)]

/-- What the serial pass does to a part that leaves its chunk incomplete. -/
theorem chunk_of_inside (hfloor : chunkfloor s.startpos = c)
    (hfresh : s.chunkmacs.finishedAt c = false) (hend : s.endpos ≠ chunkceil c filesize) :
    s.chunk E false filesize ctriv = (s.copyEntry c).decrypt E c ctriv false := by
  unfold FinalizeState.chunk
  simp only [hfloor, hfresh, Bool.false_eq_true, if_false, endpos_copyEntry]
  rw [if_neg fun hb => hend (beq_iff_eq.1 hb)]

theorem copyEntriesTo_setEntry (r r' : ChunkMAC) :
    ((({} : ChunkmacMap).setEntry c r).setEntry c r').copyEntriesTo m = m.setEntry c r' := by
  have hent : ((({} : ChunkmacMap).setEntry c r).setEntry c r').mMacMap.entries = [(c, r')] := by
    show OrdMap.insertL c r' [(c, r)] = _
    simp [OrdMap.insertL]
  unfold ChunkmacMap.copyEntriesTo
  rw [hent]
  rfl

/-- **A part of a chunk, downloaded.** Its text comes out, and the transfer's map has the MAC of
    this part alone, whatever it had before: the serial pass put the default record of the piece
    into the transfer's map instead of the transfer's record into the piece. -/
theorem downloadPiece_part (ctriv) (macs : ChunkmacMap) {data : List UInt8}
    (h : IsPart c e filesize pos data.length) :
    ∃ macs', downloadPiece E filesize ctriv macs pos data =
        some (macs', ctrProcess E ctriv pos data) ∧
      macs'.finishedAt c = (pos + data.length == chunkceil c filesize) ∧
      (macs'.entry c).mac = cbcMac E (ctrProcess E ctriv pos data) (macInit ctriv) := by
  let p : FilePiece := { pos := pos, buf := data }
  let fresh : ChunkmacMap := ({} : ChunkmacMap).setEntry c {}
  have hp : IsPart c e filesize p.pos p.buf.length := h
  have hcopy : (p.partState (some macs)).copyEntry c =
      { p.partState (some macs) with chunkmacs := fresh, source := some (macs.setEntry c {}) } := rfl
  have hstart : (fresh.entry c).notStarted = true := by
    rw [entry_setEntry]
    rfl
  unfold downloadPiece
  rw [finalize_part hp]
  by_cases hend : pos + data.length = chunkceil c filesize
  · -- the serial pass leaves the part to the parallel one
    let p₁ : FilePiece := { p with chunkmacs := fresh }
    have hp₁ : IsPart c e filesize p₁.pos p₁.buf.length := h
    rw [chunk_of_end h.floor rfl hend]
    have hpar : p₁.finalize E true filesize ctriv none = some
        ({ p₁ with
            buf := ctrProcess E ctriv pos data
            chunkmacs := fresh.setEntry c
              { mac := cbcMac E (ctrProcess E ctriv pos data) (macInit ctriv)
                offset := 0
                finished := true }
            finalized := true }, none, false) := by
      have hfresh : (p₁.partState none).chunkmacs.finishedAt c = false := finishedAt_setEntry _ _ _
      have hcopy₁ : (p₁.partState none).copyEntry c = p₁.partState none := rfl
      rw [finalize_part hp₁, chunk_of_end h.floor hfresh hend, decrypt_part h rfl rfl hstart]
      rfl
    refine ⟨(fresh.setEntry c
      { mac := cbcMac E (ctrProcess E ctriv pos data) (macInit ctriv)
        offset := 0
        finished := true }).copyEntriesTo (macs.setEntry c {}), ?_, ?_, ?_⟩
    · show Option.bind (p₁.finalize E true filesize ctriv none) _ = _
      rw [hpar]
      rfl
    · rw [copyEntriesTo_setEntry, finishedAt_setEntry, beq_iff_eq.2 hend]
    · rw [copyEntriesTo_setEntry, entry_setEntry]
  · rw [chunk_of_inside h.floor rfl hend, hcopy,
      decrypt_part h rfl rfl hstart]
    refine ⟨_, rfl, ?_, ?_⟩
    · rw [copyEntriesTo_setEntry]
      simp [hend]
    · rw [copyEntriesTo_setEntry, entry_setEntry]
      rfl

/-! ## 2. The pieces of a chunk -/

theorem isPart_of_cut {n l : Nat} (hc : IsChunk c e) (hpos : c ≤ pos) (hmod : pos % 16 = 0)
    (hfs : 0 ≤ filesize) (hend : pos + n = chunkceil c filesize) (hl : 0 < l) (hle : l ≤ n)
    (hcut : l = n ∨ l % 16 = 0) : IsPart c e filesize pos l := by
  have hem := hc.mod_block
  rw [chunkceil_of_mem hc le_rfl hc.lt, clampTo] at hend
  refine ⟨hc, hpos, hl, ?_, ?_, ?_⟩ <;> split at hend <;> omega

/-- **A chunk downloaded in pieces.** The text comes out whatever the cut; the MAC in the map is the
    MAC of the last piece alone. -/
theorem downloadPieces_spec (ctriv) (hc : IsChunk c e) (hfs : 0 ≤ filesize) :
    ∀ (ls : List Nat) (macs : ChunkmacMap) (pos : Int) (data : List UInt8), ls ≠ [] →
      IsCut ls data.length → c ≤ pos → pos % 16 = 0 →
      pos + data.length = chunkceil c filesize →
      ∃ macs', downloadPieces E filesize ctriv macs pos (cutInto ls data) =
          some (macs', ctrProcess E ctriv pos data) ∧
        macs'.finishedAt c = true ∧
        (macs'.entry c).mac =
          cbcMac E ((ctrProcess E ctriv pos data).drop ls.dropLast.sum) (macInit ctriv)
  | [], _, _, _, hne, _, _, _, _ => absurd rfl hne
  | [l], macs, pos, data, _, hcut, hpos, hmod, hend => by
      have hl : l = data.length := by simpa using hcut.sum
      have hpart : IsPart c e filesize pos data.length :=
        isPart_of_cut hc hpos hmod hfs hend (hl ▸ hcut.pos l mem_cons_self) le_rfl (.inl rfl)
      obtain ⟨macs', hd, hf, hmac⟩ := downloadPiece_part ctriv macs hpart
      refine ⟨macs', ?_, ?_, ?_⟩
      · simp only [cutInto, downloadPieces]
        rw [hl, take_length, hd]
        simp
      · rw [hf, beq_iff_eq]
        exact hend
      · simpa using hmac
  | l :: l' :: ls, macs, pos, data, _, hcut, hpos, hmod, hend => by
      have hsum : l + (l' + ls.sum) = data.length := by simpa using hcut.sum
      have hblock : l % 16 = 0 := hcut.blocks l (by simp)
      have hlpos : 0 < l := hcut.pos l mem_cons_self
      have htake : (data.take l).length = l := by
        rw [length_take]
        omega
      have hdrop : (data.drop l).length = data.length - l := length_drop
      have hpart : IsPart c e filesize pos (data.take l).length := by
        rw [htake]
        exact isPart_of_cut hc hpos hmod hfs hend hlpos (by omega) (.inr hblock)
      obtain ⟨macs₁, hd, -, -⟩ := downloadPiece_part ctriv macs hpart
      have hcut' : IsCut (l' :: ls) (data.drop l).length :=
        { pos := fun x hx => hcut.pos x (mem_cons_of_mem _ hx)
          blocks := fun x hx => hcut.blocks x (by
            exact mem_cons_of_mem _ hx)
          sum := by
            rw [sum_cons]
            omega }
      obtain ⟨macs', hds, hf, hmac⟩ := downloadPieces_spec ctriv hc hfs (l' :: ls) macs₁ (pos + l)
        (data.drop l) (cons_ne_nil _ _) hcut' (by omega) (by omega)
        (by rw [← hend]; omega)
      -- the key stream of the whole is that of the first piece followed by that of the rest
      have hsplit : ctrProcess E ctriv pos data = ctrProcess E ctriv pos (data.take l) ++
          ctrProcess E ctriv (pos + l) (data.drop l) := by
        have happ := ctrProcess_append E ctriv pos (by have := hc.nonneg; omega)
          (data.drop l) (htake ▸ hblock)
        rw [take_append_drop, htake] at happ
        exact happ
      refine ⟨macs', ?_, hf, ?_⟩
      · have hds' : downloadPieces E filesize ctriv macs₁ (pos + ((data.take l).length : Int))
            (cutInto (l' :: ls) (data.drop l)) =
              some (macs', ctrProcess E ctriv (pos + l) (data.drop l)) := by
          rw [htake]
          exact hds
        rw [cutInto, downloadPieces, hd]
        show Option.bind (downloadPieces E filesize ctriv macs₁ _ _) _ = _
        rw [hds', hsplit]
        rfl
      · rw [hmac, hsplit, dropLast_cons_of_ne_nil (cons_ne_nil _ _), sum_cons,
          ← drop_drop, drop_left' (by rw [length_ctrProcess, htake])]

/-- The download gives back what was uploaded exactly when the MAC of the last piece alone is the
    MAC of the whole text. -/
theorem downloadMatches_iff_last (macs : ChunkmacMap) {text : List UInt8} {ls : List Nat}
    (hc : IsChunk c e) (hfs : 0 ≤ filesize) (hne : ls ≠ []) (hcut : IsCut ls text.length)
    (hend : c + text.length = chunkceil c filesize) :
    DownloadMatches E filesize ctriv c macs text ls ↔
      cbcMac E (text.drop ls.dropLast.sum) (macInit ctriv) = cbcMac E text (macInit ctriv) := by
  have hlen := length_ctrProcess E ctriv c text
  obtain ⟨macs', hd, hf, hmac⟩ := downloadPieces_spec ctriv hc hfs ls macs c
    (ctrProcess E ctriv c text) hne (hlen ▸ hcut) le_rfl hc.mod_block.1 (hlen ▸ hend)
  rw [ctrProcess_ctrProcess] at hd hmac
  have hup : ((({} : ChunkmacMap).ctrEncrypt E c text c ctriv false).2.entry c).mac =
      cbcMac E text (macInit ctriv) := by
    simp [ChunkmacMap.ctrEncrypt, ctrCrypt, macEncrypt_eq]
  show (∃ macs'', downloadPieces E filesize ctriv macs c (cutInto ls (ctrProcess E ctriv c text)) =
      some (macs'', text) ∧ macs''.finishedAt c = true ∧ (macs''.entry c).mac =
      ((({} : ChunkmacMap).ctrEncrypt E c text c ctriv false).2.entry c).mac) ↔ _
  rw [hup]
  constructor
  · rintro ⟨macs'', hd', -, hm⟩
    rw [hd] at hd'
    cases hd'
    rw [← hmac]
    exact hm
  · intro hm
    exact ⟨macs', hd, hf, hmac.trans hm⟩

end Part

/-! ## 3. A text whose MAC is lost -/

theorem cbcMac_id_zeros (n : Nat) (mac : Block) : cbcMac id (List.replicate n 0) mac = mac := by
  have hblock : ∀ p, blockAt (List.replicate n 0) p = Block.zero := by
    intro p
    funext i
    simp only [blockAt, getD_eq_getElem?_getD, getElem?_replicate]
    split <;> rfl
  have hfold : ∀ (l : List Nat) (mac : Block),
      (l.map fun j => blockAt (List.replicate n 0) (16 * j)).foldl
        (fun m b => id (Block.xor m b)) mac = mac := by
    intro l
    induction l with
    | nil => intro mac; rfl
    | cons j l ih =>
      intro mac
      rw [map_cons, foldl_cons, hblock, ih]
      exact Block.xor_zero mac
  exact hfold _ mac

/-- A text of zero bytes but for the first one. -/
def firstByteOne (n : Nat) : List UInt8 := (1 :: List.replicate 15 0) ++ List.replicate (n - 16) 0

/-- Its MAC under the identity differs from that of any later part of it. -/
theorem cbcMac_firstByteOne (n k : Nat) (hk : 16 ≤ k) :
    cbcMac id ((firstByteOne n).drop k) (macInit 0) ≠ cbcMac id (firstByteOne n) (macInit 0) := by
  have hzero : (firstByteOne n).drop k = List.replicate (n - 16 - (k - 16)) 0 := by
    rw [firstByteOne, drop_append, drop_of_length_le (by simpa using hk)]
    simp
  rw [hzero, cbcMac_id_zeros, firstByteOne, cbcMac_append id _ _ (by simp), cbcMac_id_zeros]
  exact fun h => absurd (congrFun h 0) (by decide)

/-- **Pieces against upload.** For a chunk `[c, e)` of a file and a cut of it at block boundaries,
    the pieces decrypt to the text with the chunk MAC of the upload -- for every cipher, key
    stream, text and transfer map without an entry for the chunk -- exactly when the cut has one
    piece. -/
theorem download_matches_upload_iff {c e filesize : Int} (hc : IsChunk c e) (hf : c < filesize)
    {ls : List Nat} (hcut : IsCut ls (chunkceil c filesize - c).toNat) :
    (∀ (E : Block → Block) (ctriv : UInt64) (macs : ChunkmacMap) (text : List UInt8),
      (text.length : Int) = chunkceil c filesize - c → macs.macsmacSoFarPos < c →
      macs.mMacMap.get? c = none → DownloadMatches E filesize ctriv c macs text ls) ↔
      ls.length = 1 := by
  have hfs : 0 ≤ filesize := hc.nonneg.trans hf.le
  have hpos : c < chunkceil c filesize := by
    have := hc.lt
    rw [chunkceil_of_mem hc le_rfl hc.lt, clampTo]
    split <;> omega
  have hne : ls ≠ [] := by
    rintro rfl
    have := hcut.sum
    simp only [sum_nil] at this
    omega
  constructor
  · intro h
    rcases ls with _ | ⟨l, _ | ⟨l', rest⟩⟩
    · exact absurd rfl hne
    · rfl
    · -- the first piece is whole blocks, so the last one starts at 16 or later
      have hl : 16 ≤ l := by
        have h1 := hcut.blocks l (by simp)
        have h2 := hcut.pos l mem_cons_self
        omega
      have hk : 16 ≤ (l :: l' :: rest).dropLast.sum := by
        rw [dropLast_cons_of_ne_nil (cons_ne_nil _ _), sum_cons]
        omega
      have hsum := hcut.sum
      simp only [sum_cons] at hsum
      have hlen : (firstByteOne (chunkceil c filesize - c).toNat).length =
          (chunkceil c filesize - c).toNat := by
        simp only [firstByteOne, length_append, length_cons, length_replicate]
        omega
      have hm := h id 0 {} (firstByteOne (chunkceil c filesize - c).toNat) (by omega)
        (show (-1 : Int) < c by have := hc.nonneg; omega) rfl
      have hcut' : IsCut (l :: l' :: rest)
          (firstByteOne (chunkceil c filesize - c).toNat).length := by rwa [hlen]
      rw [downloadMatches_iff_last {} hc hfs hne hcut' (by omega)] at hm
      exact absurd hm (cbcMac_firstByteOne _ _ hk)
  · intro h E ctriv macs text hlen _ _
    obtain ⟨l, rfl⟩ := length_eq_one_iff.1 h
    have hcut' : IsCut [l] text.length := by
      have : (chunkceil c filesize - c).toNat = text.length := by omega
      exact this ▸ hcut
    rw [downloadMatches_iff_last macs hc hfs hne hcut' (by omega)]
    rfl

/-- A file of 32 bytes in two pieces of one block. -/
theorem download_matches_upload_iff_two_blocks :
    ¬ ∀ (E : Block → Block) (ctriv : UInt64) (macs : ChunkmacMap) (text : List UInt8),
      (text.length : Int) = chunkceil 0 32 - 0 → macs.macsmacSoFarPos < 0 →
      macs.mMacMap.get? 0 = none → DownloadMatches E 32 ctriv 0 macs text [16, 16] := by
  have hc : IsChunk 0 131072 := (isChunk_iff _ _).2 (by omega)
  rw [download_matches_upload_iff hc (by decide) ⟨by decide, by decide, by decide⟩]
  decide

/-- The same two pieces, text `1, 0, 0, ...` and a cipher that does nothing: the chunk MAC is the
    one of the second block alone. -/
theorem download_two_blocks_mac_lost :
    ¬ DownloadMatches id 32 0 0 {} (firstByteOne 32) [16, 16] := by
  have hc : IsChunk 0 131072 := (isChunk_iff _ _).2 (by omega)
  rw [downloadMatches_iff_last {} hc (by decide) (by decide) ⟨by decide, by decide, by decide⟩
    (by decide)]
  exact cbcMac_firstByteOne 32 16 le_rfl

end MegaSdk
