/-
  File:      MegaSdk/Ws/Transfer.lean
  Subject:   THE CHUNK MACs OF A TRANSFER uploaded over websockets (megaclient_wsupload.cpp). The
             engine collects the MACs of confirmed chunks, the client thread merges them into the
             transfer's map and folds the front of the map.

  * `fileChunks` -- the chunks of a file, in order (`mem_fileChunks`, `pairwise_fileChunks`);
  * `Front` -- the folded record lies in the contiguous part, and of that no chunk is missing. So a
    chunk that is new to the map lies after the folded record;
  * `merge_spec` -- merging chunks after the folded record ends, and keeps the map a folded form of
    the plain one;
  * `macsmac_whole` -- with every chunk in the plain map its file MAC is that of the file.
-/
import MegaSdk.Chunk.Fold
import MegaSdk.Ws.Pool

namespace MegaSdk.Ws

open Base List

/-! ## 1. The chunks of a file -/

/-- The chunks of a file from `pos` on; every chunk has a byte, so `size` rounds are enough. -/
def fileChunksFrom (size : Nat) : Nat → Nat → List (Nat × Nat)
  | 0, _ => []
  | k + 1, pos =>
    if size ≤ pos then []
    else (pos, wsFreshChunkAdvance pos size) ::
      fileChunksFrom size k (pos + wsFreshChunkAdvance pos size)

/-- The chunks of a file of `size` bytes, as position and length. -/
def fileChunks (size : Nat) : List (Nat × Nat) := fileChunksFrom size size 0

/-- A chunk starts at `pos`, or the file ends there. -/
def AtChunk (size pos : Nat) : Prop := pos = size ∨ ∃ e, IsChunk pos e

variable {size pos k : Nat} (r : Nat × Nat)

theorem atChunk_zero (size) : AtChunk size 0 := .inr ⟨131072, by simp [isChunk_iff]⟩

/-- The chunk at `pos` ends where the chunk of the lattice ends, or with the file. -/
theorem advance_of_isChunk {e : Int} (h : IsChunk pos e) (hlt : pos < size) :
    ((pos + wsFreshChunkAdvance pos size : Nat) : Int) = min e size := by
  have he := chunkSizeAtPosition_of_isChunk h
  unfold wsFreshChunkAdvance
  omega

theorem AtChunk.advance (h : AtChunk size pos) (hlt : pos < size) :
    AtChunk size (pos + wsFreshChunkAdvance pos size) := by
  obtain ⟨e, he⟩ := h.resolve_left (by omega)
  have hadv := advance_of_isChunk he hlt
  by_cases hle : e ≤ size
  · obtain ⟨e', he'⟩ := he.next
    exact .inr ⟨e', by rw [hadv, min_eq_left hle]; exact he'⟩
  · exact .inl (by omega)

theorem mem_fileChunksFrom {r} (h : AtChunk size pos) (hk : size ≤ pos + k) :
    r ∈ fileChunksFrom size k pos ↔ pos ≤ r.1 ∧ (∃ e, IsChunk r.1 e) ∧ r.1 < size ∧
      r.2 = wsFreshChunkAdvance r.1 size := by
  induction k generalizing pos with
  | zero =>
    simp only [fileChunksFrom, not_mem_nil, false_iff]
    omega
  | succ k ih =>
    unfold fileChunksFrom
    split
    · simp only [not_mem_nil, false_iff]
      omega
    rename_i hlt
    have hpos := wsFreshChunkAdvance_pos (not_le.1 hlt)
    obtain ⟨e, he⟩ := h.resolve_left (by omega)
    rw [mem_cons, ih (h.advance (not_le.1 hlt)) (by omega)]
    constructor
    · rintro (rfl | ⟨hle, hrest⟩)
      · exact ⟨le_rfl, ⟨e, he⟩, not_le.1 hlt, rfl⟩
      · exact ⟨by omega, hrest⟩
    rintro ⟨hle, ⟨e', he'⟩, hrest⟩
    by_cases hr : r.1 = pos
    · exact .inl (Prod.ext hr (by rw [hrest.2, hr]))
    · -- a later chunk starts at or after the end of this one
      have hend := he.le_of_lt he' (by omega)
      have hadv := advance_of_isChunk he (not_le.1 hlt)
      exact .inr ⟨by omega, ⟨e', he'⟩, hrest⟩

/-- **The chunks of a file** are those of the lattice, cut at its end. -/
theorem mem_fileChunks {r} : r ∈ fileChunks size ↔
    (∃ e, IsChunk r.1 e) ∧ r.1 < size ∧ r.2 = wsFreshChunkAdvance r.1 size := by
  rw [fileChunks, mem_fileChunksFrom (atChunk_zero size) (by omega)]
  simp

theorem fileChunks_len_pos {r} (h : r ∈ fileChunks size) : 0 < r.2 := by
  obtain ⟨_, hlt, hr⟩ := mem_fileChunks.1 h
  rw [hr]
  exact wsFreshChunkAdvance_pos hlt

theorem fileChunks_unique {r r' : Nat × Nat} {b : Nat} (h : r ∈ fileChunks size)
    (h' : r' ∈ fileChunks size) (hb : Covers r b) (hb' : Covers r' b) : r = r' := by
  obtain ⟨⟨e, he⟩, hlt, hr⟩ := mem_fileChunks.1 h
  obtain ⟨⟨e', he'⟩, hlt', hr'⟩ := mem_fileChunks.1 h'
  have hadv := advance_of_isChunk he hlt
  have hadv' := advance_of_isChunk he' hlt'
  unfold Covers at hb hb'
  have hpos := (he.unique he' (p := b) (by omega) (by omega) (by omega) (by omega)).1
  have hfst : r.1 = r'.1 := by exact_mod_cast hpos
  exact Prod.ext hfst (by rw [hr, hr', hfst])

theorem fileChunks_inj {r r' : Nat × Nat} (h : r ∈ fileChunks size) (h' : r' ∈ fileChunks size)
    (hpos : r.1 = r'.1) : r = r' := by
  have hlen := fileChunks_len_pos h
  have hlen' := fileChunks_len_pos h'
  exact fileChunks_unique h h' ⟨le_rfl, by omega⟩ ⟨by omega, by omega⟩

theorem pairwise_fileChunksFrom : (∀ r ∈ fileChunksFrom size k pos, pos ≤ r.1) ∧
    (fileChunksFrom size k pos).Pairwise fun a b => a.1 < b.1 := by
  induction k generalizing pos with
  | zero => exact ⟨nofun, .nil⟩
  | succ k ih =>
    unfold fileChunksFrom
    split
    · exact ⟨nofun, .nil⟩
    rename_i hlt
    have hpos := wsFreshChunkAdvance_pos (not_le.1 hlt)
    obtain ⟨hle, hsorted⟩ := @ih (pos + wsFreshChunkAdvance pos size)
    refine ⟨fun r hr => ?_, pairwise_cons.2 ⟨fun r hr => ?_, hsorted⟩⟩
    · rcases mem_cons.1 hr with rfl | hr
      · exact le_rfl
      · have := hle r hr
        omega
    have := hle r hr
    omega

theorem pairwise_fileChunks (size) : (fileChunks size).Pairwise fun a b => a.1 < b.1 :=
  pairwise_fileChunksFrom.2

def headAfter (size : Nat) : Nat → Nat
  | 0 => 0
  | k + 1 => headAfter size k + wsFreshChunkAdvance (headAfter size k) size

theorem headAfter_spec (size k) :
    headAfter size k ≤ size ∧ AtChunk size (headAfter size k) ∧
      (k ≤ headAfter size k ∨ headAfter size k = size) := by
  induction k with
  | zero => exact ⟨Nat.zero_le _, atChunk_zero size, .inl le_rfl⟩
  | succ k ih =>
    obtain ⟨hle, hat, hk⟩ := ih
    rw [headAfter]
    rcases hle.lt_or_eq with hlt | heq
    · have hpos := wsFreshChunkAdvance_pos hlt
      exact ⟨wsFreshChunkAdvance_le hle, hat.advance hlt, .inl (by omega)⟩
    · have hzero : wsFreshChunkAdvance (headAfter size k) size = 0 := by
        unfold wsFreshChunkAdvance
        omega
      rw [hzero]
      exact ⟨hle, hat, .inr heq⟩

/-- **The head position walks the chunks of `ChunkedHash`**: it meets each chunk start before the end
    of the file and nothing else, moves to the end of the chunk, and reaches the end of the file. -/
theorem headAfter_lattice (size : Nat) : ∃ n, headAfter size n = size ∧
    (∀ k < n, headAfter size k < size ∧
      chunkfloor (headAfter size k) = headAfter size k ∧ headAfter size k % 16 = 0 ∧
      (wsFreshChunkAdvance (headAfter size k) size : Int) =
        chunkceil (headAfter size k) size - headAfter size k ∧
      (k + 1 < n → wsFreshChunkAdvance (headAfter size k) size =
        chunkSizeAtPosition (headAfter size k))) ∧
    ∀ c < size, chunkfloor c = c → ∃ k < n, headAfter size k = c := by
  have hend : ∃ n, headAfter size n = size := by
    have := headAfter_spec size size
    exact ⟨size, by omega⟩
  have hlt : ∀ k < Nat.find hend, headAfter size k < size := fun k hk =>
    (headAfter_spec size k).1.lt_of_ne (Nat.find_min hend hk)
  have hchunk : ∀ k < Nat.find hend, ∃ e, IsChunk (headAfter size k) e ∧
      ((headAfter size (k + 1) : Nat) : Int) = min e size := fun k hk => by
    obtain ⟨e, he⟩ := (headAfter_spec size k).2.1.resolve_left (hlt k hk).ne
    exact ⟨e, he, advance_of_isChunk he (hlt k hk)⟩
  refine ⟨Nat.find hend, Nat.find_spec hend, fun k hk => ?_, fun c hc hfloor => ?_⟩
  · obtain ⟨e, he, hnext⟩ := hchunk k hk
    rw [headAfter] at hnext
    refine ⟨hlt k hk, chunkfloor_of_mem he le_rfl he.lt, ?_, ?_, fun hk' => ?_⟩
    · have := he.mod_block
      omega
    · rw [chunkceil_of_mem he le_rfl he.lt, clampTo]
      split <;> omega
    · have := hlt (k + 1) hk'
      rw [headAfter] at this
      unfold wsFreshChunkAdvance at this ⊢
      omega
  -- as long as the walk has not met `c` it is before it
  have hbefore : ∀ k ≤ Nat.find hend, (∃ j < k, headAfter size j = c) ∨ headAfter size k ≤ c := by
    intro k hk
    induction k with
    | zero => exact .inr (Nat.zero_le _)
    | succ k ih =>
      rcases ih (by omega) with ⟨j, hj, hjc⟩ | hle
      · exact .inl ⟨j, by omega, hjc⟩
      rcases hle.eq_or_lt with heq | hkc
      · exact .inl ⟨k, by omega, heq⟩
      · obtain ⟨e, he, hnext⟩ := hchunk k (by omega)
        have := he.le_of_lt (isChunk_of_floor (by omega) hfloor) (by omega)
        exact .inr (by omega)
  refine (hbefore _ le_rfl).resolve_right ?_
  rw [Nat.find_spec hend]
  omega

/-! ## 2. The MACs of the chunks and of the file -/

/-- The MAC of the range `r` of a text under the key `E`. -/
def rangeMac (E : Block → Block) (ctriv : UInt64) (content : List UInt8) (r : Nat × Nat) : Block :=
  cbcMac E ((content.drop r.1).take r.2) (macInit ctriv)

/-- **The file MAC of a whole file**: the chunk MACs in file order, coalesced. -/
def fileMac (E : Block → Block) (ctriv : UInt64) (content : List UInt8) : Int :=
  ChunkmacMap.metaMac ((fileChunks content.length).foldl
    (fun mac r => E (Block.xor mac (rangeMac E ctriv content r))) Block.zero)

theorem entries_encryptChunk (E : Block → Block) (ctriv : UInt64) (content : List UInt8) :
    (encryptChunk E ctriv r.1 ((content.drop r.1).take r.2)).mMacMap.entries =
      [((r.1 : Int), { mac := rangeMac E ctriv content r })] := by
  unfold encryptChunk ChunkmacMap.ctrEncrypt ctrCrypt rangeMac
  simp only [macEncrypt_eq]
  rfl

def finishedMac (E : Block → Block) (ctriv : UInt64) (content : List UInt8) (r : Nat × Nat) :
    ChunkMAC := { mac := rangeMac E ctriv content r, finished := true }

/-! ## 3. The transfer -/

/-- What the client keeps of a `Transfer` for its upload; the local file is its content, and
    `hasSessionUrl` says that `ws_session_url` is not empty. -/
structure Transfer where
  size : Nat
  content : List UInt8
  transferkey : Block → Block
  ctriv : UInt64
  chunkmacs : ChunkmacMap := {}
  pos : Nat := 0
  progresscompleted : Nat := 0
  hasSessionUrl : Bool := false
  paused : Bool := false

namespace Transfer

variable (t : Transfer)

def upload : Pool.NewUpload where
  size := t.size
  hasSessionUrl := t.hasSessionUrl
  pos := t.pos
  progresscompleted := t.progresscompleted
  paused := t.paused
  key := t.transferkey
  ctrIv := t.ctriv
  content := t.content

def start : Nat := if t.hasSessionUrl then min t.pos t.size else 0

/-- The MAC of the range `r`, in a map of its own. -/
def macsOf (r : Nat × Nat) : ChunkmacMap :=
  encryptChunk t.transferkey t.ctriv r.1 ((t.content.drop r.1).take r.2)

/-- The record of the finished chunk `r`. -/
def record (r : Nat × Nat) : ChunkMAC := finishedMac t.transferkey t.ctriv t.content r

/-- `wsMergeDrainedChunkMacs`, with the updates that were drained from the engine. A round of the
    first loop passes an entry, a round of the second removes one or marks the first, so the loops
    are cut off after that many rounds. -/
def wsMergeDrainedChunkMacs (macUpdates : List ChunkmacMap) : Option Transfer :=
  match macUpdates.filter fun m => m.size != 0 with
  | [] => some t
  | updates => do
      let m := updates.foldl (fun m u => m.finishedUploadChunks u.mMacMap) t.chunkmacs
      let m ← m.updateContiguousProgress t.size (m.size + 1)
      let m' ← m.updateMacsmacProgress t.transferkey (2 * m.size + 2)
      some { t with chunkmacs := m', pos := m.progresscontiguous.toNat }

/-- The assertion of `finishedUploadChunks`: the chunks of the updates lie after the folded record of
    the map. -/
def Ahead (updates : List ChunkmacMap) : Prop :=
  ∀ u ∈ updates, ∀ x ∈ u.mMacMap.entries, t.chunkmacs.macsmacSoFarPos < x.1

/-- The map holds a finished MAC of the chunk `r`: in an entry of its own, or in the folded record. -/
def Holds (r : Nat × Nat) : Prop :=
  t.chunkmacs.finishedAt r.1 = true ∨ (r.1 : Int) ≤ t.chunkmacs.macsmacSoFarPos

end Transfer

end MegaSdk.Ws

namespace MegaSdk.ChunkmacMap

open Base Ws

variable {E : Block → Block} {m plain : ChunkmacMap} {r : ChunkMAC} {size : Nat}

/-! ## 4. Chunks after the folded record -/

/-- The folded record lies in the contiguous part, of which no chunk is missing. -/
structure Front (m plain : ChunkmacMap) : Prop where
  behind : m.macsmacSoFarPos < m.progresscontiguous
  whole : ∀ c e, IsChunk c e → c < m.progresscontiguous → ∃ r, (c, r) ∈ plain.mMacMap.entries

theorem Front.after (h : Front m plain) {k e : Int} (hk : IsChunk k e)
    (hnew : ∀ r, (k, r) ∉ plain.mMacMap.entries) : m.macsmacSoFarPos < k := by
  by_contra hle
  obtain ⟨r, hr⟩ := h.whole k e hk (by have := h.behind; omega)
  exact hnew r hr

theorem Front.setEntry (h : Front m plain) (k : Int) (r) :
    Front (m.setEntry k r) (plain.setEntry k r) where
  behind := h.behind
  whole := by
    intro c e hc hlt
    obtain ⟨r', hr'⟩ := h.whole c e hc hlt
    by_cases hck : c = k
    · exact ⟨r, OrdMap.mem_entries_insert.2 (.inl (by rw [hck]))⟩
    · exact ⟨r', OrdMap.mem_entries_insert.2 (.inr ⟨hr', hck⟩)⟩

theorem Folded.mem_plain (h : Folded E m plain) {k : Int} (hr : (k, r) ∈ m.mMacMap.entries)
    (hk : m.macsmacSoFarPos < k) : (k, r) ∈ plain.mMacMap.entries := by
  obtain ⟨_, ⟨_, heq⟩ | ⟨pre, post, hp, _, _, hm⟩⟩ := h
  · rwa [← heq]
  rw [hm] at hr
  rcases List.mem_cons.1 hr with hr | hr
  · exact absurd (congrArg Prod.fst hr) hk.ne'
  · rw [hp]
    exact List.mem_append_right _ hr

theorem Folded.mem_or_le (h : Folded E m plain) {k : Int}
    (hr : (k, r) ∈ plain.mMacMap.entries) : (k, r) ∈ m.mMacMap.entries ∨ k ≤ m.macsmacSoFarPos := by
  obtain ⟨_, ⟨_, heq⟩ | ⟨pre, post, hp, hpre, _, hm⟩⟩ := h
  · exact .inl (by rwa [heq])
  rw [hp] at hr
  rcases List.mem_append.1 hr with hr | hr
  · exact .inr (hpre _ hr)
  · exact .inl (by rw [hm]; exact List.mem_cons_of_mem _ hr)

/-- **Chunks after the folded record** come in one after another. One that the map has already comes
    with the same record. -/
theorem MacInv.insertAll (fin : Nat × Nat → ChunkMAC)
    (hfin : ∀ r, (fin r).finished = true ∧ (fin r).isMacsmacSoFar = false) (hsize : size < 2 ^ 63)
    (l : List (Nat × Nat)) (h : MacInv E m plain) (hfront : Front m plain)
    (hl : ∀ r ∈ l, r ∈ fileChunks size) (hafter : ∀ r ∈ l, m.macsmacSoFarPos < r.1)
    (hsame : ∀ r ∈ l, ∀ c, ((r.1 : Int), c) ∈ plain.mMacMap.entries → c = fin r) :
    MacInv E (l.foldl (fun m r => m.setEntry r.1 (fin r)) m)
        (l.foldl (fun m r => m.setEntry r.1 (fin r)) plain) ∧
      Front (l.foldl (fun m r => m.setEntry r.1 (fin r)) m)
          (l.foldl (fun m r => m.setEntry r.1 (fin r)) plain) ∧
        ∀ x, x ∈ (l.foldl (fun m r => m.setEntry r.1 (fin r)) plain).mMacMap.entries ↔
          x ∈ plain.mMacMap.entries ∨ ∃ r ∈ l, x = ((r.1 : Int), fin r) := by
  induction l generalizing m plain with
  | nil => exact ⟨h, hfront, fun x => by simp⟩
  | cons r l ih =>
    have hmem := hl r List.mem_cons_self
    obtain ⟨⟨e, he⟩, hlt, _⟩ := mem_fileChunks.1 hmem
    have hstep : MacInv E (m.setEntry r.1 (fin r)) (plain.setEntry r.1 (fin r)) :=
      ⟨h.tracked.setEntry ⟨e, he⟩ (by omega) (.inl (hfin r).1),
        h.folded.setEntry (hafter r List.mem_cons_self) (hfin r).2⟩
    have hother : ∀ r' ∈ l, ∀ c,
        ((r'.1 : Int), c) ∈ (plain.setEntry r.1 (fin r)).mMacMap.entries → c = fin r' := by
      intro r' hr' c hc
      rcases OrdMap.mem_entries_insert.1 hc with hc | ⟨hc, _⟩
      · have hpos : (r'.1 : Int) = r.1 := congrArg Prod.fst hc
        rw [fileChunks_inj (hl r' (List.mem_cons_of_mem _ hr')) hmem (by exact_mod_cast hpos)]
        exact congrArg Prod.snd hc
      · exact hsame r' (List.mem_cons_of_mem _ hr') c hc
    obtain ⟨hinv, hf, hentries⟩ := ih hstep (hfront.setEntry _ _)
      (fun r' hr' => hl r' (List.mem_cons_of_mem _ hr'))
      (fun r' hr' => hafter r' (List.mem_cons_of_mem _ hr')) hother
    refine ⟨hinv, hf, fun x => ?_⟩
    rw [List.foldl_cons, hentries]
    have hins : x ∈ (plain.setEntry r.1 (fin r)).mMacMap.entries ↔
        x ∈ plain.mMacMap.entries ∨ x = ((r.1 : Int), fin r) := by
      constructor
      · intro hx
        rcases OrdMap.mem_entries_insert.1 hx with hx | hx
        · exact .inr hx
        · exact .inl hx.1
      rintro (hx | rfl)
      · by_cases hk : x.1 = r.1
        · have hrec := hsame r List.mem_cons_self x.2 (hk ▸ hx)
          exact OrdMap.mem_entries_insert.2 (.inl (Prod.ext hk hrec))
        · exact OrdMap.mem_entries_insert.2 (.inr ⟨hx, hk⟩)
      · exact OrdMap.mem_entries_insert.2 (.inl rfl)
    rw [hins, or_assoc, List.exists_mem_cons_iff]

/-! ## 5. The two loops of the merge -/

theorem Front.round (h : Front m plain) (hm : MacInv E m plain)
    (hkeys : ∀ x ∈ plain.mMacMap.entries, x.1 < size)
    (hf : m.finishedAt m.progresscontiguous = true) :
    m.progresscontiguous < chunkceil m.progresscontiguous size ∧
      Front (m.setProgressContiguous (chunkceil m.progresscontiguous size)) plain := by
  obtain ⟨r, hr, _⟩ := finishedAt_iff.1 hf
  obtain ⟨e, he⟩ := hm.tracked.lattice _ hr
  have hplain := hm.folded.mem_plain hr h.behind
  have hlt := hkeys _ hplain
  have hceil : chunkceil m.progresscontiguous size = clampTo size e :=
    chunkceil_of_mem he le_rfl he.lt _
  have hup : m.progresscontiguous < chunkceil m.progresscontiguous size := by
    rw [hceil]
    have := he.lt
    unfold clampTo
    split <;> omega
  have hle : chunkceil m.progresscontiguous size ≤ e := by
    rw [hceil]
    exact clampTo_le _ _
  refine ⟨hup, h.behind.trans hup, fun c e' hc hlt' => ?_⟩
  by_cases hcp : c < m.progresscontiguous
  · exact h.whole c e' hc hcp
  have hce : m.progresscontiguous = c :=
    (he.unique hc (not_lt.1 hcp) (lt_of_lt_of_le hlt' hle) le_rfl hc.lt).1
  exact ⟨r, hce ▸ hplain⟩

/-- How many entries lie at or after the end of the contiguous part. -/
def entriesAhead (m : ChunkmacMap) : Nat :=
  m.mMacMap.entries.countP fun x => decide (m.progresscontiguous ≤ x.1)

theorem entriesAhead_round {p : Int} (hf : m.finishedAt m.progresscontiguous = true)
    (hp : m.progresscontiguous < p) : entriesAhead (m.setProgressContiguous p) < entriesAhead m := by
  obtain ⟨r, hr, _⟩ := finishedAt_iff.1 hf
  unfold entriesAhead setProgressContiguous
  refine countP_lt_of_mem (fun x hx => ?_) hr ?_ ?_
  · simp only [decide_eq_true_eq] at hx ⊢
    omega
  · simp
  · simpa using hp

theorem MacInv.contiguous_ends (h : MacInv E m plain) (hfront : Front m plain)
    (hkeys : ∀ x ∈ plain.mMacMap.entries, x.1 < size) :
    ∃ m', m.updateContiguousProgress size (m.size + 1) = some m' ∧ MacInv E m' plain ∧
      Front m' plain := by
  have hround : ∀ m, MacInv E m plain ∧ Front m plain →
      m.finishedAt m.progresscontiguous = true →
        (MacInv E (m.setProgressContiguous (chunkceil m.progresscontiguous size)) plain ∧
          Front (m.setProgressContiguous (chunkceil m.progresscontiguous size)) plain) ∧
        entriesAhead (m.setProgressContiguous (chunkceil m.progresscontiguous size)) <
          entriesAhead m := by
    intro m hm hf
    obtain ⟨hup, hfr⟩ := hm.2.round hm.1 hkeys hf
    exact ⟨⟨⟨hm.1.tracked.setProgressContiguous hf, hm.1.folded⟩, hfr⟩, entriesAhead_round hf hup⟩
  obtain ⟨m', hm'⟩ := whileFuel_ends (fun m => MacInv E m plain ∧ Front m plain) entriesAhead
    hround ⟨h, hfront⟩ (Nat.lt_succ_of_le List.countP_le_length)
  exact ⟨m', hm', (whileFuel_inv (fun m => MacInv E m plain ∧ Front m plain)
    (fun m hm hf => (hround m hm hf).1) ⟨h, hfront⟩ hm').1⟩

theorem MacInv.fold_front (h : MacInv E m plain) (hfront : Front m plain) :
    ∃ m', m.updateMacsmacProgress E (2 * m.size + 2) = some m' ∧ MacInv E m' plain ∧
      Front m' plain := by
  have hfuel : foldMeasure m < 2 * m.size + 2 := by
    unfold foldMeasure
    split <;> omega
  obtain ⟨m', hm'⟩ := h.fold_ends hfuel
  refine ⟨m', hm', (whileFuel_inv (fun m => MacInv E m plain ∧ Front m plain) (fun m hm hc => ?_)
    ⟨h, hfront⟩ hm').1⟩
  obtain ⟨hinv, hpos, _⟩ := hm.1.foldFront hc
  refine ⟨hinv, ?_, ?_⟩
  · rwa [progresscontiguous_foldFront]
  · rw [progresscontiguous_foldFront]
    exact hm.2.whole

end MegaSdk.ChunkmacMap

namespace MegaSdk.Ws

open Base ChunkmacMap

/-! ## 6. The merge -/

variable {t : Transfer}

theorem finishedUploadChunks_macsOf (t : Transfer) (m : ChunkmacMap) :
    m.finishedUploadChunks (t.macsOf r).mMacMap = m.setEntry r.1 (t.record r) := by
  unfold ChunkmacMap.finishedUploadChunks Transfer.macsOf
  rw [entries_encryptChunk]
  rfl

theorem size_macsOf (t : Transfer) : (t.macsOf r).size = 1 := by
  rfl

theorem Transfer.ahead_map {l : List (Nat × Nat)} :
    t.Ahead (l.map t.macsOf) ↔ ∀ r ∈ l, t.chunkmacs.macsmacSoFarPos < r.1 := by
  unfold Transfer.Ahead
  simp only [List.forall_mem_map]
  refine forall₂_congr fun r _ => ?_
  unfold Transfer.macsOf
  rw [entries_encryptChunk]
  simp

/-- **Merging the MACs of chunks after the folded record ends.** The map is then a folded form of the
    plain one with the new chunks. -/
theorem Transfer.merge_spec (t : Transfer) {plain : ChunkmacMap} {todo : List (Nat × Nat)}
    (h : MacInv t.transferkey t.chunkmacs plain) (hfront : Front t.chunkmacs plain)
    (hsize : t.size < 2 ^ 63) (hkeys : ∀ x ∈ plain.mMacMap.entries, x.1 < t.size)
    (htodo : ∀ r ∈ todo, r ∈ fileChunks t.size)
    (hafter : ∀ r ∈ todo, t.chunkmacs.macsmacSoFarPos < r.1)
    (hsame : ∀ r ∈ todo, ∀ c, ((r.1 : Int), c) ∈ plain.mMacMap.entries → c = t.record r) :
    ∃ m p plain', t.wsMergeDrainedChunkMacs (todo.map t.macsOf) =
        some { t with chunkmacs := m, pos := p } ∧
      MacInv t.transferkey m plain' ∧ Front m plain' ∧
        ∀ x, x ∈ plain'.mMacMap.entries ↔
          x ∈ plain.mMacMap.entries ∨ ∃ r ∈ todo, x = ((r.1 : Int), t.record r) := by
  have hfilter : (todo.map t.macsOf).filter (fun m => m.size != 0) = todo.map t.macsOf :=
    List.filter_eq_self.2 fun m hm => by
      obtain ⟨r, _, rfl⟩ := List.mem_map.1 hm
      rfl
  unfold wsMergeDrainedChunkMacs
  rw [hfilter]
  cases todo with
  | nil => exact ⟨t.chunkmacs, t.pos, plain, rfl, h, hfront, fun x => by simp⟩
  | cons r l =>
    obtain ⟨hinv, hf, hentries⟩ := h.insertAll t.record (fun _ => ⟨rfl, rfl⟩) hsize (r :: l)
      hfront htodo hafter hsame
    have hfold : ((r :: l).map t.macsOf).foldl
        (fun m u => m.finishedUploadChunks u.mMacMap) t.chunkmacs =
          (r :: l).foldl (fun m r => m.setEntry r.1 (t.record r)) t.chunkmacs := by
      rw [List.foldl_map]
      simp [finishedUploadChunks_macsOf]
    rw [List.map_cons] at hfold ⊢
    simp only [hfold]
    generalize (r :: l).foldl (fun m r => m.setEntry r.1 (t.record r)) plain = plain' at *
    have hkeys' : ∀ x ∈ plain'.mMacMap.entries, x.1 < t.size := by
      intro x hx
      rcases (hentries x).1 hx with hx | ⟨r', hr', rfl⟩
      · exact hkeys x hx
      · exact Int.ofNat_lt.2 (mem_fileChunks.1 (htodo r' hr')).2.1
    obtain ⟨m₁, hm₁, hinv₁, hf₁⟩ := hinv.contiguous_ends hf hkeys'
    obtain ⟨m₂, hm₂, hinv₂, hf₂⟩ := hinv₁.fold_front hf₁
    refine ⟨m₂, m₁.progresscontiguous.toNat, plain', ?_, hinv₂, hf₂, hentries⟩
    simp only [hm₁, hm₂, Option.bind_eq_bind, Option.bind_some]

/-- **The file MAC.** A plain map with exactly the chunks of the file has the file's MAC. -/
theorem macsmac_whole (E : Block → Block) (ctriv : UInt64) (content : List UInt8)
    {plain : ChunkmacMap} (h : ∀ x, x ∈ plain.mMacMap.entries ↔
      ∃ r ∈ fileChunks content.length, x = ((r.1 : Int), finishedMac E ctriv content r)) :
    plain.macsmac E = fileMac E ctriv content := by
  have hentries : plain.mMacMap.entries = (fileChunks content.length).map fun r =>
      ((r.1 : Int), finishedMac E ctriv content r) := by
    have hsorted : ((fileChunks content.length).map fun r =>
        ((r.1 : Int), finishedMac E ctriv content r)).Pairwise fun a b => a.1 < b.1 := by
      rw [List.pairwise_map]
      exact (pairwise_fileChunks _).imp Int.ofNat_lt.2
    refine OrdMap.entries_eq_of_mem_iff hsorted fun x => ?_
    rw [h, List.mem_map]
    simp [eq_comm]
  unfold ChunkmacMap.macsmac fileMac
  rw [hentries, List.foldl_map]
  rfl

end MegaSdk.Ws
