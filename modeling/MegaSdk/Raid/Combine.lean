/-
  File:      MegaSdk/Raid/Combine.lean
  Subject:   WHAT ONE CALL OF combineRaidParts DOES to a state with true part data.

  * `Stretch` -- outputs one after the other, each a stretch of the file at its own position;
    `output_spec` -- the end of the function appends to them and cuts at both ends;
  * `Running` -- the invariant while data is combined: queues from `raidpartspos` on, the file up
    to `outputfilepos` delivered, `leftoverchunk` in between;
  * `Finished` -- after the last, incomplete line: nothing is left, everything is delivered; the
    code does not move `raidpartspos` and `outputfilepos` past that line;
  * `Running.combine` -- **one call** leads from `Running` to one of the two and stops at no
    assertion.
-/
import MegaSdk.Raid.Lines

namespace MegaSdk.Raid

open Base RaidBufferManager Option

/-! ## 1. Chunk boundaries -/

theorem chunkfloor_mono {p q : Int} (hp : 0 ≤ p) (h : p ≤ q) : chunkfloor p ≤ chunkfloor q := by
  obtain ⟨c1, l1, -⟩ := chunk_spec p hp
  obtain ⟨c2, -, u2⟩ := chunk_spec q (by omega)
  by_contra hlt
  have := c2.le_of_lt c1 (by omega)
  omega

theorem calcOutputChunkPos_mono (kind : Manager) {p q : Nat} (h : p ≤ q) :
    kind.calcOutputChunkPos p ≤ kind.calcOutputChunkPos q := by
  cases kind with
  | transfer =>
    have hm := chunkfloor_mono (p := p) (q := q) (by omega) (by omega)
    simp only [Manager.calcOutputChunkPos]
    omega
  | directRead => exact h

/-! ## 2. Outputs -/

def FilePiece.bytes (r : FilePiece) : List UInt8 := r.buf.datastart.getD []

/-- The pieces hold the file from `p` to `e`, one after the other, each at its own position. -/
def Stretch (file : List UInt8) : Nat → List FilePiece → Nat → Prop
  | p, [], e => p = e
  | p, r :: q, e => ∃ n, r = ⟨p, .data (slice (fileByte file) p n)⟩ ∧ Stretch file (p + n) q e

section Stretch

variable {file : List UInt8}

theorem Stretch.append (n : Nat) : ∀ {q : List FilePiece} {p e : Nat}, Stretch file p q e →
    Stretch file p (q ++ [⟨e, .data (slice (fileByte file) e n)⟩]) (e + n)
  | [], _, _, rfl => ⟨n, rfl, rfl⟩
  | _ :: _, _, _, ⟨m, hr, hq⟩ => ⟨m, hr, hq.append n⟩

theorem Stretch.bytes : ∀ {q : List FilePiece} {p e : Nat}, Stretch file p q e →
    p ≤ e ∧ q.flatMap FilePiece.bytes = slice (fileByte file) p (e - p)
  | [], p, _, rfl => ⟨Nat.le_refl p, by rw [Nat.sub_self]; rfl⟩
  | r :: q, p, e, ⟨n, hr, hq⟩ => by
      obtain ⟨hle, hb⟩ := hq.bytes
      refine ⟨by omega, ?_⟩
      rw [List.flatMap_cons, hb, hr, show e - p = n + (e - (p + n)) by omega, slice_add]
      rfl

theorem Stretch.pos_eq : ∀ {pre : List FilePiece} {r : FilePiece} {post : List FilePiece}
    {p e : Nat}, Stretch file p (pre ++ r :: post) e →
    r.pos = p + (pre.flatMap FilePiece.bytes).length
  | [], r, _, p, _, ⟨n, hr, _⟩ => by rw [hr]; rfl
  | r' :: pre, r, post, p, e, ⟨n, hr, hq⟩ => by
      rw [hq.pos_eq, List.flatMap_cons, List.length_append, hr]
      simp only [FilePiece.bytes, Buf.datastart, Option.getD_some, length_slice]
      omega

def reached (s : RaidBufferManager) (p : Nat) : Nat :=
  max s.startfilepos (min p s.deliverlimitpos)

/-- **The end of `combineRaidParts`** appends the stretch of the file from `pos` on, without what
precedes the resume position or is past the delivery limit. -/
theorem output_spec {s : RaidBufferManager} (c : Nat) {pos : Nat} (m : Nat)
    (hd : Stretch file s.startfilepos s.delivered (reached s pos))
    (hw : s.resumewastedbytes = s.startfilepos - pos) :
    ∃ d a, s.output c pos (slice (fileByte file) pos m) =
        { s with
          resumewastedbytes := s.startfilepos - (pos + m)
          delivered := d
          asyncoutputbuffers := a } ∧
      Stretch file s.startfilepos d (reached s (pos + m)) := by
  unfold output
  rw [hw]
  simp only [length_slice, drop_slice, take_slice]
  generalize hn : min m (s.startfilepos - pos) = n
  generalize hx : min (pos + n + (m - n) - s.deliverlimitpos) (m - n) = x
  have hrest : s.startfilepos - pos - n = s.startfilepos - (pos + m) := by omega
  have hlen : min (m - n - x) (m - n) = m - n - x := by omega
  rw [hrest, hlen]
  split_ifs with hpos
  · have hbegin : pos + n = reached s pos := by
      unfold reached
      omega
    have hend : reached s (pos + m) = reached s pos + (m - n - x) := by
      unfold reached
      omega
    refine ⟨_, _, rfl, ?_⟩
    rw [hend, hbegin]
    exact hd.append _
  · have hend : reached s (pos + m) = reached s pos := by
      unfold reached
      omega
    refine ⟨_, _, rfl, ?_⟩
    rwa [hend]

end Stretch

/-! ## 3. The invariant -/

variable {i : Part} {c : Nat}

/-- The queues continue the parts at `raidpartspos`, and what is combined ends there. -/
structure Fed (file : List UInt8) (s : RaidBufferManager) : Prop where
  sectors : s.raidpartspos % 16 = 0
  pos : s.raidpartspos * 5 = s.newdatafilepos
  le : s.newdatafilepos ≤ s.acquirelimitpos
  acquire : s.acquirelimitpos % 80 = 0 ∧ s.acquirelimitpos ≤ file.length ∨
    s.acquirelimitpos = file.length
  limit : s.startfilepos ≤ s.deliverlimitpos ∧ s.deliverlimitpos ≤ s.acquirelimitpos
  chains : ∀ i, Chain (partByte file i) (i.val = s.unusedRaidConnection) (s.transferSize i)
    s.raidpartspos (s.raidinputparts i)

/-- The state while data is combined. -/
structure Running (file : List UInt8) (kind : Manager) (s : RaidBufferManager) : Prop
    extends Fed file s where
  leftover : s.leftoverBytes =
    some (slice (fileByte file) s.outputfilepos s.leftoverchunk.buf.datalen)
  delivered : Stretch file s.startfilepos s.delivered (reached s s.outputfilepos)
  wasted : s.resumewastedbytes = s.startfilepos - s.outputfilepos
  -- the next boundary is not before what is held back
  hold : ∀ p, s.newdatafilepos + 80 ≤ p → p ≤ s.acquirelimitpos →
    s.outputfilepos ≤ kind.calcOutputChunkPos p

/-- The state after the last line, where that is incomplete. -/
structure Finished (file : List UInt8) (s : RaidBufferManager) : Prop where
  pos : s.raidpartspos * 5 = s.newdatafilepos
  lt : s.newdatafilepos < s.acquirelimitpos
  queues : ∀ i, s.raidinputparts i = []
  limit : s.startfilepos ≤ s.deliverlimitpos
  delivered : Stretch file s.startfilepos s.delivered s.deliverlimitpos

section Fronts

variable {file : List UInt8} {s : RaidBufferManager}

theorem shortestFront_eq (s : RaidBufferManager) : s.shortestFront =
    min (min (min (min (min (min 0x10000000 (s.frontLen 5)) (s.frontLen 4)) (s.frontLen 3))
      (s.frontLen 2)) (s.frontLen 1)) (s.frontLen 0) := by
  have step : ∀ (n : Nat) (i : Part), s.shorter n i = min n (s.frontLen i) := fun n i => by
    unfold shorter frontLen
    cases s.raidinputparts i <;> simp
  unfold shortestFront countdown
  simp [step]

theorem Fed.le_size (h : Fed file s) (i) : s.raidpartspos ≤ s.transferSize i := by
  have h1 := le_raidPartSize i.val s.acquirelimitpos
  have h2 := h.pos
  have h3 := h.le
  have h4 := h.sectors
  unfold transferSize
  omega

theorem Fed.frontLen_le (h : Fed file s) (i) :
    s.raidpartspos + s.frontLen i ≤ s.transferSize i ∧ s.frontLen i ≤ 0x10000000 := by
  have hc := h.chains i
  unfold frontLen
  cases hq : s.raidinputparts i with
  | nil =>
    have := h.le_size i
    exact ⟨by simpa using this, by simp⟩
  | cons r q =>
    rw [hq] at hc
    obtain ⟨hp, hg, -⟩ := hc
    have hw := hg.within
    rw [FilePiece.endPos, hp] at hw
    exact ⟨hw, hg.small⟩

theorem shortestFront_le (s : RaidBufferManager) (i) : s.shortestFront ≤ s.frontLen i := by
  have hall := le_of_eq (shortestFront_eq s)
  simp only [Nat.le_min] at hall
  obtain ⟨⟨⟨⟨⟨⟨-, h5⟩, h4⟩, h3⟩, h2⟩, h1⟩, h0⟩ := hall
  fin_cases i
  exacts [h0, h1, h2, h3, h4, h5]

theorem shortestFront_of_le (h : ∀ j : Part, s.frontLen i ≤ s.frontLen j)
    (hsmall : s.frontLen i ≤ 0x10000000) : s.shortestFront = s.frontLen i := by
  refine le_antisymm (shortestFront_le s i) ?_
  rw [shortestFront_eq]
  simp only [Nat.le_min]
  exact ⟨⟨⟨⟨⟨⟨hsmall, h 5⟩, h 4⟩, h 3⟩, h 2⟩, h 1⟩, h 0⟩

theorem partslen_le (s : RaidBufferManager) (i) : s.partslen ≤ s.frontLen i :=
  (Nat.sub_le ..).trans (shortestFront_le s i)

theorem partslen_mod (s : RaidBufferManager) : s.partslen % 16 = 0 := by
  unfold partslen RAIDSECTOR
  omega

section

variable (h : Fed file s)
include h

theorem Fed.fronts_le : s.raidpartspos + s.frontLen 1 ≤ raidPartSize 1 s.acquirelimitpos ∧
    s.raidpartspos + s.frontLen 2 ≤ raidPartSize 2 s.acquirelimitpos ∧
    s.raidpartspos + s.frontLen 3 ≤ raidPartSize 3 s.acquirelimitpos ∧
    s.raidpartspos + s.frontLen 4 ≤ raidPartSize 4 s.acquirelimitpos ∧
    s.raidpartspos + s.frontLen 5 ≤ raidPartSize 5 s.acquirelimitpos :=
  ⟨(h.frontLen_le 1).1, (h.frontLen_le 2).1, (h.frontLen_le 3).1, (h.frontLen_le 4).1,
    (h.frontLen_le 5).1⟩

theorem Fed.sumdatalen_le : s.newdatafilepos + s.sumdatalen ≤ s.acquirelimitpos := by
  obtain ⟨f1, f2, f3, f4, f5⟩ := h.fronts_le
  have hs := sum_raidPartSize s.acquirelimitpos
  have hp := h.pos
  unfold sumdatalen
  omega

section

variable (he : s.processToEnd = true)
include he

/-- Where data and parity are there to the end, every front is the rest of its part. -/
theorem Fed.front_end (i) : s.raidpartspos + s.frontLen i = s.transferSize i := by
  obtain ⟨h1, h2⟩ := of_decide_eq_true he
  obtain ⟨f1, f2, f3, f4, f5⟩ := h.fronts_le
  have hs := sum_raidPartSize s.acquirelimitpos
  have hp := h.pos
  unfold sumdatalen at h1
  unfold xorlen EFFECTIVE_RAIDPARTS at h2
  unfold transferSize
  fin_cases i <;> simp only [Fin.zero_eta, Fin.mk_one, Fin.reduceFinMk] <;> omega

theorem Fed.partslen_end : s.raidpartspos + s.partslen = 16 * (s.acquirelimitpos / 80) := by
  have size : ∀ i : Part, s.raidpartspos + s.frontLen i =
      16 * (s.acquirelimitpos / 80) + min (s.acquirelimitpos % 80 - 16 * (i.val - 1)) 16 :=
    fun i => (h.front_end he i).trans (raidPartSize_eq i.val s.acquirelimitpos)
  have f5 : s.raidpartspos + s.frontLen 5 =
    16 * (s.acquirelimitpos / 80) + min (s.acquirelimitpos % 80 - 16 * 4) 16 := size 5
  -- the shortest front is that of part 5, and it has less than a sector of the last line
  have hmin : s.shortestFront = s.frontLen 5 :=
    shortestFront_of_le (fun j => by have := size j; have := j.isLt; omega) (h.frontLen_le 5).2
  have hpl : s.partslen = s.frontLen 5 - s.frontLen 5 % 16 := by
    rw [← hmin]
    rfl
  have hp := h.sectors
  omega

theorem Fed.rest_end : s.sumdatalen - s.partslen * 5 = s.acquirelimitpos % 80 := by
  obtain ⟨h1, -⟩ := of_decide_eq_true he
  have h2 := h.partslen_end he
  have h3 := h.pos
  omega

end

/-- The lines that are combined end within the data to acquire. -/
theorem Fed.lines_le : s.newdatafilepos + s.partslen * 5 ≤ s.acquirelimitpos := by
  have h1 := h.sumdatalen_le
  have f1 := partslen_le s 1
  have f2 := partslen_le s 2
  have f3 := partslen_le s 3
  have f4 := partslen_le s 4
  have f5 := partslen_le s 5
  unfold sumdatalen at h1
  omega

/-- No assertion of `combineRaidParts` fails, when the slot for the output is free. -/
theorem Fed.checked (hc : s.asyncoutputbuffers c = none) : s.Checked c := by
  refine ⟨hc, h.pos, ?_, h.sumdatalen_le, ?_⟩
  · refine List.all_eq_true.2 fun i _ => ?_
    have hq := h.chains i
    cases hi : s.raidinputparts i with
    | nil => rfl
    | cons r q =>
      rw [hi] at hq
      exact decide_eq_true hq.1
  cases he : s.processToEnd with
  | false => exact .inr (.inl rfl)
  | true =>
    have hr := h.rest_end he
    refine .inr (.inr ?_)
    show s.sumdatalen - s.partslen * 5 ≤ 80
    omega

end

end Fronts

/-! ## 4. The lines of one call -/

section Call

variable {file : List UInt8} {kind : Manager} {s : RaidBufferManager}

section

variable (h : Fed file s)
include h

theorem Fed.front {r : FilePiece} {q : List FilePiece}
    (hi : s.raidinputparts i = r :: q) : r.pos = s.raidpartspos ∧
      Genuine (partByte file i) (i.val = s.unusedRaidConnection) (s.transferSize i) r ∧
      s.frontLen i = r.buf.datalen := by
  have hc := h.chains i
  rw [hi] at hc
  refine ⟨hc.1, hc.2.1, ?_⟩
  unfold frontLen
  rw [hi]

/-- With something to combine, all six first buffers are there, one of them maybe null. -/
theorem Fed.buffers (hp : 0 < s.partslen) :
    Buffers file s.unusedRaidConnection s.raidpartspos s.partslen s.inputbufs := by
  have key : ∀ i, ∃ r q, s.raidinputparts i = r :: q ∧ s.inputbufs i = r.buf.datastart := by
    intro i
    have hle := partslen_le s i
    unfold frontLen at hle
    unfold inputbufs
    cases hi : s.raidinputparts i with
    | nil =>
      rw [hi] at hle
      exact absurd hle (Nat.not_le_of_lt hp)
    | cons r q => exact ⟨r, q, rfl, rfl⟩
  constructor
  · intro i b hb
    obtain ⟨r, q, hi, hin⟩ := key i
    obtain ⟨hpos, hg, hlen⟩ := h.front hi
    have hle := partslen_le s i
    rw [hin] at hb
    cases hr : r.buf with
    | null n =>
      rw [hr] at hb
      cases hb
    | data b' =>
      rw [hr] at hb hlen
      cases hb
      have hs := hg.bytes b hr
      rw [hpos] at hs
      refine ⟨hs, ?_⟩
      rwa [hlen] at hle
  intro i hb
  obtain ⟨r, q, hi, hin⟩ := key i
  obtain ⟨-, hg, -⟩ := h.front hi
  rw [hin] at hb
  cases hr : r.buf with
  | null n => exact hg.null n hr
  | data b =>
    rw [hr] at hb
    cases hb

theorem Fed.lines : outputLines s.inputbufs (s.partslen / RAIDSECTOR) 0 =
    some (slice (fileByte file) s.newdatafilepos (s.partslen * 5)) := by
  have hp := h.pos
  have hm := partslen_mod s
  have hs := h.sectors
  rcases Nat.eq_zero_or_pos s.partslen with h0 | h0
  · rw [h0]
    rfl
  have hl := outputLines_eq (h.buffers h0) (s.partslen / 16) 0 (by omega) (by omega)
  rw [show 5 * (s.raidpartspos + 0) = s.newdatafilepos by omega,
    show 80 * (s.partslen / 16) = s.partslen * 5 by omega] at hl
  exact hl

theorem Fed.combined : Fed file (s.combined s.partslen) where
  sectors := by
    have h1 := h.sectors
    have h2 := partslen_mod s
    show (s.raidpartspos + s.partslen) % 16 = 0
    omega
  pos := by
    have h1 := h.pos
    unfold newdatafilepos at h1
    show (s.raidpartspos + s.partslen) * 5 =
      s.outputfilepos + (s.partslen * 5 + s.leftoverchunk.buf.datalen) + 0
    omega
  le := by
    have h1 := h.lines_le
    unfold newdatafilepos at h1
    show s.outputfilepos + (s.partslen * 5 + s.leftoverchunk.buf.datalen) + 0 ≤ s.acquirelimitpos
    omega
  acquire := h.acquire
  limit := h.limit
  chains i := by
    refine (h.chains i).roll (partslen_mod s) fun r hr => ?_
    obtain ⟨q, hq⟩ : ∃ q, s.raidinputparts i = r :: q := by
      cases hi : s.raidinputparts i with
      | nil =>
        rw [hi] at hr
        cases hr
      | cons r' q =>
        rw [hi] at hr
        cases hr
        exact ⟨q, rfl⟩
    have hle := partslen_le s i
    rwa [(h.front hq).2.2] at hle

/-- **Before the last line** every queue holds the rest of its part. -/
theorem Fed.atLastLine (he : s.processToEnd = true)
    (hf : s.acquirelimitpos = file.length) : AtLastLine file (s.combined s.partslen) := by
  intro i
  have hend := h.front_end he i
  have hpl := h.partslen_end he
  have hle := partslen_le s i
  rw [transferSize, hf] at hend
  show (rollQueue s.partslen (s.raidinputparts i) = [] ∧ _) ∨
    ∃ r q, rollQueue s.partslen (s.raidinputparts i) = r :: q ∧ _
  cases hi : s.raidinputparts i with
  | nil =>
    have h0 : s.frontLen i = 0 := by
      unfold frontLen
      rw [hi]
    exact .inl ⟨rfl, by omega⟩
  | cons r q =>
    obtain ⟨hpos, hg, hlen⟩ := h.front hi
    have hc := h.chains i
    rw [hi] at hc
    rw [transferSize, hf] at hg hc
    have hre : r.endPos = raidPartSize i file.length := by
      unfold FilePiece.endPos
      omega
    show ((if r.buf.datalen ≤ s.partslen then q else _) = [] ∧ _) ∨
      ∃ r' q', (if r.buf.datalen ≤ s.partslen then q else _) = r' :: q' ∧ _
    split
    · exact .inl ⟨hc.2.2.eq_nil (by omega), by omega⟩
    refine .inr ⟨_, q, rfl, ?_, hg.skip (partslen_mod s) (by omega), ?_⟩
    · show r.pos + s.partslen = _
      omega
    · simp only [FilePiece.endPos, datalen_skip] at hre ⊢
      omega

theorem Fed.roll_last (hl : AtLastLine file s) (hf : s.acquirelimitpos = file.length) (i) :
    (s.rollInputBuffers RAIDSECTOR).raidinputparts i = [] := by
  show rollQueue 16 (s.raidinputparts i) = []
  obtain ⟨he, -⟩ | ⟨r, q, he, hp, -, hend⟩ := hl i
  · rw [he]
    rfl
  have hc := h.chains i
  rw [he] at hc
  have hsz := raidPartSize_eq i.val file.length
  have hd : r.buf.datalen ≤ 16 := by
    unfold FilePiece.endPos at hend
    omega
  have hq : q = [] := hc.2.2.eq_nil (by rw [transferSize, hf, hend])
  rw [he]
  show (if r.buf.datalen ≤ 16 then q else _) = []
  rw [if_pos hd, hq]

end

end Call

/-! ## 5. One call -/

section Step

variable {file : List UInt8} {kind : Manager} {s : RaidBufferManager}

/-- The lines are written out and nothing is held back, or what is held back is in
`leftoverchunk`. -/
theorem Running.output (t : RaidBufferManager) {pos m c : Nat} (hf : Fed file t)
    (hlo : t.leftoverBytes =
      some (slice (fileByte file) t.outputfilepos t.leftoverchunk.buf.datalen))
    (hd : Stretch file t.startfilepos t.delivered (reached t pos))
    (hw : t.resumewastedbytes = t.startfilepos - pos) (hpos : t.outputfilepos = pos + m)
    (hh : ∀ p, t.newdatafilepos + 80 ≤ p → p ≤ t.acquirelimitpos →
      t.outputfilepos ≤ kind.calcOutputChunkPos p) :
    Running file kind (t.output c pos (slice (fileByte file) pos m)) := by
  obtain ⟨d, a, e, hd'⟩ := output_spec c m hd hw
  rw [← hpos] at e hd'
  rw [e]
  exact ⟨{ hf with }, hlo, hd', rfl, hh⟩

theorem holdBack_slice (t : RaidBufferManager) {pos m mac : Nat} (hpos : t.outputfilepos = pos + m)
    (h1 : pos ≤ mac) (h2 : mac ≤ pos + m) :
    t.holdBack mac (slice (fileByte file) pos m) =
      some ({ t with
          leftoverchunk := ⟨mac, .data (slice (fileByte file) mac (pos + m - mac))⟩
          outputfilepos := mac },
        slice (fileByte file) pos (mac - pos)) := by
  unfold holdBack
  simp only [hpos, length_slice]
  rw [if_pos (by omega), drop_slice, take_slice, show pos + m - (pos + m - mac) = mac by omega,
    show pos + (m - (pos + m - mac)) = mac by omega,
    show m - (m - (pos + m - mac)) = pos + m - mac by omega,
    show min (m - (pos + m - mac)) m = mac - pos by omega]

theorem Running.finish (h : Running file kind s) (c)
    (hgo : 0 < s.partslen ∨ s.processToEnd = true) :
    ∃ s', (s.combined s.partslen).finish s.processToEnd (s.sumdatalen - s.partslen * 5)
        (kind.calcOutputChunkPos (s.newdatafilepos + s.partslen * 5)) c s.outputfilepos
        (slice (fileByte file) s.outputfilepos (s.leftoverchunk.buf.datalen + s.partslen * 5)) =
          some s' ∧ (Running file kind s' ∨ Finished file s') := by
  have hfed := h.toFed.combined
  set t := s.combined s.partslen
  have hle := h.lines_le
  have hm := partslen_mod s
  have hnew : s.newdatafilepos = s.outputfilepos + s.leftoverchunk.buf.datalen := rfl
  have hout : t.outputfilepos =
      s.outputfilepos + (s.leftoverchunk.buf.datalen + s.partslen * 5) := by
    show s.outputfilepos + (s.partslen * 5 + s.leftoverchunk.buf.datalen) = _
    omega
  have hnew' : t.newdatafilepos = t.outputfilepos := rfl
  have hacq : t.acquirelimitpos = s.acquirelimitpos := rfl
  unfold RaidBufferManager.finish
  by_cases hend : s.processToEnd = true ∧ 0 < s.sumdatalen - s.partslen * 5
  · -- the last line
    obtain ⟨he, hrest⟩ := hend
    have hr := h.rest_end he
    have hpl := h.partslen_end he
    have hfile : s.acquirelimitpos = file.length := by
      rcases h.acquire with ⟨h0, -⟩ | h0
      · omega
      · exact h0
    have hlast := h.toFed.atLastLine he hfile
    have hpos := h.pos
    have hsum : t.outputfilepos + (s.sumdatalen - s.partslen * 5) =
        t.acquirelimitpos := by
      omega
    have hbytes := combineLast_eq hlast
    rw [if_pos ⟨he, hrest⟩, if_pos hsum, hr, hfile, hbytes]
    simp only [bind_eq_bind, bind_some]
    rw [show 80 * (file.length / 80) =
      s.outputfilepos + (s.leftoverchunk.buf.datalen + s.partslen * 5) by omega, ← slice_add]
    obtain ⟨d, a, e, hd⟩ := output_spec
      (s := t.rollInputBuffers RAIDSECTOR) c
      (s.leftoverchunk.buf.datalen + s.partslen * 5 + file.length % 80) h.delivered h.wasted
    refine ⟨_, rfl, .inr ?_⟩
    rw [e]
    have hlim := h.limit
    have hreach : reached (t.rollInputBuffers RAIDSECTOR) (s.outputfilepos +
        (s.leftoverchunk.buf.datalen + s.partslen * 5 + file.length % 80)) =
        s.deliverlimitpos := by
      show max s.startfilepos (min _ s.deliverlimitpos) = _
      omega
    rw [hreach] at hd
    refine ⟨hfed.pos, ?_, hfed.roll_last hlast hfile, hlim.1, hd⟩
    show s.outputfilepos + (s.partslen * 5 + s.leftoverchunk.buf.datalen) + 0 < s.acquirelimitpos
    omega
  rw [if_neg hend]
  by_cases hback : ¬ s.processToEnd = true ∧
      kind.calcOutputChunkPos (s.newdatafilepos + s.partslen * 5) <
        t.outputfilepos
  · -- hold back what is past the boundary
    obtain ⟨hne, hlt⟩ := hback
    have hlow := h.hold (s.newdatafilepos + s.partslen * 5)
      (by rcases hgo with h0 | h0
          · omega
          · exact absurd h0 hne) hle
    generalize hmac : kind.calcOutputChunkPos (s.newdatafilepos + s.partslen * 5) = mac at *
    rw [if_pos ⟨hne, hlt⟩, holdBack_slice _ hout hlow (by omega)]
    refine ⟨_, rfl, .inl (Running.output _ ?_ ?_ h.delivered h.wasted ?_ ?_)⟩
    · have e1 := hfed.pos
      refine ⟨hfed.sectors, ?_, ?_, hfed.acquire, hfed.limit, hfed.chains⟩
      · show t.raidpartspos * 5 = mac + (slice _ _ _).length
        rw [length_slice]
        omega
      show mac + (slice _ _ _).length ≤ t.acquirelimitpos
      rw [length_slice]
      omega
    · show some (slice _ _ _) = some (slice _ _ (slice _ _ _).length)
      rw [length_slice]
    · dsimp only
      omega
    intro p hp _
    have hp' : mac + (s.outputfilepos +
        (s.leftoverchunk.buf.datalen + s.partslen * 5) - mac) + 80 ≤ p := by
      have := hp
      simpa only [newdatafilepos, Buf.datalen, length_slice] using this
    rw [← hmac]
    exact calcOutputChunkPos_mono kind (by omega)
  · rw [if_neg hback]
    refine ⟨_, rfl, .inl (Running.output _ hfed rfl h.delivered h.wasted hout ?_)⟩
    intro p hp hpa
    cases he : s.processToEnd with
    | true =>
      -- everything is written out
      have hpl := h.partslen_end he
      have hpos := h.pos
      omega
    | false =>
      have hge := not_lt.1 fun hlt => hback ⟨by simp [he], hlt⟩
      exact le_trans hge (calcOutputChunkPos_mono kind (by omega))

/-- **One call of `combineRaidParts`** while data is combined. -/
theorem Running.combine (h : Running file kind s) (hc : s.asyncoutputbuffers c = none) :
    ∃ s', s.combineRaidParts kind c = some s' ∧ (Running file kind s' ∨ Finished file s') := by
  unfold combineRaidParts
  rw [if_pos (h.checked hc)]
  split
  · rename_i hgo
    rw [h.leftover, h.toFed.lines]
    simp only [bind_eq_bind, bind_some]
    have hnew : s.newdatafilepos = s.outputfilepos + s.leftoverchunk.buf.datalen := rfl
    have hcat : slice (fileByte file) s.outputfilepos s.leftoverchunk.buf.datalen ++
        slice (fileByte file) s.newdatafilepos (s.partslen * 5) =
        slice (fileByte file) s.outputfilepos
          (s.leftoverchunk.buf.datalen + s.partslen * 5) := by
      rw [hnew, slice_add]
    rw [hcat]
    exact h.finish c hgo
  · exact ⟨s, rfl, .inl h⟩

theorem Finished.combine (h : Finished file s) (hc : s.asyncoutputbuffers c = none) :
    s.combineRaidParts kind c = some s := by
  have front : ∀ i, s.frontLen i = 0 := fun i => by
    unfold frontLen
    rw [h.queues i]
  have hsum : s.sumdatalen = 0 := by
    unfold sumdatalen
    simp [front]
  have hpl : s.partslen = 0 := by
    have := partslen_le s 0
    rw [front] at this
    omega
  have hlt := h.lt
  have he : s.processToEnd = false := by
    refine decide_eq_false fun hp => ?_
    omega
  have hck : s.Checked c := by
    refine ⟨hc, h.pos, List.all_eq_true.2 fun i _ => ?_, ?_, .inl hpl⟩
    · rw [h.queues i]
      rfl
    · omega
  unfold combineRaidParts
  rw [if_pos hck, if_neg (by simp [hpl, he])]

end Step

end MegaSdk.Raid
