/-
  File:      MegaSdk/Sync/FileFingerprint.lean
  Subject:   THE FINGERPRINT OF A FILE, FROM A FILE AND FROM A STREAM (filefingerprint.cpp).

  A large file is covered sparsely, by 128 windows of 64 bytes. A stream cannot go back, so it has to
  meet the windows in order.

  * `genfingerprint`, `genfingerprintStream` -- the two functions of the source, for a file and a
    stream that can be opened and read; what `HashCRC32` computes is a parameter;
  * **`genfingerprint_eq_stream`** -- both give the same fingerprint and the same answer.
-/
import Mathlib

namespace MegaSdk.Fingerprint

open List Option

/-! ## 1. The code -/

/-- `HashCRC32`: `get` gives the four bytes of the checksum. -/
structure HashCRC32 (H : Type) where
  init : H
  add : H → List UInt8 → H
  get : H → H × List UInt8

/-- `FileFingerprint`; `crc` is the memory of the four words. -/
structure FileFingerprint where
  size : Int := -1
  mtime : Int := 0
  crc : List UInt8 := replicate 16 0
  isvalid : Bool := false

def maxFull : Nat := 8192
def sizeofCrc : Nat := 16
def crcSize : Nat := 4
def sizeofBlock : Nat := 4 * sizeofCrc
def blocks : Nat := maxFull / (sizeofBlock * crcSize)

/-- `computeSparseOffset64`, for a size of at least `blockBytes`. -/
def computeSparseOffset64 (size lane_i block_j blocks crcCount blockBytes : Nat) : Nat :=
  let idx64 := lane_i * blocks + block_j
  let numer := (size - blockBytes) * idx64 % 2 ^ 64
  let denom := crcCount * blocks - 1
  let off64 := if denom ≠ 0 then numer / denom else 0
  let clampMax := size - blockBytes
  if off64 > clampMax then clampMax else off64

def offset (size i j : Nat) : Nat := computeSparseOffset64 size i j blocks crcSize sizeofBlock

/-- The memory of a word after `htonl`, where words are little-endian. -/
def htonl (word : List UInt8) : List UInt8 := word.reverse

section Loops

variable {H S : Type} (hash : HashCRC32 H)

def fullCrc (buf : List UInt8) : List Nat → H → List UInt8
  | [], _ => []
  | i :: is, h =>
    let first := i * buf.length / crcSize
    let last := (i + 1) * buf.length / crcSize
    let (h, crcval) := hash.get (hash.add h ((buf.drop first).take (last - first)))
    htonl crcval ++ fullCrc buf is h

variable (readBlock : S → Nat → Option (List UInt8 × S)) (size : Nat)

/-- The inner loop for a large file; `readBlock` is how a window is read. -/
def lane (i : Nat) : List Nat → H × S → Option (H × S)
  | [], state => some state
  | j :: js, (h, s) => do
    let (block, s) ← readBlock s (offset size i j)
    lane i js (hash.add h block, s)

def sparseCrc : List Nat → H × S → Option (List UInt8)
  | [], _ => some []
  | i :: is, state => do
    let (h, s) ← lane hash readBlock size i (range blocks) state
    let (h, crcval) := hash.get h
    let rest ← sparseCrc is (h, s)
    some (htonl crcval ++ rest)

end Loops

structure FileAccess where
  data : List UInt8
  mtime : Int

def FileAccess.frawread (fa : FileAccess) (len pos : Nat) : Option (List UInt8) :=
  if pos + len ≤ fa.data.length then some ((fa.data.drop pos).take len) else none

/-- `InputStreamAccess::read`, on the bytes that are left. -/
def read (is : List UInt8) (len : Nat) : Option (List UInt8 × List UInt8) :=
  if len ≤ is.length then some (is.take len, is.drop len) else none

def uintMax : Nat := 2 ^ 32 - 1

/-- The loop that skips `fullstep` bytes of a stream. -/
def seek (is : List UInt8) (fullstep : Nat) : Option (List UInt8) :=
  if 0 < fullstep then do
    let step := if fullstep > uintMax then uintMax else fullstep
    let (_, is) ← read is step
    seek is (fullstep - step)
  else some is
termination_by fullstep
decreasing_by
  unfold uintMax
  split <;> omega

/-- A window of a stream, of which `current` bytes have been read. -/
def readWindow (state : Nat × List UInt8) (offset : Nat) :
    Option (List UInt8 × (Nat × List UInt8)) := do
  let is ← seek state.2 (offset - state.1)
  let (block, is) ← read is sizeofBlock
  some (block, (offset + sizeofBlock, is))

/-- `memset` of what a tiny file leaves of the words. -/
def nulPad (bytes : List UInt8) : List UInt8 := bytes ++ replicate (sizeofCrc - bytes.length) 0

namespace FileFingerprint

/-- What both functions do before and after they compute `newcrc`; there is none if a read fails. -/
def update (fp : FileFingerprint) (mtime size : Int) (ignoremtime : Bool) :
    Option (List UInt8) → FileFingerprint × Bool
  | none => ({ fp with mtime := mtime, size := -1 }, true)
  | some newcrc =>
    (⟨size, mtime, newcrc, true⟩, fp.mtime != mtime && !ignoremtime || fp.size != size ||
      fp.crc != newcrc || !fp.isvalid)

variable {H : Type} (hash : HashCRC32 H) (fp : FileFingerprint) (ignoremtime : Bool)

def genfingerprint (fa : FileAccess) : FileFingerprint × Bool :=
  let size := fa.data.length
  fp.update fa.mtime size ignoremtime <|
    if size ≤ sizeofCrc then (fa.frawread size 0).map nulPad
    else if size ≤ maxFull then
      (fa.frawread size 0).map fun buf => fullCrc hash buf (range crcSize) hash.init
    else
      sparseCrc hash (fun _ pos => (fa.frawread sizeofBlock pos).map (·, ())) size (range crcSize)
        (hash.init, ())

def genfingerprintStream (is : List UInt8) (cmtime : Int) : FileFingerprint × Bool :=
  let size := is.length
  fp.update cmtime size ignoremtime <|
    if size ≤ sizeofCrc then (read is size).map fun x => nulPad x.1
    else if size ≤ maxFull then
      (read is size).map fun x => fullCrc hash x.1 (range crcSize) hash.init
    else sparseCrc hash readWindow size (range crcSize) (hash.init, (0, is))

end FileFingerprint

/-! ## 2. The windows -/

section Windows

variable {size i j k k' : Nat}

def window (size k : Nat) : Nat := (size - 64) * k / 127

theorem offset_eq (hsize : size * 128 < 2 ^ 64) (hi : i < 4) (hj : j < 32) :
    offset size i j = window size (i * 32 + j) := by
  have hidx : i * 32 + j ≤ 127 := by omega
  have hle : (size - 64) * (i * 32 + j) ≤ (size - 64) * 127 := Nat.mul_le_mul_left _ hidx
  have hclamp : (size - 64) * (i * 32 + j) / 127 ≤ size - 64 :=
    Nat.div_le_of_le_mul (by rwa [mul_comm 127])
  show (if (size - 64) * (i * 32 + j) % 2 ^ 64 / 127 > size - 64 then size - 64
    else (size - 64) * (i * 32 + j) % 2 ^ 64 / 127) = _
  rw [Nat.mod_eq_of_lt (by omega), if_neg hclamp.not_gt]
  rfl

theorem window_inside (hsize : 8192 < size) (hk : k ≤ 127) : window size k + 64 ≤ size := by
  have hle : (size - 64) * k ≤ 127 * (size - 64) := by
    rw [mul_comm 127]
    exact Nat.mul_le_mul_left _ hk
  have := Nat.div_le_of_le_mul hle
  unfold window
  omega

theorem window_step (hsize : 8192 < size) (hk : k < k') : window size k + 64 ≤ window size k' := by
  unfold window
  rw [← Nat.add_mul_div_right _ _ (by decide : 0 < 127)]
  refine Nat.div_le_div_right ?_
  calc (size - 64) * k + 64 * 127
      ≤ (size - 64) * k + (size - 64) := by omega
    _ = (size - 64) * (k + 1) := (Nat.mul_succ _ _).symm
    _ ≤ (size - 64) * k' := Nat.mul_le_mul_left _ hk

end Windows

/-! ## 3. Reading them -/

section Reading

variable {H S S' : Type} (hash : HashCRC32 H) {data : List UInt8}

/-- The windows are read one after the other, in the states `st`. -/
def Reads (data : List UInt8) (readBlock : S → Nat → Option (List UInt8 × S)) (st : Nat → S) : Prop :=
  ∀ k < 128, readBlock (st k) (window data.length k) =
    some ((data.drop (window data.length k)).take 64, st (k + 1))

section

variable {readBlock : S → Nat → Option (List UInt8 × S)} {st : Nat → S}
  {readBlock' : S' → Nat → Option (List UInt8 × S')} {st' : Nat → S'}
  (hsize : data.length * 128 < 2 ^ 64) (hr : Reads data readBlock st) (hr' : Reads data readBlock' st')
include hsize hr hr'

/-- Two ways to read the windows feed the same bytes to the checksum. -/
theorem lane_eq {i : Nat} (hi : i < 4) : ∀ (n j : Nat) (h : H), j + n ≤ 32 → ∃ h',
    lane hash readBlock data.length i (range' j n) (h, st (i * 32 + j)) =
      some (h', st (i * 32 + (j + n))) ∧
    lane hash readBlock' data.length i (range' j n) (h, st' (i * 32 + j)) =
      some (h', st' (i * 32 + (j + n)))
  | 0, _, h, _ => ⟨h, rfl, rfl⟩
  | n + 1, j, h, hn => by
      obtain ⟨h', e, e'⟩ := lane_eq hi n (j + 1)
        (hash.add h ((data.drop (window data.length (i * 32 + j))).take 64)) (by omega)
      rw [add_right_comm j 1 n] at e e'
      refine ⟨h', ?_, ?_⟩
      · rwa [range'_succ, lane, offset_eq hsize hi (by omega), hr _ (by omega)]
      · rwa [range'_succ, lane, offset_eq hsize hi (by omega), hr' _ (by omega)]

theorem sparseCrc_eq : ∀ (n i : Nat) (h : H), i + n ≤ 4 → ∃ crc,
    sparseCrc hash readBlock data.length (range' i n) (h, st (i * 32)) = some crc ∧
    sparseCrc hash readBlock' data.length (range' i n) (h, st' (i * 32)) = some crc
  | 0, _, _, _ => ⟨[], rfl, rfl⟩
  | n + 1, i, h, hn => by
      obtain ⟨h', e, e'⟩ := lane_eq hash hsize hr hr' (i := i) (by omega) 32 0 h le_rfl
      obtain ⟨crc, c, c'⟩ := sparseCrc_eq n (i + 1) (hash.get h').1 (by omega)
      have hb : range blocks = range' 0 32 := range_eq_range'
      rw [Nat.succ_mul] at c c'
      refine ⟨htonl (hash.get h').2 ++ crc, ?_, ?_⟩
      · rw [range'_succ, sparseCrc, hb]
        exact bind_eq_some_iff.2 ⟨_, e, bind_eq_some_iff.2 ⟨_, c, rfl⟩⟩
      · rw [range'_succ, sparseCrc, hb]
        exact bind_eq_some_iff.2 ⟨_, e', bind_eq_some_iff.2 ⟨_, c', rfl⟩⟩

end

theorem read_eq {is : List UInt8} {n : Nat} (h : n ≤ is.length) :
    read is n = some (is.take n, is.drop n) := if_pos h

theorem seek_eq (is : List UInt8) (n : Nat) (h : n ≤ is.length) : seek is n = some (is.drop n) := by
  fun_induction seek is n with
  | case1 is n hpos step ih =>
    have hstep : step ≤ n := by
      show (if n > uintMax then uintMax else n) ≤ n
      split <;> omega
    rw [read_eq (hstep.trans h)]
    show seek (is.drop step) (n - step) = _
    rw [ih, drop_drop, Nat.add_sub_cancel' hstep]
    rw [length_drop]
    omega
  | case2 is n hpos =>
    rw [Nat.eq_zero_of_not_pos hpos]
    rfl

/-- The bytes of a stream that have been read after `k` windows. -/
def consumed (size : Nat) : Nat → Nat
  | 0 => 0
  | k + 1 => window size k + 64

theorem reads_file (hsize : 8192 < data.length) (mtime : Int) : Reads data
    (fun (_ : Unit) pos => (FileAccess.frawread ⟨data, mtime⟩ sizeofBlock pos).map (·, ()))
    fun _ => () := fun k hk => by
  have hin : window data.length k + sizeofBlock ≤ data.length := window_inside hsize (by omega)
  simp only [FileAccess.frawread, if_pos hin]
  rfl

/-- **A stream never has to go back.** -/
theorem reads_stream (hsize : 8192 < data.length) : Reads data readWindow
    fun k => (consumed data.length k, data.drop (consumed data.length k)) := fun k hk => by
  have hin := window_inside hsize (k := k) (by omega)
  have hle : consumed data.length k ≤ window data.length k := by
    cases k with
    | zero => exact Nat.zero_le _
    | succ k => exact window_step hsize (Nat.lt_succ_self k)
  have hseek : seek (data.drop (consumed data.length k))
      (window data.length k - consumed data.length k) = some (data.drop (window data.length k)) := by
    rw [seek_eq _ _ (by rw [length_drop]; omega), drop_drop, Nat.add_sub_cancel' hle]
  have hread : read (data.drop (window data.length k)) sizeofBlock = _ :=
    read_eq (by show 64 ≤ _; rw [length_drop]; omega)
  unfold readWindow
  rw [hseek, bind_eq_bind, bind_some, hread, drop_drop]
  rfl

end Reading

/-! ## 4. The fingerprints -/

namespace FileFingerprint

variable {H : Type} (hash : HashCRC32 H)

/-- **A file and a stream of the same bytes have the same fingerprint**, which is valid, and the two
    functions answer alike. The windows of a large file lie in it, each behind the one before. -/
theorem genfingerprint_eq_stream (fp : FileFingerprint) (data : List UInt8) (mtime : Int)
    (ignoremtime : Bool) (hsize : data.length * 128 < 2 ^ 64) :
    fp.genfingerprint hash ignoremtime ⟨data, mtime⟩ =
      fp.genfingerprintStream hash ignoremtime data mtime ∧
    (fp.genfingerprint hash ignoremtime ⟨data, mtime⟩).1.isvalid = true ∧
    (fp.genfingerprint hash ignoremtime ⟨data, mtime⟩).1.size = data.length ∧
    (maxFull < data.length → ∀ i < crcSize, ∀ j < blocks,
      offset data.length i j + sizeofBlock ≤ data.length ∧
      ∀ i' < crcSize, ∀ j' < blocks, i * blocks + j < i' * blocks + j' →
        offset data.length i j + sizeofBlock ≤ offset data.length i' j') := by
  have hall : (FileAccess.frawread ⟨data, mtime⟩ data.length 0) = some data := by
    simp [FileAccess.frawread]
  have hall' : read data data.length = some (data, []) := by
    simp [read]
  suffices h : ∃ crc, fp.genfingerprint hash ignoremtime ⟨data, mtime⟩ =
        fp.update mtime data.length ignoremtime (some crc) ∧
      fp.genfingerprintStream hash ignoremtime data mtime =
        fp.update mtime data.length ignoremtime (some crc) by
    obtain ⟨crc, e, e'⟩ := h
    rw [e, e']
    refine ⟨rfl, rfl, rfl, fun hlarge i hi j hj => ⟨?_, fun i' hi' j' hj' hlt => ?_⟩⟩
    · rw [offset_eq hsize hi hj]
      have hi' : i < 4 := hi
      have hj' : j < 32 := hj
      exact window_inside hlarge (by omega)
    · rw [offset_eq hsize hi hj, offset_eq hsize hi' hj']
      exact window_step hlarge hlt
  unfold genfingerprint genfingerprintStream
  dsimp only
  rw [hall, hall']
  split
  · exact ⟨_, rfl, rfl⟩
  split
  · exact ⟨_, rfl, rfl⟩
  rename_i hsmall
  have hlarge : 8192 < data.length := not_le.1 hsmall
  obtain ⟨crc, e, e'⟩ := sparseCrc_eq hash hsize (reads_file hlarge mtime)
    (reads_stream hlarge) 4 0 hash.init le_rfl
  have hr : range crcSize = range' 0 4 := range_eq_range'
  rw [hr]
  exact ⟨crc, congrArg _ e, congrArg _ e'⟩

/-- A checksum: the sum of the bytes; `get` starts it again. -/
def byteSum : HashCRC32 UInt32 where
  init := 0
  add h bytes := bytes.foldl (fun h b => h + b.toUInt32) h
  get h := (0, [h.toUInt8, (h >>> 8).toUInt8, (h >>> 16).toUInt8, (h >>> 24).toUInt8])

/-- A large file: its windows begin 78 bytes apart or more, and are read from the stream in order. -/
theorem genfingerprint_eq_stream_sparse :
    let data := (List.range 10000).map UInt8.ofNat
    let fp : FileFingerprint := { size := 3, mtime := 5, isvalid := true }
    fp.genfingerprint byteSum false ⟨data, 7⟩ = fp.genfingerprintStream byteSum false data 7 ∧
      offset 10000 3 30 + 64 ≤ offset 10000 3 31 ∧ offset 10000 3 31 + 64 = 10000 := by
  intro data fp
  have hlen : data.length = 10000 := by simp [data]
  have h := genfingerprint_eq_stream byteSum fp data 7 false (by omega)
  have hw := h.2.2.2 (by rw [hlen]; decide) 3 (by decide) 30 (by decide)
  rw [hlen] at hw
  exact ⟨h.1, hw.2 3 (by decide) 31 (by decide) (by decide), by decide⟩

end FileFingerprint

end MegaSdk.Fingerprint
