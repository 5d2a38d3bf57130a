/-
  File:      MegaSdk/Chunk/MacMap.lean
  Subject:   `chunkmac_map` (utils.h, utils.cpp): the MACs of a transfer's chunks, and the file MAC
             they coalesce to.

  A map from chunk start to `ChunkMAC`, with the position up to which the leading entries have been
  folded into one record (`macsmacSoFarPos`) and the end of the contiguous finished front part
  (`progresscontiguous`). The block cipher under the file's key is a parameter.

  * `serialize`, `unserialize` -- the record written to the state cache, with the round trip
    `unserialize_serialize`.
-/
import MegaSdk.Base.Loop
import MegaSdk.Base.OrdMap
import MegaSdk.Chunk.Lattice
import MegaSdk.Crypto.SymmCipher

namespace MegaSdk

open Base List OrdMap

structure ChunkMAC where
  mac : Block := Block.zero
  /-- Bytes processed of a partial chunk, `0` when finished, `unsigned(-1)` in the folded record. -/
  offset : UInt32 := 0
  finished : Bool := false
  deriving DecidableEq

def unsignedMinusOne : UInt32 := 4294967295

def ChunkMAC.notStarted (c : ChunkMAC) : Bool := !c.finished && c.offset == 0

/-- The very first record can be the MAC calculation so far. -/
def ChunkMAC.isMacsmacSoFar (c : ChunkMAC) : Bool := c.finished && c.offset == unsignedMinusOne

/-- `chunkmac_map`. -/
structure ChunkmacMap where
  mMacMap : OrdMap Int ChunkMAC := OrdMap.empty
  macsmacSoFarPos : Int := -1
  progresscontiguous : Int := 0
  deriving DecidableEq

namespace ChunkmacMap

variable (m : ChunkmacMap)

def entry (pos : Int) : ChunkMAC := (m.mMacMap.get? pos).getD {}

def setEntry (pos : Int) (c : ChunkMAC) : ChunkmacMap :=
  { m with mMacMap := m.mMacMap.insert pos c }

def size (m : ChunkmacMap) : Nat := m.mMacMap.size

def setProgressContiguous (p : Int) : ChunkmacMap :=
  { m with progresscontiguous := p }

def finishedAt (pos : Int) : Bool :=
  match m.mMacMap.get? pos with
  | some c => c.finished
  | none => false

/-! ## 1. Entries -/

/-- `finishedUploadChunks`: every entry of `macs` comes into the map, marked finished. -/
def finishedUploadChunks (macs : OrdMap Int ChunkMAC) : ChunkmacMap :=
  macs.entries.foldl (fun m e => m.setEntry e.1 { e.2 with finished := true }) m

/-- `copyEntriesTo(other)`: every entry of `m` comes into `other`. -/
def copyEntriesTo (m other : ChunkmacMap) : ChunkmacMap :=
  m.mMacMap.entries.foldl (fun o e => o.setEntry e.1 e.2) other

/-- `copyEntryTo(pos, other)`, as written: `mMacMap[pos] = other.mMacMap[pos]`. Both subscripts
    create a missing entry, so the result is the new `(this, other)`. -/
def copyEntryTo (pos : Int) (other : ChunkmacMap) : ChunkmacMap × ChunkmacMap :=
  (m.setEntry pos (other.entry pos), other.setEntry pos (other.entry pos))

section Cipher

variable (E : Block → Block)

/-- `ctr_encrypt`: the chunk's ciphertext, and the map with the chunk's MAC. -/
def ctrEncrypt (m : ChunkmacMap) (chunkid : Int) (chunk : List UInt8) (startpos : Int)
    (ctriv : UInt64) (finishesChunk : Bool) : List UInt8 × ChunkmacMap :=
  let (out, mac) := ctrCrypt E chunk startpos ctriv (m.entry chunkid).mac true true
  (out, m.setEntry chunkid { mac := mac, offset := 0, finished := finishesChunk })

/-- `ctr_decrypt`: the plaintext of the part of the chunk, and the map with its MAC carried on. -/
def ctrDecrypt (m : ChunkmacMap) (chunkid : Int) (part : List UInt8) (startpos : Int)
    (ctriv : UInt64) (finishesChunk : Bool) : List UInt8 × ChunkmacMap :=
  let c := m.entry chunkid
  let (out, mac) := ctrCrypt E part startpos ctriv c.mac false c.notStarted
  let c' : ChunkMAC :=
    if finishesChunk then { mac := mac, offset := 0, finished := true }
    else { mac := mac, offset := c.offset + UInt32.ofNat part.length, finished := false }
  (out, m.setEntry chunkid c')

/-! ## 2. The file MAC -/

def macsmacRound (mac : Block) (c : ChunkMAC) : Block :=
  if c.isMacsmacSoFar then c.mac else E (Block.xor mac c.mac)

/-- `m[0] ^= m[1]; m[1] = m[2] ^ m[3];` on 32-bit words, then the first 64 bits as `int64_t`. -/
def metaMac (mac : Block) : Int :=
  let word (a b : Nat) : List UInt8 :=
    (List.range 4).map fun i => mac (Fin.ofNat 16 (a + i)) ^^^ mac (Fin.ofNat 16 (b + i))
  Int.bmod (leNat (word 0 4 ++ word 8 12)) (2 ^ 64)

/-- `macsmac`: the chunk MACs, in file order, coalesced to the file MAC. -/
def macsmac (m : ChunkmacMap) : Int :=
  metaMac (m.mMacMap.entries.foldl (fun mac e => macsmacRound E mac e.2) Block.zero)

/-- The loop condition of `updateMacsmacProgress`: never past the contiguous part, and room is
    left for the calculation with late gaps. -/
def canFold (m : ChunkmacMap) : Bool :=
  m.macsmacSoFarPos + 1024 * 1024 * 5 < m.progresscontiguous && m.size > 32 * 3 + 5

/-- The loop body of `updateMacsmacProgress`. The two branches that read a missing entry are
    excluded by the loop condition. -/
def foldFront (m : ChunkmacMap) : ChunkmacMap :=
  match m.mMacMap.entries with
  | (k, c) :: rest =>
    if c.isMacsmacSoFar then
      match rest with
      | (k', next) :: _ =>
        let mac := E (Block.xor c.mac next.mac)
        { m with
          mMacMap := (m.mMacMap.insert k' { next with mac := mac, offset := unsignedMinusOne }).eraseFirst
          macsmacSoFarPos := k' }
      | [] => m
    else if k == 0 && m.finishedAt 0 then
      { m with
        mMacMap := m.mMacMap.insert k
          { c with mac := E (Block.xor Block.zero c.mac), offset := unsignedMinusOne }
        macsmacSoFarPos := 0 }
    else m
  | [] => m

/-- `updateMacsmacProgress`; `none` while the loop has not ended. -/
def updateMacsmacProgress (fuel : Nat) (m : ChunkmacMap) : Option ChunkmacMap :=
  whileFuel canFold (foldFront E) fuel m

end Cipher

/-! ## 3. Progress -/

/-- `updateContiguousProgress`; `none` while the loop has not ended. -/
def updateContiguousProgress (fileSize : Int) (fuel : Nat) (m : ChunkmacMap) :
    Option ChunkmacMap :=
  whileFuel (fun m => m.finishedAt m.progresscontiguous)
    (fun m => m.setProgressContiguous (chunkceil m.progresscontiguous fileSize)) fuel m

/-- The three results of `calcprogress` that its loop accumulates, with the position of the
    folded record. -/
structure Progress where
  chunkpos : Int := 0
  progresscompleted : Int := 0
  sumOfPartialChunks : Int := 0
  macsmacSoFarPos : Int
  deriving DecidableEq

def calcprogressRound (size : Int) (p : Progress) (e : Int × ChunkMAC) : Progress :=
  let ceil := chunkceil e.1 size
  if e.2.isMacsmacSoFar then
    { p with chunkpos := ceil, progresscompleted := ceil, macsmacSoFarPos := e.1 }
  else if p.chunkpos == e.1 && e.2.finished then
    { p with chunkpos := ceil, progresscompleted := ceil }
  else if e.2.finished then
    { p with progresscompleted := p.progresscompleted + (ceil - chunkfloor e.1) }
  else
    { p with
      progresscompleted := p.progresscompleted + e.2.offset.toNat
      sumOfPartialChunks := p.sumOfPartialChunks + e.2.offset.toNat }

/-- `calcprogress`: the accumulated results, and the map with its positions set. -/
def calcprogress (m : ChunkmacMap) (size : Int) : Progress × ChunkmacMap :=
  let p := m.mMacMap.entries.foldl (calcprogressRound size)
    { macsmacSoFarPos := m.macsmacSoFarPos }
  (p, { m with macsmacSoFarPos := p.macsmacSoFarPos, progresscontiguous := p.chunkpos })

/-! ## 4. The state cache -/

def moffBytes (p : Int) : List UInt8 := leBytes 8 (p % 2 ^ 64).toNat

def moffOf (bs : List UInt8) : Int := Int.bmod (leNat bs) (2 ^ 64)

/-- The memory image of a `ChunkMAC`: 16 bytes MAC, 4 bytes offset, the flag and 3 bytes padding. -/
def chunkMACBytes (c : ChunkMAC) : List UInt8 :=
  (List.ofFn c.mac) ++ leBytes 4 c.offset.toNat ++ [if c.finished then 1 else 0, 0, 0, 0]

/-- A memory image read as a `ChunkMAC`. -/
def chunkMACOf (bs : List UInt8) : ChunkMAC where
  mac := blockAt bs 0
  offset := UInt32.ofNat (leNat ((bs.drop 16).take 4))
  finished := bs.getD 20 0 != 0

def RECORDSIZE : Nat := 8 + 24

/-- `serialize`: the number of entries as `unsigned short`, then every key and record. -/
def serialize (m : ChunkmacMap) : List UInt8 :=
  leBytes 2 (m.size % 65536) ++
    m.mMacMap.entries.flatMap fun e => moffBytes e.1 ++ chunkMACBytes e.2

/-- `ll` rounds of the loop of `unserialize`. -/
def unserializeRounds : Nat → ChunkmacMap → List UInt8 → Option (ChunkmacMap × List UInt8)
  | 0, m, buf => some (m, buf)
  | ll + 1, m, buf => do
      let (key, buf) ← takeFixed 8 buf
      let (record, buf) ← takeFixed 24 buf
      let pos := moffOf key
      let c := chunkMACOf record
      let m := m.setEntry pos c
      let m := if c.isMacsmacSoFar then { m with macsmacSoFarPos := pos } else m
      unserializeRounds ll m buf

/-- `unserialize` into `m`: the map and the rest of the buffer, `none` when the buffer is too short
    for the entries it announces. -/
def unserialize (m : ChunkmacMap) (buf : List UInt8) : Option (ChunkmacMap × List UInt8) := do
  let (count, rest) ← takeFixed 2 buf
  let ll := leNat count
  if ll * RECORDSIZE + 2 > buf.length then none
  else unserializeRounds ll m rest

/-! ## 5. The round trip through the state cache -/

theorem emod_bmod_of_int64 {p : Int} (h1 : -2 ^ 63 ≤ p) (h2 : p < 2 ^ 63) :
    (p % 2 ^ 64).bmod (2 ^ 64) = p := by
  have hcast : ((2 ^ 64 : Nat) : Int) = 2 ^ 64 := by norm_num
  rw [← hcast, Int.emod_bmod]
  exact Int.bmod_eq_of_le (by rw [hcast]; omega) (by rw [hcast]; omega)

theorem moffOf_moffBytes {p : Int} (h1 : -2 ^ 63 ≤ p) (h2 : p < 2 ^ 63) :
    moffOf (moffBytes p) = p := by
  have hlt : (p % 2 ^ 64).toNat < 256 ^ 8 := by omega
  have hnn : ((p % 2 ^ 64).toNat : Int) = p % 2 ^ 64 := Int.toNat_of_nonneg (by omega)
  calc moffOf (moffBytes p) = ((p % 2 ^ 64).toNat : Int).bmod (2 ^ 64) := by
        unfold moffOf moffBytes
        rw [leNat_leBytes 8 _ hlt]
    _ = (p % 2 ^ 64).bmod (2 ^ 64) := by rw [hnn]
    _ = p := emod_bmod_of_int64 h1 h2

@[simp] theorem length_chunkMACBytes (c : ChunkMAC) : (chunkMACBytes c).length = 24 := by
  simp [chunkMACBytes]

theorem chunkMACOf_chunkMACBytes (c : ChunkMAC) : chunkMACOf (chunkMACBytes c) = c := by
  have hmac : blockAt (chunkMACBytes c) 0 = c.mac := by
    funext i
    simp only [blockAt, chunkMACBytes, append_assoc, getD_eq_getElem?_getD]
    rw [getElem?_append_left (by simp), List.getElem?_ofFn]
    simp
  have hdrop : (chunkMACBytes c).drop 16 =
      leBytes 4 c.offset.toNat ++ [if c.finished then 1 else 0, 0, 0, 0] := by
    rw [chunkMACBytes, append_assoc]
    exact drop_left' (by simp)
  have hoff : leNat (((chunkMACBytes c).drop 16).take 4) = c.offset.toNat := by
    rw [hdrop, take_left' (by simp)]
    exact leNat_leBytes _ _ (by simpa using c.offset.toNat_lt)
  have hfin : (chunkMACBytes c).getD 20 0 = if c.finished then 1 else 0 := by
    rfl
  cases c with
  | mk mac offset finished =>
    simp only [chunkMACOf, hmac, hoff, hfin]
    cases finished <;> simp

theorem length_records : ∀ l : List (Int × ChunkMAC),
    (l.flatMap fun e => moffBytes e.1 ++ chunkMACBytes e.2).length = l.length * RECORDSIZE
  | [] => rfl
  | e :: l => by
      have hkey : (moffBytes e.1).length = 8 := by simp [moffBytes]
      rw [flatMap_cons, length_append, length_append, length_records l,
        length_chunkMACBytes, length_cons, RECORDSIZE]
      omega

/-- What one round of `unserialize` makes of the key and record it reads. -/
def readEntry (m : ChunkmacMap) (e : Int × ChunkMAC) : ChunkmacMap :=
  let m := m.setEntry e.1 e.2
  if e.2.isMacsmacSoFar then { m with macsmacSoFarPos := e.1 } else m

theorem unserializeRounds_flatMap : ∀ (l : List (Int × ChunkMAC)) (m : ChunkmacMap)
    (rest : List UInt8), (∀ e ∈ l, -2 ^ 63 ≤ e.1 ∧ e.1 < 2 ^ 63) →
      unserializeRounds l.length m
          ((l.flatMap fun e => moffBytes e.1 ++ chunkMACBytes e.2) ++ rest) =
        some (l.foldl readEntry m, rest)
  | [], _, _, _ => rfl
  | e :: l, m, rest, h => by
      obtain ⟨h1, h2⟩ := h e mem_cons_self
      have hkey : (moffBytes e.1).length = 8 := by simp [moffBytes]
      simp only [length_cons, flatMap_cons, append_assoc, unserializeRounds,
        takeFixed_append hkey, takeFixed_append (length_chunkMACBytes e.2), Option.bind_eq_bind,
        Option.bind_some, moffOf_moffBytes h1 h2, chunkMACOf_chunkMACBytes]
      exact unserializeRounds_flatMap l _ rest fun e he => h e (mem_cons_of_mem _ he)

theorem foldl_readEntry_entries : ∀ (l : List (Int × ChunkMAC)) (m : ChunkmacMap),
    (m.mMacMap.entries ++ l).Pairwise (fun a b => a.1 < b.1) →
      (l.foldl readEntry m).mMacMap.entries = m.mMacMap.entries ++ l
  | [], m, _ => by simp
  | e :: l, m, h => by
      have hfront : ∀ a ∈ m.mMacMap.entries, a.1 < e.1 := fun a ha =>
        (pairwise_append.1 h).2.2 a ha e mem_cons_self
      have hone : (readEntry m e).mMacMap.entries = m.mMacMap.entries ++ [e] := by
        have hins : insertL e.1 e.2 (m.mMacMap.entries ++ []) = m.mMacMap.entries ++ [e] :=
          insertL_append hfront
        rw [append_nil] at hins
        unfold readEntry
        split <;> exact hins
      rw [foldl_cons, foldl_readEntry_entries l (readEntry m e), hone, append_assoc]
      · rfl
      · rwa [hone, append_assoc]

@[simp] theorem progresscontiguous_foldl_readEntry : ∀ (l : List (Int × ChunkMAC))
    (m : ChunkmacMap), (l.foldl readEntry m).progresscontiguous = m.progresscontiguous
  | [], _ => rfl
  | e :: l, m => by
      rw [foldl_cons, progresscontiguous_foldl_readEntry l]
      unfold readEntry
      split <;> rfl

/-- **The state cache gives the entries back.** The position of the folded record is read off the
    records, and the contiguous part is the caller's to recompute. -/
theorem unserialize_serialize (m : ChunkmacMap) (rest : List UInt8) (hsize : m.size < 65536)
    (hkeys : ∀ e ∈ m.mMacMap.entries, -2 ^ 63 ≤ e.1 ∧ e.1 < 2 ^ 63) :
    ∃ m', unserialize {} (m.serialize ++ rest) = some (m', rest) ∧ m'.mMacMap = m.mMacMap ∧
      m' = m.mMacMap.entries.foldl readEntry {} := by
  refine ⟨m.mMacMap.entries.foldl readEntry {}, ?_, ?_, rfl⟩
  · have hcount : leNat (leBytes 2 (m.size % 65536)) = m.mMacMap.entries.length := by
      rw [leNat_leBytes _ _ (by omega), Nat.mod_eq_of_lt hsize]
      rfl
    simp only [unserialize, serialize, append_assoc,
      takeFixed_append (length_leBytes 2 (m.size % 65536)), Option.bind_eq_bind, Option.bind_some,
      hcount, length_append, length_leBytes, length_records]
    rw [if_neg (by omega)]
    exact unserializeRounds_flatMap _ _ rest hkeys
  · refine ext_entries ?_
    exact foldl_readEntry_entries _ _ m.mMacMap.sorted

end ChunkmacMap

end MegaSdk
