/-
  File:      MegaSdk/Crypto/SymmCipher.lean
  Subject:   `SymmCipher::ctr_crypt` (crypto/cryptopp.cpp): counter-mode encryption with a CBC-MAC
             over the plaintext.

  The block cipher `E` under the current key is a parameter. The key stream of block `n` is
  `E (ctriv ‖ n)`; the MAC starts from `ctriv ‖ ctriv` and chains `E` over the plaintext blocks.
  Encryption and decryption have a MAC loop each: the one of encryption runs over whole blocks of
  a buffer the caller has padded with zero bytes, the one of decryption stops at the last whole
  block and xors the remaining bytes only (`xorblockLen`). Both are kept.

  * `macEncrypt_eq`, `macDecrypt_eq` -- both loops are the fold `cbcMac` over the zero-padded
    blocks of the text, so they agree (`macDecrypt_eq_macEncrypt`);
  * `cbcMac_append` -- the MAC of a text is the MAC of its second part continued from the MAC of
    its first part, when the first part is whole blocks;
  * `ctrProcess_append`, `ctrProcess_ctrProcess` -- the key stream is a function of the file
    position, and applying it twice is the identity.
-/
import MegaSdk.Base.Bytes

namespace MegaSdk

open Base List

def BLOCKSIZE : Nat := 16

/-- Byte `i` of the memory image of a 64-bit number, lowest byte first. -/
def leByte (n : UInt64) (i : Nat) : UInt8 := UInt8.ofNat (n.toNat / 256 ^ i % 256)

/-- The counter block `ctriv ‖ n`: the memory image of `ctriv`, then `n` with the highest byte
    first (`setint64`). -/
def ctrBlock (ctriv : UInt64) (n : Nat) : Block := fun i =>
  if i.val < 8 then leByte ctriv i else UInt8.ofNat (n / 256 ^ (15 - i.val) % 256)

/-- The initial MAC: `ctriv` twice. -/
def macInit (ctriv : UInt64) : Block := fun i => leByte ctriv (i.val % 8)

/-- The block at byte `p` of a buffer padded with zero bytes. -/
def blockAt (data : List UInt8) (p : Nat) : Block := fun i => data.getD (p + i.val) 0

/-- `xorblock(src, dst, len)`: only the first `len` bytes. -/
def xorblockLen (src dst : Block) (len : Nat) : Block := fun i =>
  if i.val < len then dst i ^^^ src i else dst i

section Cipher

variable (E : Block → Block)

/-- `CTR_Mode<AES>::Encryption::ProcessData` with the counter of file position `pos`. -/
def ctrProcess (ctriv : UInt64) (pos : Int) (data : List UInt8) : List UInt8 :=
  data.mapIdx fun k b =>
    b ^^^ E (ctrBlock ctriv ((pos / BLOCKSIZE).toNat + k / 16)) ⟨k % 16, Nat.mod_lt _ (by decide)⟩

/-- `n` rounds of the MAC loop from byte `p` of the buffer on. -/
def macRounds (data : List UInt8) : Nat → Nat → Block → Block
  | 0, _, mac => mac
  | n + 1, p, mac => macRounds data n (p + BLOCKSIZE) (E (Block.xor mac (blockAt data p)))

variable (data : List UInt8) (b : List UInt8) (mac : Block) (ctriv : UInt64) (pos : Int)
  {a : List UInt8}

/-- The MAC loop of encryption: `while (remaining > 0)`, that is one round for every block that
    has been begun. -/
def macEncrypt (mac : Block) : Block :=
  macRounds E data ((data.length + 15) / 16) 0 mac

/-- The MAC loop of decryption: whole blocks, then the remaining bytes. -/
def macDecrypt (mac : Block) : Block :=
  let mac' := macRounds E data (data.length / 16) 0 mac
  let remaining := data.length % 16
  if remaining > 0 then E (xorblockLen (blockAt data (16 * (data.length / 16))) mac' remaining)
  else mac'

/-- `SymmCipher::ctr_crypt` with a MAC: the text after the key stream, and the MAC. The MAC is
    taken over the plaintext, so before the key stream when encrypting and after it when
    decrypting. -/
def ctrCrypt (pos : Int) (ctriv : UInt64) (mac : Block)
    (encrypt initmac : Bool) : List UInt8 × Block :=
  let mac0 := if initmac then macInit ctriv else mac
  let out := ctrProcess E ctriv pos data
  if encrypt then (out, macEncrypt E data mac0) else (out, macDecrypt E out mac0)

/-! ## 1. The MAC as a fold over the blocks of the text -/

def blocksOf : List Block :=
  (List.range ((data.length + 15) / 16)).map fun j => blockAt data (16 * j)

/-- The CBC-MAC of a text, continued from `mac`. -/
def cbcMac (mac : Block) : Block :=
  (blocksOf data).foldl (fun m b => E (Block.xor m b)) mac

theorem macRounds_eq (data) : ∀ (n p : Nat) (mac : Block),
    macRounds E data n p mac =
      ((List.range n).map fun j => blockAt data (p + 16 * j)).foldl
        (fun m b => E (Block.xor m b)) mac
  | 0, _, _ => rfl
  | n + 1, p, mac => by
      rw [macRounds, macRounds_eq, range_succ_eq_map, map_cons, foldl_cons,
        map_map]
      congr 2
      funext j
      simp only [BLOCKSIZE]
      congr 1
      omega

theorem macEncrypt_eq : macEncrypt E data mac = cbcMac E data mac := by
  rw [macEncrypt, macRounds_eq, cbcMac, blocksOf]
  simp

/-- Beyond the end of the text the padded block is zero, so xoring the remaining bytes only is
    xoring the whole padded block. -/
theorem xorblockLen_blockAt (p len : Nat) (h : data.length ≤ p + len) :
    xorblockLen (blockAt data p) mac len = Block.xor mac (blockAt data p) := by
  funext i
  simp only [xorblockLen, Block.xor, blockAt]
  split
  · rfl
  · rw [getD_eq_default _ _ (by omega)]
    exact (UInt8.xor_zero).symm

theorem macDecrypt_eq : macDecrypt E data mac = cbcMac E data mac := by
  simp only [macDecrypt, macRounds_eq, cbcMac, blocksOf, zero_add]
  split
  · rename_i hr
    have hn : (data.length + 15) / 16 = data.length / 16 + 1 := by omega
    rw [hn, range_succ, map_append, foldl_append]
    simp only [map_cons, map_nil, foldl_cons, foldl_nil]
    rw [xorblockLen_blockAt _ _ _ _ (by omega)]
  · have hn : (data.length + 15) / 16 = data.length / 16 := by omega
    rw [hn]

/-- **The two MAC loops agree**, also on a text that ends inside a block. -/
theorem macDecrypt_eq_macEncrypt : macDecrypt E data mac = macEncrypt E data mac := by
  rw [macDecrypt_eq, macEncrypt_eq]

/-! ## 2. A text in two parts -/

theorem blockAt_append_left {a b : List UInt8} {p : Nat} (h : p + 16 ≤ a.length) :
    blockAt (a ++ b) p = blockAt a p := by
  funext i
  simp only [blockAt, getD_eq_getElem?_getD]
  rw [getElem?_append_left (by omega)]

theorem blockAt_append_right {a b : List UInt8} {p : Nat} (h : a.length ≤ p) :
    blockAt (a ++ b) p = blockAt b (p - a.length) := by
  funext i
  simp only [blockAt, getD_eq_getElem?_getD]
  rw [getElem?_append_right (by omega)]
  congr 2
  omega

theorem blocksOf_append (h : a.length % 16 = 0) : blocksOf (a ++ b) = blocksOf a ++ blocksOf b := by
  have hn : (a.length + b.length + 15) / 16 = (a.length + 15) / 16 + (b.length + 15) / 16 := by
    omega
  simp only [blocksOf, length_append, hn, range_add, map_append, map_map]
  congr 1
  · refine map_congr_left fun j hj => ?_
    have := mem_range.1 hj
    exact blockAt_append_left (by omega)
  refine map_congr_left fun j _ => ?_
  simp only [Function.comp]
  rw [blockAt_append_right (by omega)]
  congr 1
  omega

/-- **The MAC of a text continues the MAC of its first part** when that is whole blocks. -/
theorem cbcMac_append (h : a.length % 16 = 0) :
    cbcMac E (a ++ b) mac = cbcMac E b (cbcMac E a mac) := by
  rw [cbcMac, blocksOf_append b h, foldl_append]
  rfl

/-! ## 3. The key stream -/

@[simp] theorem length_ctrProcess (data) : (ctrProcess E ctriv pos data).length = data.length := by
  simp [ctrProcess]

theorem ctrProcess_append (hp : 0 ≤ pos) (b) (h : a.length % 16 = 0) :
    ctrProcess E ctriv pos (a ++ b) =
      ctrProcess E ctriv pos a ++ ctrProcess E ctriv (pos + a.length) b := by
  simp only [ctrProcess, mapIdx_append]
  congr 1
  refine mapIdx_eq_mapIdx_iff.2 fun k hk => ?_
  have h1 : (k + a.length) % 16 = k % 16 := by omega
  have h2 : (pos / (BLOCKSIZE : Int)).toNat + (k + a.length) / 16 =
      ((pos + a.length) / (BLOCKSIZE : Int)).toNat + k / 16 := by
    simp only [BLOCKSIZE]
    omega
  simp [h1, h2]

theorem ctrProcess_ctrProcess (data) :
    ctrProcess E ctriv pos (ctrProcess E ctriv pos data) = data := by
  refine ext_getElem (by simp) fun k _ _ => ?_
  simp [ctrProcess]

/-- **Decrypting what was encrypted** gives the text back, and the same MAC. -/
theorem ctrCrypt_ctrCrypt (pos ctriv mac) (initmac : Bool) :
    ctrCrypt E (ctrCrypt E data pos ctriv mac true initmac).1 pos ctriv mac false initmac =
      (data, (ctrCrypt E data pos ctriv mac true initmac).2) := by
  simp [ctrCrypt, ctrProcess_ctrProcess, macDecrypt_eq_macEncrypt]

end Cipher

end MegaSdk
