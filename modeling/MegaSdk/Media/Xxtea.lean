/-
  File:      MegaSdk/Media/Xxtea.lean
  Subject:   XXTEA (mediafileattribute.cpp): decryption undoes encryption.

  Both directions walk around the block and change a word by `mx` of its two neighbours. The
  encryption carries the previous word along in `z`, the decryption the next one in `y`.

  * `encryptRound_eq`, `decryptRound_eq` -- what is carried along is the neighbour in the block, so
    a round is a fold of `mix`, or of `unmix` in the opposite order;
  * **`xxteaDecrypt_xxteaEncrypt`** -- the block is restored, and the key is left as it was.
-/
import MegaSdk.Base.Bytes

namespace MegaSdk.Media

open Function List

/-! ## 1. The code -/

abbrev Words := Nat → UInt32

def EndianConversion32 (x : UInt32) : UInt32 :=
  ((x &&& 0xff000000) >>> 24) ||| ((x &&& 0x00ff0000) >>> 8) ||| ((x &&& 0x0000ff00) <<< 8) |||
    ((x &&& 0x000000ff) <<< 24)

def convert (v : Words) (vlen : Nat) : Words :=
  fun i => if i < vlen then EndianConversion32 (v i) else v i

def DELTA : UInt32 := 0x9E3779B9

def mx (sum y z : UInt32) (p : Nat) (e : UInt32) (key : Words) : UInt32 :=
  (((z >>> 5) ^^^ (y <<< 2)) + ((y >>> 3) ^^^ (z <<< 4))) ^^^
    ((sum ^^^ y) + (key ((p &&& 3) ^^^ e.toNat) ^^^ z))

section Code

variable (key : Words) (n : Nat) (sum : UInt32)

/-- `z = v[p] = v[p] + mx(sum, y, z, p, e, key)`. -/
def encryptWord (p : Nat) (y : UInt32) (s : Words × UInt32) : Words × UInt32 :=
  let w := s.1 p + mx sum y s.2 p ((sum >>> 2) &&& 3) key
  (update s.1 p w, w)

/-- The inner loop up to the word `p`. -/
def encryptWords (s : Words × UInt32) : Nat → Words × UInt32
  | 0 => s
  | p + 1 =>
    let s := encryptWords s p
    encryptWord key sum p (s.1 (p + 1)) s

/-- The body of the outer loop of `xxteaEncrypt`, on the block and `z`. -/
def encryptRound (s : Words × UInt32) : Words × UInt32 :=
  let s := encryptWords key sum s n
  encryptWord key sum n (s.1 0) s

/-- `y = v[p] = v[p] - mx(sum, y, z, p, e, key)`. -/
def decryptWord (p : Nat) (z : UInt32) (s : Words × UInt32) : Words × UInt32 :=
  let w := s.1 p - mx sum s.2 z p ((sum >>> 2) &&& 3) key
  (update s.1 p w, w)

/-- The body of the outer loop of `xxteaDecrypt` from the word `p` down, on the block and `y`. -/
def decryptRound : Nat → Words × UInt32 → Words × UInt32
  | 0, s => decryptWord key sum 0 (s.1 n) s
  | p + 1, s => decryptRound p (decryptWord key sum (p + 1) (s.1 p) s)

def encryptStep (s : UInt32 × Words × UInt32) : UInt32 × Words × UInt32 :=
  (s.1 + DELTA, encryptRound key n (s.1 + DELTA) s.2)

def decryptLoop : Nat → UInt32 → Words × UInt32 → Option Words
  | 0, _, _ => none
  | fuel + 1, sum, s =>
    if sum = 0 then some s.1 else decryptLoop fuel (sum - DELTA) (decryptRound key n sum n s)

end Code

section Calls

variable (bigEndian : Bool) (v : Words) (vlen : Nat) (key : Words) (endianConv : Bool)

/-- What both functions do first and last to the block. -/
def endianBlock : Words := if endianConv && bigEndian then convert v vlen else v

/-- What both functions do first and last to the key. -/
def endianKey : Words := if endianConv && !bigEndian then convert key 4 else key

def xxteaEncrypt : Words × Words :=
  let v := endianBlock bigEndian v vlen endianConv
  let key := endianKey bigEndian key endianConv
  let n := vlen - 1
  let r := (encryptStep key n)^[6 + 52 / vlen] (0, v, v n)
  (endianBlock bigEndian r.2.1 vlen endianConv, endianKey bigEndian key endianConv)

def xxteaDecrypt (fuel : Nat) : Option (Words × Words) :=
  let v := endianBlock bigEndian v vlen endianConv
  let key := endianKey bigEndian key endianConv
  (decryptLoop key (vlen - 1) fuel (.ofNat (6 + 52 / vlen) * DELTA) (v, v 0)).map fun v =>
    (endianBlock bigEndian v vlen endianConv, endianKey bigEndian key endianConv)

end Calls

/-! ## 2. A round -/

section Rounds

variable (key : Words) {n : Nat} (sum : UInt32) (v : Words)

/-- The change of a word, from its neighbours in the block. -/
def change (n p : Nat) : UInt32 :=
  mx sum (v (if p = n then 0 else p + 1)) (v (if p = 0 then n else p - 1)) p ((sum >>> 2) &&& 3) key

def mix (n : Nat) (v : Words) (p : Nat) : Words := update v p (v p + change key sum v n p)

def unmix (n : Nat) (v : Words) (p : Nat) : Words := update v p (v p - change key sum v n p)

theorem unmix_mix (hn : 0 < n) (p : Nat) : unmix key sum n (mix key sum n v p) p = v := by
  have hchange : change key sum (mix key sum n v p) n p = change key sum v n p := by
    unfold change mix
    rw [update_of_ne (by split <;> omega), update_of_ne (by split <;> omega)]
  rw [unmix, hchange, mix, update_idem, update_self, add_sub_cancel_right, update_eq_self]

def mixes (n : Nat) : Nat → Words
  | 0 => v
  | k + 1 => mix key sum n (mixes n k) k

def unmixes (n : Nat) : Nat → Words → Words
  | 0, v => v
  | k + 1, v => unmixes n k (unmix key sum n v k)

theorem unmixes_mixes (hn : 0 < n) : ∀ k, unmixes key sum n k (mixes key sum v n k) = v
  | 0 => rfl
  | k + 1 => by
    rw [mixes, unmixes, unmix_mix _ _ _ hn]
    exact unmixes_mixes hn k

theorem encryptRound_eq (hn : 0 < n) :
    encryptRound key n sum (v, v n) =
      (mixes key sum v n (n + 1), mixes key sum v n (n + 1) n) := by
  have hwords : ∀ k ≤ n, encryptWords key sum (v, v n) k =
      (mixes key sum v n k, mixes key sum v n k (if k = 0 then n else k - 1)) := by
    intro k hk
    induction k with
    | zero => rfl
    | succ k ih =>
      rw [encryptWords, ih (by omega)]
      simp [encryptWord, mixes, mix, change, show k ≠ n by omega]
  rw [encryptRound, hwords n le_rfl]
  simp [encryptWord, mixes, mix, change, hn.ne']

theorem decryptRound_eq (p : Nat) (hp : p ≤ n) :
    decryptRound key n sum p (v, v (if p = n then 0 else p + 1)) =
      (unmixes key sum n (p + 1) v, unmixes key sum n (p + 1) v 0) := by
  induction p generalizing v with
  | zero => simp [decryptRound, decryptWord, unmixes, unmix, change]
  | succ p ih =>
    rw [decryptRound, unmixes, ← ih _ (by omega), if_neg (by omega : p ≠ n)]
    simp [decryptWord, unmix, change]

def rounds (n : Nat) : Nat → Words
  | 0 => v
  | k + 1 => mixes key (.ofNat (k + 1) * DELTA) (rounds n k) n (n + 1)

theorem encryptStep_iterate (hn : 0 < n) (k : Nat) :
    (encryptStep key n)^[k] (0, v, v n) =
      (.ofNat k * DELTA, rounds key v n k, rounds key v n k n) := by
  induction k with
  | zero => simp [rounds]
  | succ k ih =>
    have hsum : UInt32.ofNat k * DELTA + DELTA = .ofNat (k + 1) * DELTA := by
      rw [UInt32.ofNat_add, add_mul]
      simp
    rw [iterate_succ_apply', ih, encryptStep, hsum, encryptRound_eq _ _ _ hn]
    rfl

/-- **The decryption ends** with the block that was encrypted. -/
theorem decryptLoop_rounds (hn : 0 < n) (k : Nat) (hk : k ≤ 32) {fuel : Nat} (hfuel : k < fuel) :
    decryptLoop key n fuel (.ofNat k * DELTA) (rounds key v n k, rounds key v n k 0) = some v := by
  obtain ⟨fuel, rfl⟩ : ∃ f, fuel = f + 1 := ⟨fuel - 1, by omega⟩
  induction k generalizing fuel with
  | zero => simp [decryptLoop, rounds]
  | succ k ih =>
    -- none of the sums on the way is zero
    have hsum : ∀ k < 32, UInt32.ofNat (k + 1) * DELTA ≠ 0 := by decide
    have hnext : UInt32.ofNat (k + 1) * DELTA - DELTA = .ofNat k * DELTA := by
      rw [UInt32.ofNat_add, add_mul]
      simp
    have hround := decryptRound_eq key (.ofNat (k + 1) * DELTA) (rounds key v n (k + 1)) n le_rfl
    rw [if_pos rfl, rounds, unmixes_mixes _ _ _ hn] at hround
    obtain ⟨fuel, rfl⟩ : ∃ f, fuel = f + 1 := ⟨fuel - 1, by omega⟩
    rw [decryptLoop, if_neg (hsum k (by omega)), hnext, rounds, hround]
    exact ih (by omega) fuel (by omega)

end Rounds

/-! ## 3. Both calls -/

theorem endianConversion32_twice (x : UInt32) : EndianConversion32 (EndianConversion32 x) = x := by
  refine UInt32.eq_of_toBitVec_eq (BitVec.eq_of_getElem_eq fun i hi => ?_)
  interval_cases i <;> simp [EndianConversion32]

theorem convert_twice (v : Words) (vlen : Nat) : convert (convert v vlen) vlen = v := by
  funext i
  unfold convert
  split
  · exact endianConversion32_twice _
  · rfl

section Calls

variable (bigEndian : Bool) (v : Words) (vlen : Nat) (key : Words) (endianConv : Bool)

theorem endianBlock_twice :
    endianBlock bigEndian (endianBlock bigEndian v vlen endianConv) vlen endianConv = v := by
  unfold endianBlock
  split
  · exact convert_twice v vlen
  · rfl

theorem endianKey_twice :
    endianKey bigEndian (endianKey bigEndian key endianConv) endianConv = key := by
  unfold endianKey
  split
  · exact convert_twice key 4
  · rfl

/-- **The block is restored** and the key is left as it was, with and without the conversion and on
either kind of machine. -/
theorem xxteaDecrypt_xxteaEncrypt {fuel : Nat} (hlen : 2 ≤ vlen) (hfuel : 33 ≤ fuel) :
    (xxteaEncrypt bigEndian v vlen key endianConv).2 = key ∧
      xxteaDecrypt bigEndian (xxteaEncrypt bigEndian v vlen key endianConv).1 vlen key endianConv
        fuel = some (v, key) := by
  have hn : 0 < vlen - 1 := by omega
  have hq : 6 + 52 / vlen ≤ 32 := by
    have : 52 / vlen ≤ 52 / 2 := Nat.div_le_div_left hlen (by decide)
    omega
  simp only [xxteaEncrypt, xxteaDecrypt, endianBlock_twice, endianKey_twice,
    encryptStep_iterate _ _ hn, decryptLoop_rounds _ _ hn _ hq (hq.trans_lt hfuel), Option.map_some,
    and_self]

theorem xxteaDecrypt_two :
    let v : Words := fun i => if i = 1 then 7 else 0
    xxteaDecrypt false (xxteaEncrypt false v 2 (fun _ => 5) true).1 2 (fun _ => 5) true 33 =
      some (v, fun _ => 5) :=
  (xxteaDecrypt_xxteaEncrypt false _ 2 _ true le_rfl le_rfl).2

end Calls

end MegaSdk.Media
