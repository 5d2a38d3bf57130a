/-
  File:      MegaSdk/Raid/Layout.lean
  Subject:   HOW A FILE IS SPREAD OVER THE SIX RAID PARTS (raid.h, `raidPartSize`).

  A line of 80 bytes is cut into five sectors of 16 bytes; sector `i - 1` of every line goes to
  part `i`, and part 0 is the exclusive or of the other five, a file that ends within a line
  counting as padded with zeros.

  * `raidPartSize` -- how long a part is; `raidPartSize_eq` says it without the clamping;
  * `stripePart`, `stripeOffset` -- where round-robin striping puts a byte of the file;
    `countP_stripePart` counts the bytes of a data part, `image_stripeOffset` those of the parity;
  * `xorParts_others` -- the exclusive or of the five other parts is the missing one.
-/
import MegaSdk.Base.Slice

namespace MegaSdk.Raid

open Base

def RAIDPARTS : Nat := 6

def EFFECTIVE_RAIDPARTS : Nat := 5

def RAIDSECTOR : Nat := 16

def RAIDLINE : Nat := EFFECTIVE_RAIDPARTS * RAIDSECTOR

/-- A part, 0 being the parity. -/
abbrev Part := Fin 6

instance neZeroParts : NeZero 6 := ⟨by decide⟩

variable (file : List UInt8)

/-- The byte of a file at a position, zero past its end. -/
def fileByte (p : Nat) : UInt8 := file.getD p 0

/-- The byte of the data part `i` at the offset `k`. -/
def dataByte (i : Nat) (k : Nat) : UInt8 :=
  fileByte file (RAIDLINE * (k / RAIDSECTOR) + RAIDSECTOR * (i - 1) + k % RAIDSECTOR)

/-- The byte of the part `i` at the offset `k`; part 0 is the parity of the others. -/
def partByte (i : Part) (k : Nat) : UInt8 :=
  if i = 0 then
    dataByte file 1 k ^^^ dataByte file 2 k ^^^ dataByte file 3 k ^^^ dataByte file 4 k ^^^
      dataByte file 5 k
  else dataByte file i k

def raidPartSize (part filesize : Nat) : Nat :=
  let r := filesize % RAIDLINE
  let t : Int := (r : Int) - ((part - 1 : Nat) * RAIDSECTOR : Nat)
  let t : Int := if t < 0 then 0 else if t > RAIDSECTOR then RAIDSECTOR else t
  (filesize - r) / EFFECTIVE_RAIDPARTS + t.toNat

theorem raidPartSize_eq (part n : Nat) :
    raidPartSize part n = 16 * (n / 80) + min (n % 80 - 16 * (part - 1)) 16 := by
  unfold raidPartSize RAIDLINE EFFECTIVE_RAIDPARTS RAIDSECTOR
  dsimp only
  split
  · omega
  · split <;> omega

theorem sum_raidPartSize (n : Nat) : raidPartSize 1 n + raidPartSize 2 n + raidPartSize 3 n +
    raidPartSize 4 n + raidPartSize 5 n = n := by
  simp only [raidPartSize_eq]
  omega

theorem le_raidPartSize (part n : Nat) : 16 * (n / 80) ≤ raidPartSize part n := by
  rw [raidPartSize_eq]
  omega

/-- A sector of the data part `i` is a stretch of the file. -/
theorem slice_dataByte {i q n : Nat} (hq : q % 16 = 0) (hn : n ≤ 16) :
    slice (dataByte file i) q n = slice (fileByte file) (5 * q + 16 * (i - 1)) n := by
  refine slice_congr fun k hk => ?_
  unfold dataByte RAIDLINE EFFECTIVE_RAIDPARTS RAIDSECTOR
  congr 1
  omega

/-- Past its end a data part would hold bytes past the end of the file. -/
theorem dataByte_past {file} {i k : Nat} (hi : 1 ≤ i) (hi5 : i ≤ 5)
    (hk : raidPartSize i file.length ≤ k) (hk' : k < 16 * (file.length / 80) + 16) :
    dataByte file i k = 0 := by
  rw [raidPartSize_eq] at hk
  unfold dataByte fileByte RAIDLINE EFFECTIVE_RAIDPARTS RAIDSECTOR
  exact List.getD_eq_default _ _ (by omega)

theorem partByte_past {file} {i : Part} {k : Nat} (hk : raidPartSize i file.length ≤ k)
    (hk' : k < 16 * (file.length / 80) + 16) : partByte file i k = 0 := by
  have all : ∀ j, 1 ≤ j → j ≤ 5 → raidPartSize j file.length ≤ k → dataByte file j k = 0 :=
    fun j h1 h5 hj => dataByte_past h1 h5 hj hk'
  unfold partByte
  split
  · -- part 1 is as long as the parity, the others are not longer
    rename_i h0
    have hle : ∀ j, raidPartSize j file.length ≤ k := fun j => by
      rw [h0] at hk
      rw [raidPartSize_eq] at hk ⊢
      omega
    rw [all 1 (by omega) (by omega) (hle 1), all 2 (by omega) (by omega) (hle 2),
      all 3 (by omega) (by omega) (hle 3), all 4 (by omega) (by omega) (hle 4),
      all 5 (by omega) (by omega) (hle 5)]
    rfl
  · rename_i h0
    have h1 : i.val ≠ 0 := fun e => h0 (Fin.ext e)
    exact all i (by omega) (by omega) hk

/-! ## 1. Parity -/

theorem xor_left_comm (a b c : UInt8) : a ^^^ (b ^^^ c) = b ^^^ (a ^^^ c) := by
  rw [← UInt8.xor_assoc, UInt8.xor_comm a b, UInt8.xor_assoc]

/-- The parts, in the order in which the code's loops count them down. -/
def countdown : List Part := [5, 4, 3, 2, 1, 0]

/-- The exclusive or at the offset `k` of some parts, on top of `x`. -/
def xorParts (k : Nat) (is : List Part) (x : UInt8) : UInt8 :=
  is.foldl (fun x i => x ^^^ partByte file i k) x

/-- **Recovery from parity**: the exclusive or of the other parts is the missing one. -/
theorem xorParts_others (k : Nat) {j : Part} (hj : j ≠ 0) :
    xorParts file k (countdown.filter (· ≠ j)) 0 = partByte file j k := by
  fin_cases j
  · exact absurd rfl hj
  all_goals
    simp [xorParts, countdown, partByte, UInt8.xor_assoc, UInt8.xor_comm, xor_left_comm]

/-! ## 2. Striping -/

/-- The data part of the byte at a position: the sectors go to the parts in turn. -/
def stripePart (p : Nat) : Nat := p / RAIDSECTOR % EFFECTIVE_RAIDPARTS + 1

/-- The offset of that byte in its part. -/
def stripeOffset (p : Nat) : Nat := p / RAIDLINE * RAIDSECTOR + p % RAIDSECTOR

theorem raidPartSize_succ {part : Nat} (h1 : 1 ≤ part) (h5 : part ≤ 5) (n : Nat) :
    raidPartSize part (n + 1) = raidPartSize part n + if stripePart n = part then 1 else 0 := by
  rw [raidPartSize_eq, raidPartSize_eq]
  unfold stripePart RAIDSECTOR EFFECTIVE_RAIDPARTS
  split <;> omega

theorem countP_stripePart {part : Nat} (h1 : 1 ≤ part) (h5 : part ≤ 5) (n : Nat) :
    (List.range n).countP (fun p => stripePart p == part) = raidPartSize part n := by
  induction n with
  | zero =>
    rw [raidPartSize_eq]
    simp
  | succ n ih =>
    rw [List.range_succ, List.countP_append, ih, raidPartSize_succ h1 h5, List.countP_singleton]
    simp

/-- The offsets at which some data part has a byte, which is where the parity has one, are those
    below the size of part 0. -/
theorem image_stripeOffset (n : Nat) :
    (Finset.range n).image stripeOffset = Finset.range (raidPartSize 0 n) := by
  ext k
  rw [Finset.mem_image, Finset.mem_range, raidPartSize_eq]
  unfold stripeOffset RAIDLINE RAIDSECTOR EFFECTIVE_RAIDPARTS
  constructor
  · intro ⟨p, hp, hk⟩
    have hlt := Finset.mem_range.1 hp
    omega
  intro hk
  -- the byte of part 1 at this offset
  refine ⟨80 * (k / 16) + k % 16, Finset.mem_range.2 (by omega), by omega⟩

/-- **The sizes of the parts are those of round-robin striping**: the data parts hold the file, the
    parity is as long as part 1, which is the longest, and every part has as many bytes as the
    striping gives it. -/
theorem raidPartSize_stripes (n : Nat) :
    raidPartSize 1 n + raidPartSize 2 n + raidPartSize 3 n + raidPartSize 4 n + raidPartSize 5 n = n ∧
      raidPartSize 0 n = raidPartSize 1 n ∧
      (∀ part, raidPartSize part n ≤ raidPartSize 1 n) ∧
      (∀ part, 1 ≤ part → part ≤ 5 →
        (List.range n).countP (fun p => stripePart p == part) = raidPartSize part n) ∧
      ((Finset.range n).image stripeOffset).card = raidPartSize 0 n := by
  refine ⟨sum_raidPartSize n, ?_, fun part => ?_, fun part h1 h5 => countP_stripePart h1 h5 n, ?_⟩
  · rw [raidPartSize_eq, raidPartSize_eq]
  · rw [raidPartSize_eq, raidPartSize_eq]
    omega
  · rw [image_stripeOffset, Finset.card_range]

end MegaSdk.Raid
