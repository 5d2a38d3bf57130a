/-
  File:      MegaSdk/Base/Bytes.lean
  Subject:   BYTE STRINGS AND 16-BYTE BLOCKS. No program fact.

  * `Block`, `Block.xor` -- a cipher block as a function of the byte index, with the laws of the
    byte-wise exclusive or (an abelian group of exponent two);
  * `leBytes`, `leNat` -- an unsigned integer as its little-endian memory image and back, with
    the round trip `leNat_leBytes`;
  * `takeFixed` -- reading a fixed number of bytes off the front of a buffer, with what it does
    to a buffer that starts with exactly that many bytes.
-/
import Mathlib

namespace Base

/-! ## 1. Blocks -/

/-- A 16-byte block, as the byte at every index. -/
abbrev Block := Fin 16 → UInt8

instance neZeroBlock : NeZero 16 := ⟨by decide⟩

namespace Block
variable (a : Block)

def zero : Block := fun _ => 0

def xor (a b : Block) : Block := fun i => a i ^^^ b i

theorem xor_comm (b : Block) : xor a b = xor b a := by
  funext i
  exact UInt8.xor_comm _ _

@[simp] theorem xor_self : xor a a = zero := by
  funext i
  exact UInt8.xor_self

@[simp] theorem xor_zero : xor a zero = a := by
  funext i
  exact UInt8.xor_zero

@[simp] theorem zero_xor : xor zero a = a := by
  rw [xor_comm, xor_zero]

end Block

/-! ## 2. Little-endian memory images -/

/-- The `w` bytes of `n` in little-endian order. -/
def leBytes : Nat → Nat → List UInt8
  | 0, _ => []
  | w + 1, n => UInt8.ofNat (n % 256) :: leBytes w (n / 256)

/-- The number a little-endian byte string holds. -/
def leNat : List UInt8 → Nat
  | [] => 0
  | b :: bs => b.toNat + 256 * leNat bs

@[simp] theorem length_leBytes : ∀ w n, (leBytes w n).length = w
  | 0, _ => rfl
  | w + 1, n => by simp [leBytes, length_leBytes w]

theorem leNat_leBytes : ∀ w n, n < 256 ^ w → leNat (leBytes w n) = n
  | 0, n, h => by
      have : n = 0 := by simpa using h
      simp [leBytes, leNat, this]
  | w + 1, n, h => by
      have hd : n / 256 < 256 ^ w := by
        rw [Nat.div_lt_iff_lt_mul (by decide)]
        rwa [← pow_succ]
      have hb : (UInt8.ofNat (n % 256)).toNat = n % 256 := by
        exact Nat.mod_mod _ _
      rw [leBytes, leNat, leNat_leBytes w _ hd, hb]
      exact Nat.mod_add_div n 256

/-! ## 3. Big-endian numbers -/

/-- The number a big-endian byte string holds. -/
def beNat (bs : List UInt8) : Nat := bs.foldl (fun n b => n * 256 + b.toNat) 0

@[simp] theorem beNat_nil : beNat [] = 0 := rfl

theorem beNat_concat (bs : List UInt8) (b : UInt8) : beNat (bs ++ [b]) = beNat bs * 256 + b.toNat := by
  simp [beNat]

theorem beNat_lt (bs : List UInt8) : beNat bs < 256 ^ bs.length := by
  induction bs using List.reverseRecOn with
  | nil => decide
  | append_singleton bs b ih =>
    have hb := b.toNat_lt
    rw [beNat_concat, List.length_append, List.length_singleton]
    omega

/-! ## 4. Reading a buffer -/

/-- The first `n` bytes of a buffer and the rest, when there are that many. -/
def takeFixed (n : Nat) (buf : List UInt8) : Option (List UInt8 × List UInt8) :=
  if n ≤ buf.length then some (buf.take n, buf.drop n) else none

theorem takeFixed_append {n : Nat} {a b : List UInt8} (h : a.length = n) :
    takeFixed n (a ++ b) = some (a, b) := by
  subst h
  simp [takeFixed]

/-- Records that take at least a byte each are not more than the bytes. -/
theorem length_le_flatMap {α β : Type*} {f : α → List β} {l : List α} (h : ∀ a ∈ l, f a ≠ []) :
    l.length ≤ (l.flatMap f).length := by
  rw [List.length_flatMap, ← List.length_map (fun a => (f a).length)]
  refine List.length_le_sum_of_one_le _ fun i hi => ?_
  obtain ⟨a, ha, rfl⟩ := List.mem_map.1 hi
  exact List.length_pos_iff.2 (h a ha)

/-! ## Single bytes -/

theorem forall_byte {P : UInt8 → Prop} (h : ∀ n : Fin 256, P (UInt8.ofNat n)) (c : UInt8) : P c := by
  have hc := h ⟨c.toNat, c.toNat_lt⟩
  simpa using hc

theorem byte_ext {a b : UInt8} (h : ∀ i (hi : i < 8), a.toBitVec[i] = b.toBitVec[i]) : a = b := by
  apply UInt8.eq_of_toBitVec_eq
  ext i hi
  exact h i hi

end Base
