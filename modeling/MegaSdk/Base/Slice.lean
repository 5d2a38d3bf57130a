/-
  File:      MegaSdk/Base/Slice.lean
  Subject:   STRETCHES OF A SEQUENCE. No program fact.

  * `slice f p n` -- the `n` values of `f` from `p` on, as a list: what a buffer holds that was
    filled from the sequence `f`.
-/
import Mathlib

namespace Base

open List

variable {α : Type*}

variable (f : Nat → α)

def slice (p n : Nat) : List α := (List.range' p n).map f

@[simp] theorem length_slice (p n : Nat) : (slice f p n).length = n := by
  simp [slice]

@[simp] theorem slice_zero (p : Nat) : slice f p 0 = [] := rfl

theorem slice_add (p m n : Nat) : slice f p (m + n) = slice f p m ++ slice f (p + m) n := by
  unfold slice
  rw [← map_append, range'_append_1]

theorem slice_min_append (p m n : Nat) :
    slice f p (min n m) ++ slice f (p + m) (n - m) = slice f p n := by
  rcases Nat.le_total n m with h | h
  · rw [Nat.min_eq_left h, Nat.sub_eq_zero_of_le h, slice_zero, append_nil]
  · rw [Nat.min_eq_right h, ← slice_add, Nat.add_sub_cancel' h]

theorem drop_slice (p n k : Nat) : (slice f p n).drop k = slice f (p + k) (n - k) := by
  unfold slice
  rw [← map_drop, drop_range', Nat.mul_one]

theorem take_slice (p n k : Nat) : (slice f p n).take k = slice f p (min k n) := by
  rcases Nat.le_total k n with h | h
  · obtain ⟨m, rfl⟩ := Nat.exists_eq_add_of_le h
    rw [Nat.min_eq_left h, slice_add, take_left' (length_slice ..)]
  · rw [Nat.min_eq_right h, take_of_length_le (by rwa [length_slice])]

theorem slice_congr {f g : Nat → α} {p q n : Nat} (h : ∀ k < n, f (p + k) = g (q + k)) :
    slice f p n = slice g q n := by
  refine ext_getElem (by simp) fun k hk _ => ?_
  simp only [slice, getElem_map, getElem_range', Nat.one_mul]
  exact h k (by simpa using hk)

theorem zipWith_slice (op : α → α → α) (f g : Nat → α) (p n : Nat) :
    List.zipWith op (slice f p n) (slice g p n) = slice (fun k => op (f k) (g k)) p n := by
  unfold slice
  rw [zipWith_map, zipWith_self]

theorem slice_getD_self (l : List α) (x : α) : slice (fun k => l.getD k x) 0 l.length = l := by
  refine ext_getElem (length_slice ..) fun k _ hk => ?_
  simp only [slice]
  simp [hk]

theorem slice_getD (l : List α) (x : α) {p n : Nat} (h : p + n ≤ l.length) :
    slice (fun k => l.getD k x) p n = (l.drop p).take n := by
  have hl := slice_getD_self l x
  calc slice (fun k => l.getD k x) p n
      = ((slice (fun k => l.getD k x) 0 l.length).drop p).take n := by
        rw [drop_slice, take_slice, Nat.zero_add, Nat.min_eq_left (by omega)]
    _ = (l.drop p).take n := by rw [hl]

end Base
