/-
  File:      MegaSdk/Base/Loop.lean
  Subject:   LOOPS AND RUNS. No program fact.

  * `whileFuel c b n s` -- `while (c) b` from `s`, with at most `n - 1` rounds; `none` when the
    loop has not ended by then;
  * `whileFuel_inv` -- what every round keeps holds at the end, together with the exit condition;
  * `whileFuel_ends` -- a loop whose rounds decrease a measure ends; `countP_lt_of_mem` for
    measures that count;
  * `foldl_range_inv` -- what every round of `for (i = a; i < a + n; ++i)` keeps holds behind it;
  * `run_inv` -- what every step keeps holds in every state a run reaches;
  * `StepBy`, `AllBy` -- steps with labels and a condition on them.
-/
import Mathlib

namespace Base

variable {σ : Type*}

/-- `while (c) b`, cut off after `n` evaluations of the condition. -/
def whileFuel (c : σ → Bool) (b : σ → σ) : Nat → σ → Option σ
  | 0, _ => none
  | n + 1, s => if c s then whileFuel c b n (b s) else some s

/-- What every round keeps holds when the loop ends, and then the condition is false. -/
theorem whileFuel_inv {c : σ → Bool} {b : σ → σ} (Inv : σ → Prop)
    (hb : ∀ s, Inv s → c s = true → Inv (b s)) :
    ∀ {n : Nat} {s s' : σ}, Inv s → whileFuel c b n s = some s' → Inv s' ∧ c s' = false
  | 0, _, _, _, h => by cases h
  | n + 1, s, s', hi, h => by
      rw [whileFuel] at h
      split_ifs at h with hc
      · exact whileFuel_inv Inv hb (hb s hi hc) h
      cases h
      exact ⟨hi, by simpa using hc⟩

/-- A loop whose rounds keep `Inv` and decrease `μ` ends within `μ s + 1` evaluations. -/
theorem whileFuel_ends {c : σ → Bool} {b : σ → σ} (Inv : σ → Prop) (μ : σ → Nat)
    (hb : ∀ s, Inv s → c s = true → Inv (b s) ∧ μ (b s) < μ s) :
    ∀ {n : Nat} {s : σ}, Inv s → μ s < n → ∃ s', whileFuel c b n s = some s'
  | 0, _, _, h => absurd h (Nat.not_lt_zero _)
  | n + 1, s, hi, h => by
      rw [whileFuel]
      split_ifs with hc
      · obtain ⟨hi', hm⟩ := hb s hi hc
        exact whileFuel_ends Inv μ hb hi' (by omega)
      · exact ⟨s, rfl⟩

theorem countP_lt_of_mem {p q : σ → Bool} {l : List σ} (hpq : ∀ x, q x = true → p x = true) {x : σ}
    (hx : x ∈ l) (hp : p x = true) (hq : q x = false) : l.countP q < l.countP p := by
  have hboth : l.countP q = (l.filter q).countP p := by
    rw [List.countP_filter]
    refine List.countP_congr fun y _ => ?_
    rw [Bool.and_eq_true]
    exact ⟨fun hy => ⟨hpq y hy, hy⟩, And.right⟩
  have hrest : 0 < (l.filter fun y => !q y).countP p :=
    List.countP_pos_iff.2 ⟨x, List.mem_filter.2 ⟨hx, by rw [hq]; rfl⟩, hp⟩
  have hsplit := List.countP_eq_countP_filter_add l p q
  omega

/-- An invariant of a loop over `a`, …, `a + n - 1` that may speak about the counter. -/
theorem foldl_range_inv {f : σ → Nat → σ} (Inv : Nat → σ → Prop) (a n : Nat)
    (hf : ∀ i s, a ≤ i → i < a + n → Inv i s → Inv (i + 1) (f s i)) {s : σ} (h : Inv a s) :
    Inv (a + n) ((List.range' a n).foldl f s) := by
  induction n generalizing a s with
  | zero => exact h
  | succ n ih =>
    rw [show a + (n + 1) = a + 1 + n by omega]
    exact ih (a + 1) (fun i s hi hn => hf i s (by omega) (by omega))
      (hf a s (Nat.le_refl _) (by omega) h)

theorem run_inv {Step : σ → σ → Prop} (Inv : σ → Prop) (hs : ∀ s s', Inv s → Step s s' → Inv s')
    {s s' : σ} (hi : Inv s) (hr : Relation.ReflTransGen Step s s') : Inv s' := by
  induction hr with
  | refl => exact hi
  | tail _ hst ih => exact hs _ _ ih hst

section Labelled

variable {ι : Type*} (exec : σ → ι → σ) (P : ι → σ → Prop)

def StepBy (s s' : σ) : Prop := ∃ op, P op s ∧ s' = exec s op

def AllBy : List ι → σ → Prop
  | [], _ => True
  | op :: ops, s => P op s ∧ AllBy ops (exec s op)

instance decidableAllBy [∀ op s, Decidable (P op s)] :
    ∀ (ops : List ι) (s : σ), Decidable (AllBy exec P ops s)
  | [], _ => isTrue trivial
  | op :: ops, s =>
    have := decidableAllBy ops (exec s op)
    inferInstanceAs (Decidable (P op s ∧ AllBy exec P ops (exec s op)))

variable {exec P}

theorem run_of_allBy {ops : List ι} {s : σ} (h : AllBy exec P ops s) :
    Relation.ReflTransGen (StepBy exec P) s (ops.foldl exec s) := by
  induction ops generalizing s with
  | nil => exact .refl
  | cons op ops ih => exact .head ⟨op, h.1, rfl⟩ (ih h.2)

theorem run_weaken {Q : ι → σ → Prop} (h : ∀ op s, P op s → Q op s) {s s' : σ}
    (hr : Relation.ReflTransGen (StepBy exec P) s s') : Relation.ReflTransGen (StepBy exec Q) s s' :=
  Relation.ReflTransGen.mono (fun _ _ ⟨op, hop, he⟩ => ⟨op, h _ _ hop, he⟩) _ _ hr

end Labelled

end Base
