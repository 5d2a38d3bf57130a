/-
  File:      MegaSdk/Base/Glob.lean
  Subject:   PATTERNS WITH STARS. No program fact.

  A pattern is a list of items: a star stands for any text, `one` for any character, and a literal
  for a character that is related to it. `Matches` splits a text along a pattern.

  * `commit` -- **a star never has to be revisited**: when the items up to the next star match at the
    first place where they can, the rest of the text is left to that next star;
  * `backtrack` -- and when they do not match there, the star takes one character more;
  * `size`, `lits`, `own` -- how many characters a pattern needs, its literals, and its shortest text;
    `size_le` and `countP_lits_le` bound them by the text, and `one_notMem_of_agree` tells two
    patterns apart.
-/
import Mathlib

namespace Base.Glob

open List

inductive Item (α : Type*)
  | star
  | one
  | lit (a : α)
  deriving DecidableEq

variable {α β : Type*} {R : β → α → Prop}

/-- The text can be split along the pattern. -/
inductive Matches (R : β → α → Prop) : List (Item α) → List β → Prop
  | nil : Matches R [] []
  | star {p : List (Item α)} {t : List β} (u : List β) (h : Matches R p t) :
      Matches R (.star :: p) (u ++ t)
  | one {p : List (Item α)} {t : List β} (b : β) (h : Matches R p t) : Matches R (.one :: p) (b :: t)
  | lit {p : List (Item α)} {t : List β} {a : α} {b : β} (hb : R b a) (h : Matches R p t) :
      Matches R (.lit a :: p) (b :: t)

def Item.Takes (R : β → α → Prop) (b : β) : Item α → Prop
  | .star => False
  | .one => True
  | .lit a => R b a

variable {p q : List (Item α)} {t u : List β} {i : Item α} {b : β}

theorem matches_nil_left : Matches R [] t ↔ t = [] := by
  constructor
  · intro h
    cases h
    rfl
  · intro h
    exact h ▸ .nil

theorem matches_star : Matches R (.star :: p) t ↔ ∃ u v, t = u ++ v ∧ Matches R p v := by
  constructor
  · intro h
    cases h with
    | star u h => exact ⟨u, _, rfl, h⟩
  · rintro ⟨u, v, rfl, h⟩
    exact .star u h

/-- An item other than the star takes the first character. -/
theorem matches_item (hi : i ≠ .star) :
    Matches R (i :: p) t ↔ ∃ b t', t = b :: t' ∧ i.Takes R b ∧ Matches R p t' := by
  cases i with
  | star => exact absurd rfl hi
  | one =>
    constructor
    · intro h
      cases h with
      | one b h => exact ⟨b, _, rfl, trivial, h⟩
    · rintro ⟨b, t', rfl, _, h⟩
      exact .one b h
  | lit a =>
    constructor
    · intro h
      cases h with
      | lit hb h => exact ⟨_, _, rfl, hb, h⟩
    · rintro ⟨b, t', rfl, hb, h⟩
      exact .lit hb h

theorem matches_item_cons (hi : i ≠ .star) :
    Matches R (i :: p) (b :: t) ↔ i.Takes R b ∧ Matches R p t := by
  rw [matches_item hi]
  constructor
  · intro ⟨b', t', he, hb, h⟩
    cases he
    exact ⟨hb, h⟩
  · intro ⟨hb, h⟩
    exact ⟨b, t, rfl, hb, h⟩

/-- Another comparison that holds wherever the first one is made. -/
theorem Matches.imp {S : β → α → Prop} (h : Matches R p t)
    (hRS : ∀ b ∈ t, ∀ a, .lit a ∈ p → R b a → S b a) : Matches S p t := by
  induction h with
  | nil => exact .nil
  | star u _ ih =>
    refine .star u (ih fun b hb a ha => ?_)
    exact hRS b (mem_append_right _ hb) a (mem_cons_of_mem _ ha)
  | one c _ ih =>
    refine .one c (ih fun b hb a ha => ?_)
    exact hRS b (mem_cons_of_mem _ hb) a (mem_cons_of_mem _ ha)
  | lit hb _ ih =>
    refine .lit (hRS _ mem_cons_self _ mem_cons_self hb) (ih fun b hb a ha => ?_)
    exact hRS b (mem_cons_of_mem _ hb) a (mem_cons_of_mem _ ha)

/-- A star takes nothing, or one character more. -/
theorem matches_star_cons :
    Matches R (.star :: p) (b :: t) ↔ Matches R p (b :: t) ∨ Matches R (.star :: p) t := by
  constructor
  · rw [matches_star]
    intro ⟨u, v, he, h⟩
    cases u with
    | nil => exact .inl (he ▸ h)
    | cons c u =>
      obtain ⟨_, rfl⟩ := List.cons.inj he
      exact .inr (.star u h)
  intro h
  rcases h with h | h
  · exact .star [] h
  · obtain ⟨u, v, rfl, hv⟩ := matches_star.1 h
    exact .star (b :: u) hv

theorem matches_star_nil : Matches R (.star :: p) [] ↔ Matches R p [] := by
  rw [matches_star]
  constructor
  · intro ⟨u, v, he, h⟩
    obtain ⟨_, rfl⟩ := append_eq_nil_iff.1 he.symm
    exact h
  · exact fun h => ⟨[], [], rfl, h⟩

theorem matches_star_append (h : Matches R (.star :: p) t) (u) :
    Matches R (.star :: p) (u ++ t) := by
  obtain ⟨v, w, rfl, hw⟩ := matches_star.1 h
  rw [← append_assoc]
  exact .star _ hw

theorem matches_append :
    Matches R (p ++ q) t ↔ ∃ u v, t = u ++ v ∧ Matches R p u ∧ Matches R q v := by
  induction p generalizing t with
  | nil =>
    constructor
    · exact fun h => ⟨[], t, rfl, .nil, h⟩
    rintro ⟨u, v, rfl, hu, hv⟩
    rwa [matches_nil_left.1 hu]
  | cons i p ih =>
    by_cases hi : i = .star
    · subst hi
      rw [cons_append, matches_star]
      constructor
      · rintro ⟨w, t', rfl, h⟩
        obtain ⟨u, v, rfl, hu, hv⟩ := ih.1 h
        exact ⟨w ++ u, v, (append_assoc ..).symm, .star w hu, hv⟩
      rintro ⟨u, v, rfl, hu, hv⟩
      obtain ⟨w, u', rfl, hu'⟩ := matches_star.1 hu
      exact ⟨w, u' ++ v, append_assoc .., ih.2 ⟨u', v, rfl, hu', hv⟩⟩
    rw [cons_append, matches_item hi]
    constructor
    · rintro ⟨b, t', rfl, hb, h⟩
      obtain ⟨u, v, rfl, hu, hv⟩ := ih.1 h
      exact ⟨b :: u, v, rfl, (matches_item_cons hi).2 ⟨hb, hu⟩, hv⟩
    rintro ⟨u, v, rfl, hu, hv⟩
    obtain ⟨b, u', rfl, hb, hu'⟩ := (matches_item hi).1 hu
    exact ⟨b, u' ++ v, rfl, hb, ih.2 ⟨u', v, rfl, hu', hv⟩⟩

theorem matches_nil_right : Matches R p [] ↔ ∀ i ∈ p, i = .star := by
  induction p with
  | nil => simp [matches_nil_left]
  | cons i p ih =>
    rw [forall_mem_cons, ← ih]
    by_cases hi : i = .star
    · subst hi
      rw [matches_star_nil]
      exact (and_iff_right rfl).symm
    · rw [matches_item hi]
      simp [hi]

theorem matches_star_star : Matches R (.star :: .star :: p) t ↔ Matches R (.star :: p) t := by
  constructor
  · intro h
    obtain ⟨u, v, rfl, hv⟩ := matches_star.1 h
    exact matches_star_append hv u
  · exact .star []

/-- A single character behind a star: it may as well be the first one. -/
theorem matches_star_one : Matches R (.star :: .one :: p) (b :: t) ↔ Matches R (.star :: p) t := by
  have hone : (.one : Item α) ≠ .star := nofun
  induction t generalizing b with
  | nil =>
    rw [matches_star_cons, matches_item_cons hone, matches_star_nil, matches_star_nil,
      matches_item hone]
    simp [Item.Takes]
  | cons c t ih =>
    rw [matches_star_cons, matches_item_cons hone, matches_star_cons (p := p)]
    exact or_congr (and_iff_right trivial) (@ih c)

def Item.map {γ : Type*} (f : α → γ) : Item α → Item γ
  | .star => .star
  | .one => .one
  | .lit a => .lit (f a)

/-- Text and pattern through functions: the characters are compared behind them. -/
theorem matches_map {γ δ : Type*} {S : δ → γ → Prop} {f : α → γ} {g : β → δ} :
    Matches S (p.map (Item.map f)) (t.map g) ↔ Matches (fun b a => S (g b) (f a)) p t := by
  induction p generalizing t with
  | nil => simp [matches_nil_left]
  | cons i p ih =>
    by_cases hi : i = .star
    · subst hi
      induction t with
      | nil =>
        have hnil := @ih []
        rw [map_nil] at hnil
        rw [map_cons, map_nil, Item.map, matches_star_nil, matches_star_nil, hnil]
      | cons b t iht =>
        have hcons := @ih (b :: t)
        rw [map_cons, map_cons, Item.map] at *
        rw [matches_star_cons, matches_star_cons, hcons, iht]
    have hi' : i.map f ≠ .star := by
      cases i with
      | star => exact absurd rfl hi
      | _ => exact nofun
    have htakes : ∀ b, (i.map f).Takes S (g b) ↔ i.Takes (fun b a => S (g b) (f a)) b := by
      intro b
      cases i <;> rfl
    cases t with
    | nil => simp [matches_item hi, matches_item hi']
    | cons b t =>
      rw [map_cons, map_cons, matches_item_cons hi, matches_item_cons hi', ih,
        htakes]

/-! ## Patterns without stars -/

def Fixed (p : List (Item α)) : Prop := ∀ i ∈ p, i ≠ .star

theorem length_of_fixed (hp : Fixed p) (h : Matches R p t) : t.length = p.length := by
  induction p generalizing t with
  | nil =>
    rw [matches_nil_left.1 h]
    rfl
  | cons i p ih =>
    obtain ⟨b, t', rfl, _, h⟩ := (matches_item (hp i mem_cons_self)).1 h
    rw [length_cons, length_cons, ih (fun j hj => hp j (mem_cons_of_mem _ hj)) h]

/-- A pattern that begins without stars takes the text from its front. -/
theorem matches_fixed_append (hp : Fixed p) (hu : u.length = p.length) :
    Matches R (p ++ q) (u ++ t) ↔ Matches R p u ∧ Matches R q t := by
  rw [matches_append]
  constructor
  · intro ⟨u', v, he, hu', hv⟩
    obtain ⟨rfl, rfl⟩ := append_inj he (hu.trans (length_of_fixed hp hu').symm)
    exact ⟨hu', hv⟩
  · intro ⟨hu, hv⟩
    exact ⟨u, t, rfl, hu, hv⟩

/-- **The items up to the next star match at the front**: the rest is left to that star. -/
theorem commit (hp : Fixed p) (hu : Matches R p u) :
    Matches R (.star :: (p ++ .star :: q)) (u ++ t) ↔ Matches R (.star :: q) t := by
  constructor
  · intro h
    obtain ⟨w, v, he, h⟩ := matches_star.1 h
    obtain ⟨u', v', rfl, hu', hv'⟩ := matches_append.1 h
    -- the last star takes its text further behind
    have hlen : u.length ≤ (w ++ u').length := by
      rw [length_of_fixed hp hu, length_append, length_of_fixed hp hu']
      omega
    rw [← append_assoc] at he
    rcases append_eq_append_iff.1 he with ⟨x, _, rfl⟩ | ⟨x, hx, rfl⟩
    · exact matches_star_append hv' x
    have hx0 : x = [] := by
      refine eq_nil_of_length_eq_zero ?_
      rw [hx, length_append] at hlen
      omega
    rwa [hx0] at hv'
  · intro h
    exact .star [] (matches_append.2 ⟨u, t, rfl, hu, h⟩)

/-- The items behind a star match the whole rest of the text: what follows them matches nothing. -/
theorem finish (hp : Fixed p) (hu : Matches R p u) :
    Matches R (.star :: (p ++ q)) u ↔ Matches R q [] := by
  constructor
  · intro h
    obtain ⟨w, v, he, h⟩ := matches_star.1 h
    obtain ⟨u', v', rfl, hu', hv'⟩ := matches_append.1 h
    have hlen := congrArg List.length he
    rw [length_of_fixed hp hu, length_append, length_append, length_of_fixed hp hu'] at hlen
    rwa [eq_nil_of_length_eq_zero (by omega : v'.length = 0)] at hv'
  · intro h
    exact .star [] (matches_append.2 ⟨u, [], (append_nil u).symm, hu, h⟩)

/-- **They cannot match at the front**: the star takes one character more. -/
theorem backtrack (h : ¬ Matches R p (b :: t)) :
    Matches R (.star :: p) (b :: t) ↔ Matches R (.star :: p) t := by
  rw [matches_star_cons]
  exact or_iff_right h

/-! ## Counting -/

/-- How many characters a pattern needs. -/
def size (p : List (Item α)) : Nat := p.countP fun i => match i with | .star => false | _ => true

def lits (p : List (Item α)) : List α := p.filterMap fun i => match i with | .lit a => some a | _ => none

/-- A shortest text of a pattern: stars take nothing, and `one` takes `x`. -/
def own (x : α) (p : List (Item α)) : List α :=
  p.filterMap fun i => match i with | .star => none | .one => some x | .lit a => some a

theorem matches_own {S : α → α → Prop} (hS : ∀ a, S a a) (x : α) (p) : Matches S p (own x p) := by
  induction p with
  | nil => exact .nil
  | cons i p ih =>
    cases i with
    | star => exact .star [] ih
    | one => exact .one x ih
    | lit a => exact .lit (hS a) ih

theorem length_own (x : α) (p) : (own x p).length = size p := by
  induction p with
  | nil => rfl
  | cons i p ih =>
    cases i with
    | _ => simpa [own, size] using ih

theorem countP_own {x : α} {f : α → Bool} (hx : f x = false) (p) :
    (own x p).countP f = (lits p).countP f := by
  induction p with
  | nil => rfl
  | cons i p ih =>
    cases i with
    | star => simpa [own, lits] using ih
    | one => simpa [own, lits, hx] using ih
    | lit a => simpa [own, lits, countP_cons] using ih

theorem size_le (h : Matches R p t) : size p ≤ t.length := by
  induction h with
  | nil => exact Nat.le_refl _
  | star u _ ih =>
    rw [length_append]
    exact Nat.le_add_left_of_le (by simpa [size] using ih)
  | one b _ ih => simpa [size] using ih
  | lit _ _ ih => simpa [size] using ih

/-- Literals of a kind are matched by characters of that kind. -/
theorem countP_lits_le {f : α → Bool} {g : β → Bool} (hfg : ∀ b a, R b a → f a = true → g b = true)
    (h : Matches R p t) : (lits p).countP f ≤ t.countP g := by
  induction h with
  | nil => exact Nat.le_refl _
  | star u _ ih =>
    rw [countP_append]
    exact Nat.le_add_left_of_le (by simpa [lits] using ih)
  | one b _ ih =>
    rw [countP_cons]
    exact Nat.le_add_right_of_le (by simpa [lits] using ih)
  | @lit p t a b hb _ ih =>
    have hone : (if f a = true then 1 else 0) ≤ if g b = true then 1 else 0 := by
      by_cases ha : f a = true
      · simp [ha, hfg b a hb ha]
      · rw [if_neg ha]
        exact Nat.zero_le _
    have hlits : lits (.lit a :: p) = a :: lits p := rfl
    rw [hlits, countP_cons, countP_cons]
    exact Nat.add_le_add ih hone

theorem length_lits_le (p : List (Item α)) : (lits p).length ≤ size p := by
  induction p with
  | nil => exact Nat.le_refl _
  | cons i p ih =>
    cases i with
    | star => simpa [lits, size] using ih
    | one => exact Nat.le_trans ih (by simp [size])
    | lit a => simpa [lits, size] using ih

theorem size_le_iff : size p ≤ (lits p).length ↔ .one ∉ p := by
  induction p with
  | nil => exact iff_of_true (Nat.le_refl _) not_mem_nil
  | cons i p ih =>
    cases i with
    | star => simpa [lits, size] using ih
    | one =>
      have hle := length_lits_le p
      have hsize : size (.one :: p) = size p + 1 := by simp [size]
      have hlits : lits (.one :: p) = lits p := rfl
      rw [hlits]
      exact iff_of_false (by omega) fun h => h mem_cons_self
    | lit a => simpa [lits, size] using ih

theorem mem_own {x a : α} (h : a ∈ own x p) : a = x ∨ a ∈ lits p := by
  obtain ⟨i, hi, ha⟩ := mem_filterMap.1 h
  cases i with
  | star => exact nomatch ha
  | one => exact .inl (Option.some.inj ha).symm
  | lit b => exact .inr (mem_filterMap.2 ⟨.lit b, hi, ha⟩)

/-- **A pattern with a `one` is no pattern without**: one of three shortest texts tells them apart. -/
theorem one_notMem_of_agree {κ : Type*} [DecidableEq κ] {key : α → κ} {x y : α} (hxy : key x ≠ key y)
    (hp : .one ∉ p) (hq : Matches (fun b a => key b = key a) q (own x p))
    (hx : Matches (fun b a => key b = key a) p (own x q))
    (hy : Matches (fun b a => key b = key a) p (own y q)) : .one ∉ q := by
  -- the literals like `x` are counted in the text with `y`, the others in the text with `x`
  have hlike := countP_lits_le (f := fun a => decide (key a = key x))
    (g := fun a => decide (key a = key x)) (fun b a hba ha => by simpa [hba] using ha) hy
  have hother := countP_lits_le (f := fun a => !decide (key a = key x))
    (g := fun a => !decide (key a = key x)) (fun b a hba ha => by simpa [hba] using ha) hx
  rw [countP_own (by simpa using hxy.symm)] at hlike
  rw [countP_own (by simp)] at hother
  have hsum : ∀ l : List α, l.length = l.countP (fun a => decide (key a = key x)) +
      l.countP (fun a => !decide (key a = key x)) := by
    intro l
    rw [length_eq_countP_add_countP fun a => decide (key a = key x)]
    simp
  have hp := size_le_iff.2 hp
  have hle := size_le hq
  rw [length_own] at hle
  refine size_le_iff.1 ?_
  rw [hsum (lits q)]
  rw [hsum (lits p)] at hp
  omega

end Base.Glob
