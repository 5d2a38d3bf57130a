/-
  File:      MegaSdk/Base/Tree.lean
  Subject:   BINARY TREES WITH A HOLE. No program fact.

  * `BinTree α` -- binary trees, read in order by `toList`; `fork d s a t` writes a node by the side
    `d` of its first subtree, so that one statement covers a left and a right case;
  * `Balanced` -- the subtrees of every node differ in height by at most one; such a tree of `n`
    nodes is low: `Balanced.fib_le`, `Balanced.height_lt`;
  * `Zipper α` -- the way from a hole up to the root; `plug` fills the hole, `before` and `after`
    are what the whole tree holds to the left and to the right of it (`toList_plug`).
-/
import Mathlib

namespace Base

open List

inductive BinTree (α : Type*) where
  | nil
  | node (l : BinTree α) (a : α) (r : BinTree α)

namespace BinTree

variable {α : Type*}

def root : BinTree α → Option α
  | nil => none
  | node _ a _ => some a

def toList : BinTree α → List α
  | nil => []
  | node l a r => l.toList ++ a :: r.toList

def height : BinTree α → Nat
  | nil => 0
  | node l _ r => max l.height r.height + 1

/-- The subtrees of every node differ in height by at most one. -/
def Balanced : BinTree α → Prop
  | nil => True
  | node l _ r => l.height ≤ r.height + 1 ∧ r.height ≤ l.height + 1 ∧ l.Balanced ∧ r.Balanced

/-- The node `a` with `s` on its side `d` (`true` is right) and `t` on the other. -/
def fork : Bool → BinTree α → α → BinTree α → BinTree α
  | false, s, a, t => node s a t
  | true, s, a, t => node t a s

variable (d : Bool) (s t : BinTree α) (a : α)

@[simp] theorem root_fork : (fork d s a t).root = some a := by
  cases d <;> rfl

@[simp] theorem height_fork : (fork d s a t).height = max s.height t.height + 1 := by
  cases d
  · rfl
  · simp [fork, height, max_comm]

theorem fork_not : fork (!d) s a t = fork d t a s := by
  cases d <;> rfl

theorem balanced_fork : (fork d s a t).Balanced ↔
    s.height ≤ t.height + 1 ∧ t.height ≤ s.height + 1 ∧ s.Balanced ∧ t.Balanced := by
  cases d
  · rfl
  · simp only [fork, Balanced]
    tauto

theorem mem_fork (b : α) : b ∈ (fork d s a t).toList ↔ b = a ∨ b ∈ s.toList ∨ b ∈ t.toList := by
  cases d <;> simp only [fork, toList, mem_append, mem_cons] <;> tauto

theorem nodup_fork : (fork d s a t).toList.Nodup ↔
    a ∉ s.toList ∧ a ∉ t.toList ∧ s.toList.Nodup ∧ t.toList.Nodup ∧
      ∀ b ∈ s.toList, b ∉ t.toList := by
  cases d
  · simp only [fork, toList]
    grind
  · simp only [fork, toList]
    grind

theorem toList_rotate (x y z : BinTree α) (c a : α) :
    (fork d (fork d x c y) a z).toList = (fork d x c (fork d y a z)).toList := by
  cases d <;> simp [fork, toList]

theorem toList_fork_congr {s s' : BinTree α} (h : s'.toList = s.toList) (a)
    (t) : (fork d s' a t).toList = (fork d s a t).toList := by
  cases d <;> simp [fork, toList, h]

theorem exists_fork : ∀ {t : BinTree α}, 0 < t.height → ∃ s a u, t = fork d s a u
  | nil, h => absurd h (lt_irrefl 0)
  | node l a r, _ => by
      cases d
      · exact ⟨l, a, r, rfl⟩
      · exact ⟨r, a, l, rfl⟩

theorem root_mem : ∀ {t : BinTree α} {a : α}, t.root = some a → a ∈ t.toList
  | node l b r, a, h => by
      cases h
      exact mem_append_right _ (mem_cons_self ..)

theorem height_le_length : ∀ t : BinTree α, t.height ≤ t.toList.length
  | nil => le_refl 0
  | node l a r => by
      have hl := height_le_length l
      have hr := height_le_length r
      simp only [height, toList, length_append, length_cons]
      omega

def mirror : BinTree α → BinTree α
  | nil => nil
  | node l a r => node r.mirror a l.mirror

@[simp] theorem root_mirror : t.mirror.root = t.root := by
  cases t <;> rfl

@[simp] theorem height_mirror : ∀ t : BinTree α, t.mirror.height = t.height
  | nil => rfl
  | node l a r => by
      simp only [mirror, height, height_mirror l, height_mirror r]
      omega

@[simp] theorem toList_mirror : ∀ t : BinTree α, t.mirror.toList = t.toList.reverse
  | nil => rfl
  | node l a r => by simp [mirror, toList, toList_mirror l, toList_mirror r]

theorem Balanced.mirror : ∀ {t : BinTree α}, t.Balanced → t.mirror.Balanced
  | nil, _ => trivial
  | node l a r, ⟨h1, h2, hl, hr⟩ => by
      refine ⟨?_, ?_, Balanced.mirror hr, Balanced.mirror hl⟩
      · simpa using h2
      · simpa using h1

/-! ## 1. Balanced trees are low -/

/-- A balanced tree of height `h` has at least `fib (h + 2) - 1` nodes. -/
theorem Balanced.fib_le : ∀ {t : BinTree α}, t.Balanced → Nat.fib (t.height + 2) ≤ t.toList.length + 1
  | nil, _ => le_refl 1
  | node l a r, hb => by
      obtain ⟨h1, h2, hl, hr⟩ := hb
      have el := fib_le hl
      have er := fib_le hr
      have step : Nat.fib (max l.height r.height + 1 + 2) =
          Nat.fib (max l.height r.height + 1) + Nat.fib (max l.height r.height + 2) :=
        Nat.fib_add_two
      have low : Nat.fib (max l.height r.height + 1) ≤ Nat.fib (min l.height r.height + 2) :=
        Nat.fib_mono (by omega)
      simp only [height, toList, length_append, length_cons]
      rcases Nat.le_total l.height r.height with h | h
      · rw [max_eq_right h] at step low ⊢
        rw [min_eq_left h] at low
        omega
      rw [max_eq_left h] at step low ⊢
      rw [min_eq_right h] at low
      omega

/-- A balanced tree of at most `2 ^ 64` nodes has fewer than a hundred levels. -/
theorem Balanced.height_lt {t : BinTree α} (hb : t.Balanced) (hn : t.toList.length ≤ 2 ^ 64) :
    t.height < 100 := by
  rcases lt_or_ge t.height 100 with h | h
  · exact h
  have h1 : Nat.fib 102 ≤ Nat.fib (t.height + 2) := Nat.fib_mono (by omega)
  have h2 : 2 ^ 64 + 1 < Nat.fib 102 := by decide +kernel
  have h3 := hb.fib_le
  omega

end BinTree

/-! ## 2. The way up -/

/-- A step up: the node above, the side the hole is on, the subtree on the other side. -/
structure Frame (α : Type*) where
  side : Bool
  label : α
  sibling : BinTree α

/-- The steps from a hole up to the root, the innermost first. -/
abbrev Zipper (α : Type*) := List (Frame α)

namespace Zipper

open BinTree

variable {α : Type*}

/-- The tree with `t` in the hole. -/
def plug : Zipper α → BinTree α → BinTree α
  | [], t => t
  | f :: p, t => plug p (fork f.side t f.label f.sibling)

def before : Zipper α → List α
  | [] => []
  | f :: p => before p ++ (bif f.side then f.sibling.toList ++ [f.label] else [])

def after : Zipper α → List α
  | [] => []
  | f :: p => (bif f.side then [] else f.label :: f.sibling.toList) ++ after p

/-- The node above the hole, `par` when the hole is the whole tree. -/
def above (par : Option α) : Zipper α → Option α
  | [] => par
  | f :: _ => some f.label

/-- The root of the tree, when `sub` is that of the tree in the hole. -/
def top (sub : Option α) : Zipper α → Option α
  | [] => sub
  | f :: p => top (some f.label) p

/-- The height of the tree, when `k` is that of the tree in the hole. -/
def height (k : Nat) : Zipper α → Nat
  | [] => k
  | f :: p => height (max k f.sibling.height + 1) p

theorem toList_plug : ∀ (p : Zipper α) (t : BinTree α),
    (plug p t).toList = before p ++ t.toList ++ after p
  | [], t => by simp [plug, before, after]
  | f :: p, t => by
      rw [plug, toList_plug p]
      rcases f with ⟨d, a, s⟩
      cases d <;> simp [fork, toList, before, after]

theorem plug_append : ∀ (q p : Zipper α) (t : BinTree α), plug (q ++ p) t = plug p (plug q t)
  | [], _, _ => rfl
  | f :: q, p, t => by
      rw [cons_append, plug, plug, plug_append]

theorem root_plug : ∀ (p : Zipper α) (t : BinTree α), (plug p t).root = top t.root p
  | [], _ => rfl
  | f :: p, t => by rw [plug, root_plug p, root_fork, top]

theorem height_plug : ∀ (p : Zipper α) (t : BinTree α), (plug p t).height = height t.height p
  | [], _ => rfl
  | f :: p, t => by rw [plug, height_plug p, height_fork, height]

theorem length_le_plug : ∀ (p : Zipper α) (t : BinTree α),
    p.length + t.toList.length ≤ (plug p t).toList.length
  | [], t => by simp [plug]
  | f :: p, t => by
      have h := length_le_plug p (fork f.side t f.label f.sibling)
      have hf : t.toList.length + 1 ≤ (fork f.side t f.label f.sibling).toList.length := by
        rcases f with ⟨d, a, s⟩
        cases d <;> simp [fork, toList]
      rw [plug, length_cons]
      omega

/-- Every label of a tree is the root of the tree in some hole. -/
theorem exists_plug : ∀ {t : BinTree α} {a : α}, a ∈ t.toList →
    ∃ (p : Zipper α) (l r : BinTree α), t = plug p (node l a r)
  | node l b r, a, h => by
      rcases mem_append.1 h with h | h
      · obtain ⟨p, x, y, rfl⟩ := exists_plug h
        exact ⟨p ++ [⟨false, b, r⟩], x, y, by rw [plug_append]; rfl⟩
      rcases mem_cons.1 h with rfl | h
      · exact ⟨[], l, r, rfl⟩
      · obtain ⟨p, x, y, rfl⟩ := exists_plug h
        exact ⟨p ++ [⟨true, b, l⟩], x, y, by rw [plug_append]; rfl⟩

end Zipper

end Base
