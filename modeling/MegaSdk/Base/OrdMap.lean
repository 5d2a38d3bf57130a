/-
  File:      MegaSdk/Base/OrdMap.lean
  Subject:   ORDERED FINITE MAPS. No program fact.

  A map is its list of entries in strictly increasing key order (`OrdMap`), so walking it from
  the front is iterating in key order and the first entry is the smallest key.

  * `get?`, `insert`, `erase` with their lookup equations (`get?_insert`, `get?_erase`);
  * `insertL_append` -- inserting a key above a front part leaves the front part alone.
-/
import Mathlib

namespace Base

open List

/-- A finite map kept as its entries in strictly increasing key order. -/
structure OrdMap (K V : Type*) [LinearOrder K] where
  entries : List (K × V)
  sorted : entries.Pairwise fun a b => a.1 < b.1

namespace OrdMap

variable {K V : Type*} [LinearOrder K]

instance [DecidableEq V] : DecidableEq (OrdMap K V) := fun a b =>
  decidable_of_iff (a.entries = b.entries)
    ⟨fun h => by cases a; cases b; simpa using h, fun h => h ▸ rfl⟩

theorem ext_entries {a b : OrdMap K V} (h : a.entries = b.entries) : a = b := by
  cases a; cases b; simpa using h

def empty : OrdMap K V := ⟨[], .nil⟩

def size (m : OrdMap K V) : Nat := m.entries.length

variable {k j : K} {v : V} {m : OrdMap K V}

/-! ## 1. On the entry list -/

def getL (k : K) : List (K × V) → Option V
  | [] => none
  | (a, v) :: t => if a = k then some v else getL k t

/-- Insert or overwrite the entry of `k` in an ordered entry list. -/
def insertL (k : K) (v : V) : List (K × V) → List (K × V)
  | [] => [(k, v)]
  | (a, w) :: t =>
    if k < a then (k, v) :: (a, w) :: t
    else if a = k then (k, v) :: t
    else (a, w) :: insertL k v t

theorem mem_insertL {e : K × V} :
    ∀ {l : List (K × V)}, e ∈ insertL k v l → e = (k, v) ∨ e ∈ l
  | [], h => by simpa [insertL] using h
  | (a, w) :: t, h => by
      unfold insertL at h
      split at h
      · simpa using h
      split at h
      · rcases mem_cons.1 h with h | h
        · exact .inl h
        · exact .inr (mem_cons_of_mem _ h)
      rcases mem_cons.1 h with h | h
      · exact .inr (h ▸ mem_cons_self)
      · exact (mem_insertL h).imp id (mem_cons_of_mem _)

theorem sorted_insertL (k v) : ∀ {l : List (K × V)},
    l.Pairwise (fun a b => a.1 < b.1) → (insertL k v l).Pairwise fun a b => a.1 < b.1
  | [], _ => by simp [insertL]
  | (a, w) :: t, h => by
      obtain ⟨ha, ht⟩ := pairwise_cons.1 h
      unfold insertL
      split
      · rename_i hk
        refine pairwise_cons.2 ⟨fun e he => ?_, h⟩
        rcases mem_cons.1 he with rfl | he
        · exact hk
        · exact hk.trans (ha e he)
      split
      · subst_vars
        exact pairwise_cons.2 ⟨ha, ht⟩
      rename_i hk hne
      refine pairwise_cons.2 ⟨fun e he => ?_, sorted_insertL k v ht⟩
      rcases mem_insertL he with rfl | he
      · exact lt_of_le_of_ne (not_lt.1 hk) hne
      · exact ha e he

theorem getL_insertL (k j v) : ∀ l : List (K × V),
    l.Pairwise (fun a b => a.1 < b.1) →
      getL j (insertL k v l) = if k = j then some v else getL j l
  | [], _ => by simp [insertL, getL]
  | (a, w) :: t, h => by
      obtain ⟨ha, ht⟩ := pairwise_cons.1 h
      have ih := getL_insertL k j v t ht
      unfold insertL
      split
      · rfl
      split
      · subst_vars
        simp only [getL]
        split <;> rfl
      rename_i hne
      simp only [getL, ih]
      split
      · rename_i haj
        rw [if_neg fun hkj => hne (haj.trans hkj.symm)]
      · rfl

theorem insertL_append : ∀ {pre post : List (K × V)},
    (∀ e ∈ pre, e.1 < k) → insertL k v (pre ++ post) = pre ++ insertL k v post
  | [], _, _ => rfl
  | (a, w) :: t, post, h => by
      have ha : a < k := h (a, w) mem_cons_self
      have ih : insertL k v (t ++ post) = t ++ insertL k v post :=
        insertL_append fun e he => h e (mem_cons_of_mem _ he)
      simp only [cons_append, insertL, if_neg ha.le.not_gt, if_neg ha.ne, ih]

theorem getL_eq_some : ∀ {l : List (K × V)},
    l.Pairwise (fun a b => a.1 < b.1) → (getL k l = some v ↔ (k, v) ∈ l)
  | [], _ => by simp [getL]
  | (a, w) :: t, h => by
      obtain ⟨ha, ht⟩ := pairwise_cons.1 h
      simp only [getL, mem_cons, Prod.mk.injEq]
      split_ifs with hak
      · subst hak
        refine ⟨fun e => .inl ⟨rfl, (Option.some.inj e).symm⟩, fun e => ?_⟩
        rcases e with ⟨_, rfl⟩ | e
        · rfl
        · exact absurd (ha _ e) (lt_irrefl _)
      rw [getL_eq_some ht]
      refine ⟨.inr, fun e => e.resolve_left fun ⟨e1, _⟩ => hak e1.symm⟩

/-! ## 2. On maps -/

def get? (m : OrdMap K V) (k : K) : Option V := getL k m.entries

def insert (m : OrdMap K V) (k : K) (v : V) : OrdMap K V :=
  ⟨insertL k v m.entries, sorted_insertL k v m.sorted⟩

def erase (m : OrdMap K V) (k : K) : OrdMap K V :=
  ⟨m.entries.filter fun e => e.1 ≠ k, m.sorted.filter _⟩

def eraseFirst (m : OrdMap K V) : OrdMap K V := ⟨m.entries.tail, m.sorted.tail⟩

@[simp] theorem entries_insert (m : OrdMap K V) (k) (v) :
    (m.insert k v).entries = insertL k v m.entries := rfl

theorem entries_insert_last (h : ∀ e ∈ m.entries, e.1 < k) (v) :
    (m.insert k v).entries = m.entries ++ [(k, v)] := by
  have hend : insertL k v (m.entries ++ []) = m.entries ++ insertL k v [] := insertL_append h
  rwa [append_nil] at hend

theorem entries_foldl_insert : ∀ (es : List (K × V)) {m : OrdMap K V},
    (m.entries ++ es).Pairwise (fun a b => a.1 < b.1) →
      (es.foldl (fun m e => m.insert e.1 e.2) m).entries = m.entries ++ es
  | [], _, _ => (append_nil _).symm
  | e :: es, m, h => by
      have hlast := entries_insert_last
        (fun a ha => (pairwise_append.1 h).2.2 a ha e mem_cons_self) e.2
      rw [foldl_cons, entries_foldl_insert es (by rwa [hlast, append_assoc]), hlast, append_assoc]
      rfl

section

variable (m : OrdMap K V)

theorem foldl_insert_entries : m.entries.foldl (fun m e => m.insert e.1 e.2) empty = m :=
  ext_entries (entries_foldl_insert _ m.sorted)

@[simp] theorem entries_eraseFirst : m.eraseFirst.entries = m.entries.tail := rfl

theorem get?_insert (k j v) : (m.insert k v).get? j = if k = j then some v else m.get? j :=
  getL_insertL k j v _ m.sorted

@[simp] theorem get?_insert_self (k v) : (m.insert k v).get? k = some v := by
  rw [get?_insert, if_pos rfl]

end

theorem get?_eq_some : m.get? k = some v ↔ (k, v) ∈ m.entries := getL_eq_some m.sorted

theorem value_unique {w : V} (hv : (k, v) ∈ m.entries) (hw : (k, w) ∈ m.entries) : v = w := by
  have h := get?_eq_some.2 hv
  rw [get?_eq_some.2 hw] at h
  exact (Option.some.inj h).symm

theorem entries_eq_of_mem_iff {l : List (K × V)} (hl : l.Pairwise fun a b => a.1 < b.1)
    (h : ∀ x, x ∈ m.entries ↔ x ∈ l) : m.entries = l := by
  exact m.sorted.eq_of_mem_iff hl h

theorem mem_entries_insert {e : K × V} :
    e ∈ (m.insert k v).entries ↔ e = (k, v) ∨ (e ∈ m.entries ∧ e.1 ≠ k) := by
  obtain ⟨j, w⟩ := e
  rw [← get?_eq_some, ← get?_eq_some, get?_insert]
  split_ifs with h
  · subst h
    simp [eq_comm]
  · simp [Ne.symm h]

@[simp] theorem get?_empty (k) : (empty : OrdMap K V).get? k = none := rfl

theorem get?_erase (m : OrdMap K V) (k j) :
    (m.erase k).get? j = if k = j then none else m.get? j := by
  refine Option.ext fun v => ?_
  rw [get?_eq_some]
  simp only [erase, mem_filter, decide_eq_true_eq]
  split_ifs with h
  · subst h
    simp
  rw [get?_eq_some]
  exact ⟨fun e => e.1, fun e => ⟨e, fun hjk => h hjk.symm⟩⟩

/-! ## 3. The keys -/

def keys (m : OrdMap K V) : List K := m.entries.map (·.1)

theorem nodup_keys (m : OrdMap K V) : m.keys.Nodup :=
  pairwise_map.2 (m.sorted.imp fun h => h.ne)

theorem mem_keys : k ∈ m.keys ↔ (m.get? k).isSome := by
  rw [Option.isSome_iff_exists, keys, mem_map]
  constructor
  · rintro ⟨e, he, rfl⟩
    exact ⟨e.2, get?_eq_some.2 he⟩
  · rintro ⟨v, hv⟩
    exact ⟨(k, v), get?_eq_some.1 hv, rfl⟩

theorem length_keys (m : OrdMap K V) : m.keys.length = m.size := length_map ..

theorem mem_keys_insert : j ∈ (m.insert k v).keys ↔ j = k ∨ j ∈ m.keys := by
  rw [mem_keys, get?_insert, mem_keys]
  split_ifs with h
  · simp [h]
  · exact ⟨.inr, fun hj => hj.resolve_left fun he => h he.symm⟩

theorem mem_keys_erase : j ∈ (m.erase k).keys ↔ j ≠ k ∧ j ∈ m.keys := by
  rw [mem_keys, get?_erase, mem_keys]
  split_ifs with h
  · simp [h]
  · exact ⟨fun hj => ⟨fun he => h he.symm, hj⟩, And.right⟩

end OrdMap

end Base
