/-
  File:      MegaSdk/Fuse/SharedMutex.lean
  Subject:   THE MUTEX WITH SHARED OWNERSHIP (shared_mutex.cpp, shared_mutex.h).

  Every section under `mLock` is one step, and so is every notification after it: `unlock` and
  `unlock_shared` notify when they have released `mLock`. A sleeping thread may wake at any time, by
  its deadline or without a reason. The locks that are held are kept beside the class's members.

  * **`shared_of_run`** -- one writer or only readers, what `mCounter` counts, no lost wake-up.
-/
import Mathlib

namespace MegaSdk.Fuse.SharedMutex

open Function

/-! ## 1. The code -/

inductive Kind
  | reader
  | writer
deriving DecidableEq

inductive Pc
  | idle
  /-- Blocked in `wait_until` of `mReaderCV` or `mWriterCV`. -/
  | asleep (k : Kind)
  /-- Notified, and yet to take `mLock` and look at the predicate. -/
  | notified (k : Kind)
  /-- Woken by its deadline, or without a reason. -/
  | woken (k : Kind)
  /-- In `unlock`, before `mReaderCV.notify_all`. -/
  | notifyAll
  /-- In `unlock` or `unlock_shared`, before `mWriterCV.notify_one`. -/
  | notifyOne
deriving DecidableEq

/-- `mReaders` and `writers` are the locks that are held, each with its thread. -/
structure State (T : Type) where
  mCounter : Int := 0
  mWriterID : Option T := none
  mReaders : List T := []
  writers : List T := []
  pc : T → Pc := fun _ => .idle

inductive Event (T : Type)
  /-- `try_lock_shared_until` or `try_lock_until`, to the first look at the predicate. -/
  | tryLock (k : Kind) (t : T)
  | wake (t : T)
  /-- A look at the predicate after a wait; `timeout` is what the wait returned. -/
  | look (t : T) (timeout : Bool)
  | unlock (t : T)
  | unlockShared (t : T)
  | uniqueToShared (t : T)
  | notifyAll (t : T)
  /-- `mWriterCV.notify_one`, which wakes `w` if any writer sleeps. -/
  | notifyOne (t w : T)

variable {T : Type} {k : Kind}

namespace State

variable [DecidableEq T] (s : State T)

def goto (t : T) (p : Pc) : State T := { s with pc := update s.pc t p }

/-- The predicate of `wait_until` and what follows if it holds; if not, the thread is at `p`. -/
def tryWait (t : T) (p : Pc) : Kind → State T
  | .reader =>
    if 0 ≤ s.mCounter then
      { s with pc := update s.pc t .idle, mReaders := t :: s.mReaders, mCounter := s.mCounter + 1 }
    else s.goto t p
  | .writer =>
    if s.mCounter = 0 then
      { s with pc := update s.pc t .idle, mWriterID := some t, writers := t :: s.writers
               mCounter := s.mCounter - 1 }
    else s.goto t p

def tryLock (t : T) : Kind → State T
  | .reader => s.tryWait t (.asleep .reader) .reader
  | .writer =>
    if s.mWriterID = some t then { s with writers := t :: s.writers, mCounter := s.mCounter - 1 }
    else s.tryWait t (.asleep .writer) .writer

def unlock (t : T) : State T :=
  let counter := s.mCounter + 1
  { s with
    mCounter := counter, writers := s.writers.erase t
    mWriterID := if counter = 0 then none else s.mWriterID
    pc := update s.pc t (if counter < 0 then .idle else .notifyAll) }

def unlockShared (t : T) : State T :=
  let counter := s.mCounter - 1
  { s with
    mCounter := counter, mReaders := s.mReaders.erase t
    pc := update s.pc t (if counter > 0 then .idle else .notifyOne) }

def notifyReaders : State T :=
  { s with pc := fun t => if s.pc t = .asleep .reader then .notified .reader else s.pc t }

def uniqueToShared (t : T) : State T :=
  { s.notifyReaders with
    mCounter := 1, mWriterID := none, mReaders := t :: s.mReaders, writers := s.writers.erase t }

variable [Fintype T]

/-- An event that its thread cannot cause changes nothing. A thread makes one call at a time, and
gives up only locks it holds; the last condition is the assertion of `unique_to_shared`. -/
def step : Event T → State T
  | .tryLock k t => if s.pc t = .idle then s.tryLock t k else s
  | .wake t =>
    match s.pc t with
    | .asleep k => s.goto t (.woken k)
    | _ => s
  | .look t timeout =>
    match s.pc t with
    | .notified k | .woken k => s.tryWait t (if timeout then .idle else .asleep k) k
    | _ => s
  | .unlock t => if s.pc t = .idle ∧ t ∈ s.writers then s.unlock t else s
  | .unlockShared t => if s.pc t = .idle ∧ t ∈ s.mReaders then s.unlockShared t else s
  | .uniqueToShared t =>
    if s.pc t = .idle ∧ t ∈ s.writers ∧ s.mCounter = -1 then s.uniqueToShared t else s
  | .notifyAll t => if s.pc t = .notifyAll then s.notifyReaders.goto t .notifyOne else s
  | .notifyOne t w =>
    if s.pc t = .notifyOne then
      if s.pc w = .asleep .writer then (s.goto w (.notified .writer)).goto t .idle
      else if ∃ u, s.pc u = .asleep .writer then s else s.goto t .idle
    else s

end State

def run [DecidableEq T] [Fintype T] (es : List (Event T)) : State T := es.foldl (·.step ·) {}

/-! ## 2. Every interleaving -/

def Held (s : State T) : Prop :=
  s.writers = [] ∧ s.mWriterID = none ∧ s.mCounter = s.mReaders.length ∨
    ∃ w d, s.mReaders = [] ∧ s.writers = List.replicate (d + 1) w ∧ s.mWriterID = some w ∧
      s.mCounter = -(d + 1 : Int)

/-- Where no writer holds the mutex, a sleeping reader is about to be notified. -/
def ReadersTold (c : Int) (pc : T → Pc) : Prop :=
  0 ≤ c → ∀ t, pc t = .asleep .reader → ∃ u, pc u = .notifyAll

/-- Where the mutex is free and a writer sleeps, one is about to be notified, or has been and is yet
to look. -/
def WritersTold (c : Int) (pc : T → Pc) : Prop :=
  c = 0 → ∀ t, pc t = .asleep .writer →
    ∃ u, pc u = .notifyAll ∨ pc u = .notifyOne ∨ pc u = .notified .writer

structure Inv (s : State T) : Prop where
  held : Held s
  readers : ReadersTold s.mCounter s.pc
  writers : WritersTold s.mCounter s.pc

section

variable {c c' : Int} {pc : T → Pc} {t : T} {p : Pc}

theorem State.notifyReaders_awake (s : State T) : s.notifyReaders.pc t ≠ .asleep .reader := by
  dsimp only [State.notifyReaders]
  split <;> [nofun; assumption]

theorem WritersTold.of_ne (hc : c ≠ 0) : WritersTold c pc := fun h0 => absurd h0 hc

variable [DecidableEq T]

theorem asleep_of_update {u : T} (hu : update pc t p u = .asleep k)
    (hp : p ≠ .asleep k) : pc u = .asleep k := by
  rw [update_apply] at hu
  split at hu
  · exact absurd hu hp
  · exact hu

theorem ReadersTold.update (h : ReadersTold c pc) (hc : 0 ≤ c' → 0 ≤ c)
    (ht : pc t ≠ .notifyAll) (hp : p ≠ .asleep .reader) : ReadersTold c' (update pc t p) := by
  intro h0 u hu
  obtain ⟨v, hv⟩ := h (hc h0) u (asleep_of_update hu hp)
  exact ⟨v, (update_of_ne (fun e : v = t => ht (e ▸ hv)) _ _).trans hv⟩

end

namespace Inv

variable [DecidableEq T] {s : State T} {t : T} {p : Pc}

section

variable (h : Inv s)
include h

theorem tryWait (ht : s.pc t ≠ .notifyAll) (k)
    (hp : k = .writer → p ≠ .asleep .reader) : Inv (s.tryWait t p k) := by
  obtain ⟨hh, hr, -⟩ := h
  cases k with
  | reader =>
    dsimp only [State.tryWait]
    split
    · refine ⟨?_, hr.update (by omega) ht nofun, .of_ne (c := s.mCounter + 1) (by omega)⟩
      rcases hh with ⟨he, hi, hc⟩ | ⟨w, d, -, -, -, hc⟩
      · exact .inl ⟨he, hi, by rw [hc]; rfl⟩
      · omega
    · rename_i h0
      exact ⟨hh, fun h1 => absurd h1 h0, .of_ne fun h1 : s.mCounter = 0 => h0 h1.ge⟩
  | writer =>
    dsimp only [State.tryWait]
    split
    · refine ⟨?_, fun h1 : 0 ≤ s.mCounter - 1 => by omega,
        .of_ne (c := s.mCounter - 1) (by omega)⟩
      rcases hh with ⟨he, hi, hc⟩ | ⟨w, d, -, -, -, hc⟩
      · have hr : s.mReaders = [] := List.eq_nil_of_length_eq_zero (by omega)
        exact .inr ⟨t, 0, hr, by rw [he]; rfl, rfl, by rw [hc, hr]; rfl⟩
      · omega
    · exact ⟨hh, hr.update id ht (hp rfl), .of_ne ‹_›⟩

theorem tryLock (ht : s.pc t = .idle) (k) : Inv (s.tryLock t k) := by
  have hn : s.pc t ≠ .notifyAll := by rw [ht]; nofun
  cases k with
  | reader => exact h.tryWait hn .reader nofun
  | writer =>
    unfold State.tryLock
    dsimp only
    split
    · rename_i hi
      rcases h.held with ⟨-, hi', -⟩ | ⟨w, d, hr, hw, hi', hc⟩ <;> rw [hi'] at hi <;> cases hi
      exact ⟨.inr ⟨t, d + 1, hr, by rw [hw]; rfl, hi', by push_cast; omega⟩,
        fun h1 : 0 ≤ s.mCounter - 1 => by omega, .of_ne (c := s.mCounter - 1) (by omega)⟩
    · exact h.tryWait hn _ nofun

/-- A thread that leaves its condition variable without having been notified. -/
theorem wake (ht : s.pc t = .asleep k) : Inv (s.goto t (.woken k)) := by
  refine ⟨h.held, h.readers.update id (by rw [ht]; nofun) nofun, fun h0 u hu => ?_⟩
  obtain ⟨v, hv⟩ := h.writers h0 u (asleep_of_update hu nofun)
  have hne : v ≠ t := fun e => by rw [e, ht] at hv; simp at hv
  exact ⟨v, by dsimp only [State.goto]; rwa [update_of_ne hne]⟩

theorem unlock (ht : t ∈ s.writers) : Inv (s.unlock t) := by
  have hn : ∀ c : Int, 0 ≤ c → (if c < 0 then Pc.idle else .notifyAll) = .notifyAll :=
    fun c h0 => if_neg (not_lt.2 h0)
  refine ⟨?_, fun h0 _ _ => ⟨t, (update_self ..).trans (hn _ h0)⟩,
    fun h0 _ _ => ⟨t, .inl ((update_self ..).trans (hn _ h0.ge))⟩⟩
  rcases h.held with ⟨hw, -, -⟩ | ⟨w, d, hr, hw, hi, hc⟩ <;> rw [hw] at ht
  · cases ht
  cases List.eq_of_mem_replicate ht
  have he : s.writers.erase t = List.replicate d t := by
    rw [hw]
    exact List.erase_cons_head ..
  cases d with
  | zero => exact .inl ⟨he, if_pos (by omega), by dsimp only [State.unlock]; rw [hr, hc]; rfl⟩
  | succ d =>
    have hc' : s.mCounter + 1 = -(d + 1 : Int) := by push_cast at hc; omega
    exact .inr ⟨t, d, hr, he, (if_neg (by omega)).trans hi, hc'⟩

theorem unlockShared (hi : s.pc t = .idle) (ht : t ∈ s.mReaders) : Inv (s.unlockShared t) := by
  refine ⟨?_, h.readers.update (fun h0 : 0 ≤ s.mCounter - 1 => by omega) (by rw [hi]; nofun) ?_,
    fun h0 _ _ => ⟨t, .inr (.inl ((update_self ..).trans (if_neg h0.le.not_gt)))⟩⟩
  · rcases h.held with ⟨hw, hi, hc⟩ | ⟨w, d, hr, -⟩
    · have hl := List.length_erase_of_mem ht
      have hp := List.length_pos_of_mem ht
      exact .inl ⟨hw, hi, by dsimp only [State.unlockShared]; omega⟩
    · rw [hr] at ht
      cases ht
  · split <;> nofun

theorem uniqueToShared (ht : t ∈ s.writers) (h1 : s.mCounter = -1) : Inv (s.uniqueToShared t) := by
  refine ⟨?_, fun _ u hu => absurd hu s.notifyReaders_awake, .of_ne (c := 1) one_ne_zero⟩
  rcases h.held with ⟨hw, -, -⟩ | ⟨w, d, hr, hw, hi, hc⟩ <;> rw [hw] at ht
  · cases ht
  · cases List.eq_of_mem_replicate ht
    obtain rfl : d = 0 := by omega
    refine .inl ⟨?_, rfl, ?_⟩ <;> dsimp only [State.uniqueToShared]
    · rw [hw]
      exact List.erase_cons_head ..
    · rw [hr]
      rfl

theorem notifyAll : Inv (s.notifyReaders.goto t .notifyOne) := by
  refine ⟨h.held, fun _ u hu => ?_, fun _ _ _ => ⟨t, .inr (.inl (update_self ..))⟩⟩
  exact absurd (asleep_of_update hu nofun) s.notifyReaders_awake

theorem notifyOne (ht : s.pc t = .notifyOne) {w : T}
    (hw : s.pc w = .asleep .writer) : Inv ((s.goto w (.notified .writer)).goto t .idle) := by
  have hne : w ≠ t := fun e => by rw [e, ht] at hw; cases hw
  refine ⟨h.held, ?_, fun _ _ _ => ⟨w, .inr (.inr ((update_of_ne hne ..).trans (update_self ..)))⟩⟩
  have h1 := h.readers.update (t := w) (p := .notified .writer) id (by rw [hw]; nofun) nofun
  exact h1.update id (by rw [update_of_ne hne.symm, ht]; nofun) nofun

theorem notifyNone (ht : s.pc t = .notifyOne) (hno : ¬∃ u, s.pc u = .asleep .writer) :
    Inv (s.goto t .idle) := by
  refine ⟨h.held, h.readers.update id (by rw [ht]; nofun) nofun, fun _ u hu => ?_⟩
  exact absurd ⟨u, asleep_of_update hu nofun⟩ hno

theorem step [Fintype T] (e : Event T) : Inv (s.step e) := by
  cases e <;> dsimp only [State.step] <;> split <;> try exact h
  case tryLock.isTrue hi => exact h.tryLock hi _
  · exact h.wake ‹_›
  iterate 2
    refine h.tryWait (by rw [‹s.pc _ = _›]; nofun) _ ?_
    rintro rfl
    split <;> nofun
  case unlock.isTrue hu => exact h.unlock hu.2
  case unlockShared.isTrue hu => exact h.unlockShared hu.1 hu.2
  case uniqueToShared.isTrue hu => exact h.uniqueToShared hu.2.1 hu.2.2
  case notifyAll.isTrue => exact h.notifyAll
  case notifyOne.isTrue ht =>
    split
    · exact h.notifyOne ht ‹_›
    · split <;> [exact h; exact h.notifyNone ht ‹_›]

end

end Inv

/-- **In every run nobody writes, or one thread does and nobody reads; `mCounter` is the number of
read locks, or minus the writer's depth. A reader that sleeps while no writer holds the mutex is
about to be notified, and if a writer sleeps while the mutex is free one is about to be notified,
or has been.** -/
theorem shared_of_run [DecidableEq T] [Fintype T] (es : List (Event T)) :
    Held (run es) ∧ ReadersTold (run es).mCounter (run es).pc ∧
      WritersTold (run es).mCounter (run es).pc := by
  obtain ⟨h1, h2, h3⟩ : Inv (run es) := es.foldlRecOn (motive := Inv) _
    ⟨.inl ⟨rfl, rfl, rfl⟩, nofun, nofun⟩ fun _ h e _ => h.step e
  exact ⟨h1, h2, h3⟩

end MegaSdk.Fuse.SharedMutex
