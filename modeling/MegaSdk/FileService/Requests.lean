/-
  File:      MegaSdk/FileService/Requests.lean
  Subject:   THE REQUEST QUEUE OF A `FileContext` (file_context.cpp, file_read_write_state.cpp).

  A request takes the read/write state (`FileReadWriteState`) under the queue lock and is executed,
  or it is queued. When it completes, it gives the state back WITHOUT the queue lock
  (`executed(tag)`), and the completing thread then drains the queue (`execute()`). The steps below
  are those between which another thread can run.

  * `Step` -- `executeOrQueue`, `completed`'s wrapper, `execute()` and the reclaim request that is
    queued from a flush callback, as steps of any number of threads;
  * `HoldersCounted` -- the counter is minus the number of readers, or one writer is alone;
  * `Inv` -- with the lock discipline, and the thread that will drain what is queued;
  * `request_queue_safe` -- the three properties, in every reachable state.
-/
import MegaSdk.Base.Loop

namespace MegaSdk.FileService

open Base List Function

/-! ## 1. The read/write state -/

inductive RequestTag
  | read
  | write
  deriving DecidableEq

inductive RequestType
  | append | fetch | flush | read | reclaim | remove | touch | truncate | write
  deriving DecidableEq

/-- The class each request declares as its `Type`. -/
def RequestType.tag : RequestType → RequestTag
  | .fetch | .flush | .read => .read
  | .append | .reclaim | .remove | .touch | .truncate | .write => .write

/-- A `FileRequest`: which alternative it is, and which request of the caller's. -/
structure FileRequest where
  type : RequestType
  id : Nat
  deriving DecidableEq

def FileRequest.tag (r : FileRequest) : RequestTag := r.type.tag

/-- `std::numeric_limits<long>::min()` for a `long` of `w` bits. -/
def longMin (w : Nat) : Int := -2 ^ (w - 1)

namespace ReadWriteState

/-- `FileReadWriteState::read`: the new `mState` and whether the read can be performed. -/
def read (w : Nat) (mState : Int) : Int × Bool :=
  if mState ≤ 0 ∧ mState > longMin w then (mState - 1, true) else (mState, false)

def write (mState : Int) : Int × Bool := if mState = 0 then (mState + 1, true) else (mState, false)

/-- `FileReadWriteState::readCompleted`; it asserts `mState < 0`. -/
def readCompleted (mState : Int) : Int := mState + 1

/-- `FileReadWriteState::writeCompleted`; it asserts `mState == 1`. -/
def writeCompleted (mState : Int) : Int := mState - 1

end ReadWriteState

variable {w : Nat} {m : Int} {l : List FileRequest} {r : FileRequest}

/-- `FileContext::executable`: takes the state for the request when it can. -/
def executable (w : Nat) (mState : Int) : RequestTag → Int × Bool
  | .read => ReadWriteState.read w mState
  | .write => ReadWriteState.write mState

def executed (mState : Int) : RequestTag → Int
  | .read => ReadWriteState.readCompleted mState
  | .write => ReadWriteState.writeCompleted mState

/-- What the assertion in `executed` demands of the state. -/
def MayComplete (mState : Int) : RequestTag → Prop
  | .read => mState < 0
  | .write => mState = 1

/-- `FileContext::queue`: all but reclaim requests go to the end. -/
def queue (mRequests : List FileRequest) (r : FileRequest) : List FileRequest :=
  if r.type = .reclaim then r :: mRequests else mRequests ++ [r]

/-! ## 2. Threads -/

/-- Where a thread is in `executeOrQueue` or `execute()`. A thread that runs one inside the other
    (a callback that makes a request) is two of these. -/
inductive Pc
  /-- In neither. -/
  | idle
  /-- `executeOrQueue`, with the lock, before `executable`. -/
  | asking (r : FileRequest)
  /-- `executeOrQueue`, with the lock, after `executable` said no. -/
  | queuing (r : FileRequest)
  /-- `execute()`, before it takes the lock, also right after `executed(tag)`. -/
  | draining
  /-- `execute()`, with the lock, the queue not empty, before `executable`. -/
  | askingFront
  /-- `execute()`, with the lock, after `executable` said no. -/
  | leaving
  deriving DecidableEq

def Pc.locked : Pc → Bool
  | .asking _ | .queuing _ | .askingFront | .leaving => true
  | .idle | .draining => false

/-- The thread has yet to finish a call of `execute()`. -/
def Pc.inExecute : Pc → Bool
  | .draining | .askingFront | .leaving => true
  | .idle | .asking _ | .queuing _ => false

/-- `executable` has just refused the thread's request, and the lock is not released yet. -/
def Pc.refused : Pc → Bool
  | .queuing _ | .leaving => true
  | .idle | .asking _ | .draining | .askingFront => false

/-- A file context's request side. `executing` are the requests that hold the read/write state:
    `executable` said yes to them and `executed` has not run. -/
structure State (T : Type) where
  mState : Int := 0
  mRequests : List FileRequest := []
  executing : List FileRequest := []
  mRequestsLock : Option T := none
  pc : T → Pc := fun _ => .idle

variable {T : Type} [DecidableEq T]

/-- Thread `t` goes on to `p`, taking or releasing the lock as `p` says. -/
def State.goto (s : State T) (t : T) (p : Pc) : State T :=
  { s with
    pc := Function.update s.pc t p
    mRequestsLock := if p.locked then some t else if (s.pc t).locked then none else s.mRequestsLock }

/-- The steps of any number of threads on one file context. -/
inductive Step (w : Nat) : State T → State T → Prop
  /-- `executeOrQueue` takes the lock. -/
  | call {s : State T} (t : T) (r : FileRequest) (hp : s.pc t = .idle)
      (hl : s.mRequestsLock = none) : Step w s (s.goto t (.asking r))
  /-- `executeOrQueue`: the request is executed. -/
  | accept {s : State T} {n : Int} (t : T) (r : FileRequest) (hp : s.pc t = .asking r)
      (he : executable w s.mState r.tag = (n, true)) :
      Step w s { s.goto t .idle with mState := n, executing := r :: s.executing }
  /-- `executeOrQueue`: the request has to be queued. -/
  | refuse {s : State T} {n : Int} (t : T) (r : FileRequest) (hp : s.pc t = .asking r)
      (he : executable w s.mState r.tag = (n, false)) :
      Step w s { s.goto t (.queuing r) with mState := n }
  /-- `executeOrQueue` queues the request and releases the lock. -/
  | push {s : State T} (t : T) (r : FileRequest) (hp : s.pc t = .queuing r) :
      Step w s { s.goto t .idle with mRequests := queue s.mRequests r }
  /-- `completed`'s wrapper: the request's callback has run, `executed(tag)` gives the state back,
      and the thread goes on to `execute()`. -/
  | complete {s : State T} (t : T) (r : FileRequest) (hp : s.pc t = .idle)
      (hr : r ∈ s.executing) :
      Step w s
        { s.goto t .draining with
          mState := executed s.mState r.tag
          executing := s.executing.erase r }
  /-- `ReclaimContext::flushed`, in the callback of a flush request that is still executing, queues
      a reclaim request without asking whether it is executable. -/
  | reclaim {s : State T} (f r : FileRequest) (hf : f ∈ s.executing) (hft : f.type = .flush)
      (hrt : r.type = .reclaim) (hl : s.mRequestsLock = none) :
      Step w s { s with mRequests := queue s.mRequests r }
  /-- `execute()` takes the lock and finds the queue empty. -/
  | drained {s : State T} (t : T) (hp : s.pc t = .draining) (hl : s.mRequestsLock = none)
      (hq : s.mRequests = []) : Step w s (s.goto t .idle)
  /-- `execute()` takes the lock and finds a request. -/
  | front {s : State T} (t : T) (hp : s.pc t = .draining) (hl : s.mRequestsLock = none)
      (hq : s.mRequests ≠ []) : Step w s (s.goto t .askingFront)
  /-- `execute()` pops the front request, releases the lock, executes the request and goes on. -/
  | pop {s : State T} {n : Int} {rest : List FileRequest} (t : T) (r : FileRequest)
      (hp : s.pc t = .askingFront) (hq : s.mRequests = r :: rest)
      (he : executable w s.mState r.tag = (n, true)) :
      Step w s
        { s.goto t .draining with mState := n, mRequests := rest, executing := r :: s.executing }
  /-- `execute()`: the front request is not executable. -/
  | stuck {s : State T} {n : Int} {rest : List FileRequest} (t : T) (r : FileRequest)
      (hp : s.pc t = .askingFront) (hq : s.mRequests = r :: rest)
      (he : executable w s.mState r.tag = (n, false)) :
      Step w s { s.goto t .leaving with mState := n }
  /-- `execute()` returns and releases the lock. -/
  | leave {s : State T} (t : T) (hp : s.pc t = .leaving) : Step w s (s.goto t .idle)

/-! ## 3. Holders and the counter -/

/-- The counter is minus the number of holders, all of them readers, or one with a lone writer. -/
def HoldersCounted (mState : Int) (executing : List FileRequest) : Prop :=
  (mState = -executing.length ∧ ∀ r ∈ executing, r.tag = .read) ∨
    (mState = 1 ∧ ∃ r, executing = [r] ∧ r.tag = .write)

theorem longMin_neg (w) : longMin w < 0 := by
  have : (0 : Int) < 2 ^ (w - 1) := by positivity
  unfold longMin
  omega

section

variable (h : HoldersCounted m l)
include h

theorem HoldersCounted.refused {n : Int} {tag : RequestTag}
    (he : executable w m tag = (n, false)) : n = m ∧ l ≠ [] := by
  have hm : n = m ∧ m ≠ 0 := by
    have := longMin_neg w
    cases tag with
    | read =>
      simp only [executable, ReadWriteState.read] at he
      split at he
      · cases he
      · cases he
        exact ⟨rfl, by omega⟩
    | write =>
      simp only [executable, ReadWriteState.write] at he
      split at he
      · cases he
      · cases he
        exact ⟨rfl, by assumption⟩
  refine ⟨hm.1, ?_⟩
  rintro rfl
  rcases h with ⟨h, _⟩ | ⟨_, r, hr, _⟩
  · exact hm.2 (by simpa using h)
  · cases hr

theorem HoldersCounted.accepted {n : Int} (he : executable w m r.tag = (n, true)) :
    HoldersCounted n (r :: l) := by
  cases htag : r.tag with
  | read =>
    rw [htag] at he
    simp only [executable, ReadWriteState.read] at he
    split_ifs at he with hc
    · cases he
      rcases h with ⟨h, hall⟩ | ⟨h, _⟩
      · refine .inl ⟨?_, fun x hx => ?_⟩
        · rw [length_cons]
          omega
        · rcases mem_cons.1 hx with rfl | hx
          · exact htag
          · exact hall x hx
      · omega
    · cases he
  | write =>
    rw [htag] at he
    simp only [executable, ReadWriteState.write] at he
    split_ifs at he with hc
    · cases he
      have hl : l = [] := by
        rcases h with ⟨h, _⟩ | ⟨h, _⟩
        · exact eq_nil_of_length_eq_zero (by omega)
        · omega
      exact .inr ⟨by omega, r, by rw [hl], htag⟩
    · cases he

/-- The assertion of `executed` holds for every holder. -/
theorem HoldersCounted.mayComplete (hr : r ∈ l) : MayComplete m r.tag := by
  have hpos : 0 < l.length := length_pos_of_mem hr
  rcases h with ⟨h, hall⟩ | ⟨h, w, hw, htag⟩
  · rw [hall r hr]
    show m < 0
    omega
  rw [hw] at hr
  rwa [mem_singleton.1 hr, htag]

theorem HoldersCounted.completed (hr : r ∈ l) : HoldersCounted (executed m r.tag) (l.erase r) := by
  have hlen : (l.erase r).length = l.length - 1 := length_erase_of_mem hr
  have hpos : 0 < l.length := length_pos_of_mem hr
  rcases h with ⟨h, hall⟩ | ⟨h, w, hw, htag⟩
  · refine .inl ⟨?_, fun x hx => hall x (mem_of_mem_erase hx)⟩
    rw [hall r hr]
    simp only [executed, ReadWriteState.readCompleted]
    omega
  subst hw
  obtain rfl := mem_singleton.1 hr
  refine .inl ⟨?_, fun x hx => absurd hx (by simp)⟩
  rw [htag, h]
  simp [executed, ReadWriteState.writeCompleted]

theorem HoldersCounted.exclusive (hr : r ∈ l) (ht : r.tag = .write) : l = [r] := by
  rcases h with ⟨_, hall⟩ | ⟨_, w, hw, _⟩
  · rw [hall r hr] at ht
    cases ht
  · rw [hw] at hr ⊢
    rw [mem_singleton.1 hr]

end

/-! ## 4. The invariant -/

/-- Somebody will come back to the queue: a request holds the state, or a thread is about to take
    the lock in `execute()`. -/
def State.Watched (s : State T) : Prop := s.executing ≠ [] ∨ ∃ t, s.pc t = .draining

/-- What every step keeps. A refused request is not yet in the queue, and already watched: who
    held the state then either still does, or has gone on to `execute()` and waits for the lock. -/
structure Inv (s : State T) : Prop where
  counted : HoldersCounted s.mState s.executing
  owner : ∀ t, (s.pc t).locked = true → s.mRequestsLock = some t
  refused : ∀ t, (s.pc t).refused = true → s.Watched
  queued : s.mRequests ≠ [] → s.executing ≠ [] ∨ ∃ t, (s.pc t).inExecute = true

theorem Pc.locked_of_refused {p : Pc} (h : p.refused = true) : p.locked = true := by
  cases p <;> first | rfl | cases h

@[simp] theorem goto_pc_self (s : State T) (t : T) (p : Pc) : (s.goto t p).pc t = p :=
  update_self ..

theorem goto_pc_of_ne (s : State T) {t u : T} (p : Pc) (h : u ≠ t) : (s.goto t p).pc u = s.pc u :=
  update_of_ne h ..

section Frame

variable {s : State T} {t : T} {p : Pc}

theorem Inv.owner_goto (h : Inv s)
    (hp : p.locked = true → s.mRequestsLock = none ∨ (s.pc t).locked = true) :
    ∀ u, ((s.goto t p).pc u).locked = true → (s.goto t p).mRequestsLock = some u := by
  intro u hu
  by_cases hut : u = t
  · subst hut
    rw [goto_pc_self] at hu
    simp [State.goto, hu]
  rw [goto_pc_of_ne s p hut] at hu
  have hown := h.owner u hu
  -- the lock is `u`'s, so `t` neither has it nor can take it
  have ht : ¬ (s.pc t).locked = true := fun ht => hut (by
    have := h.owner t ht
    rw [hown] at this
    exact Option.some.inj this)
  have hpl : ¬ p.locked = true := fun hpl => by
    rcases hp hpl with hn | hl
    · rw [hn] at hown
      cases hown
    · exact ht hl
  simp [State.goto, hpl, ht, hown]

omit [DecidableEq T] in
theorem Inv.not_refused_of_ne (h : Inv s) {u : T} (hut : u ≠ t)
    (hl : s.mRequestsLock = none ∨ (s.pc t).locked = true) : ¬ (s.pc u).refused = true := by
  intro hr
  have hown := h.owner u (Pc.locked_of_refused hr)
  rcases hl with hn | ht
  · rw [hn] at hown
    cases hown
  · rw [h.owner t ht] at hown
    exact hut (Option.some.inj hown).symm

theorem Inv.refused_goto (h : Inv s) (hl : s.mRequestsLock = none ∨ (s.pc t).locked = true)
    {P : Prop} (hp : p.refused = true → P) : ∀ u, ((s.goto t p).pc u).refused = true → P := by
  intro u hu
  by_cases hut : u = t
  · subst hut
    rw [goto_pc_self] at hu
    exact hp hu
  · rw [goto_pc_of_ne s p hut] at hu
    exact absurd hu (h.not_refused_of_ne hut hl)

theorem draining_goto (ht : s.pc t ≠ .draining) (h : ∃ u, s.pc u = .draining) :
    ∃ u, ((s.goto t p).pc u).inExecute = true := by
  obtain ⟨u, hu⟩ := h
  have hut : u ≠ t := fun he => ht (he ▸ hu)
  exact ⟨u, by rw [goto_pc_of_ne s p hut, hu]; rfl⟩

end Frame

omit [DecidableEq T] in
theorem inv_init : Inv ({} : State T) where
  counted := .inl ⟨rfl, nofun⟩
  owner := nofun
  refused := nofun
  queued := fun hq => absurd rfl hq

/-- **Every step keeps the invariant.** -/
theorem step_inv (s s' : State T) (h : Inv s) (hs : Step w s s') : Inv s' := by
  cases hs with
  | call t r hp hl =>
    refine ⟨h.counted, h.owner_goto fun _ => .inl hl, ?_, fun hq => ?_⟩
    · exact h.refused_goto (.inl hl) nofun
    refine (h.queued hq).imp id fun ⟨u, hu⟩ => ?_
    have hut : u ≠ t := by
      rintro rfl
      rw [hp] at hu
      cases hu
    exact ⟨u, by rw [goto_pc_of_ne s _ hut]; exact hu⟩
  | accept t r hp he | pop t r hp hq he =>
    refine ⟨h.counted.accepted he, h.owner_goto nofun, ?_, ?_⟩
    · exact fun _ _ => .inl (cons_ne_nil _ _)
    · exact fun _ => .inl (cons_ne_nil _ _)
  | refuse t r hp he | stuck t r hp hq he =>
    obtain ⟨rfl, hne⟩ := h.counted.refused he
    refine ⟨h.counted, h.owner_goto fun _ => .inr (by rw [hp]; rfl), ?_, ?_⟩
    · exact fun _ _ => .inl hne
    · exact fun _ => .inl hne
  | push t r hp | leave t hp =>
    have hl : (s.pc t).locked = true := by rw [hp]; rfl
    refine ⟨h.counted, h.owner_goto fun _ => .inr hl, ?_, fun _ => ?_⟩
    · exact h.refused_goto (.inr hl) nofun
    · exact (h.refused t (by rw [hp]; rfl)).imp id (draining_goto (hp ▸ Pc.noConfusion))
  | complete t r hp hr =>
    refine ⟨h.counted.completed hr, h.owner_goto nofun, ?_, ?_⟩
    · exact fun _ _ => .inr ⟨t, goto_pc_self s t .draining⟩
    · exact fun _ => .inr ⟨t, by rw [goto_pc_self]; rfl⟩
  | reclaim f r hf hft hrt hl =>
    have hne : s.executing ≠ [] := ne_nil_of_mem hf
    exact ⟨h.counted, h.owner, fun _ _ => .inl hne, fun _ => .inl hne⟩
  | drained t hp hl hq =>
    refine ⟨h.counted, h.owner_goto fun _ => .inl hl, ?_, fun hne => absurd hq hne⟩
    exact h.refused_goto (.inl hl) nofun
  | front t hp hl hq =>
    refine ⟨h.counted, h.owner_goto fun _ => .inl hl, ?_, fun _ => ?_⟩
    · exact h.refused_goto (.inl hl) nofun
    · exact .inr ⟨t, by rw [goto_pc_self]; rfl⟩

/-! ## 5. Every interleaving -/

/-- **The request queue is safe.** In every state any number of threads can reach: a write-class
    request executes alone; whichever executing request completes next, the assertion in
    `readCompleted` or `writeCompleted` holds; and while a request is queued, some request holds the
    read/write state or some thread has yet to finish `execute()`. -/
theorem request_queue_safe {w : Nat} {s : State T} (hr : Relation.ReflTransGen (Step w) {} s) :
    (∀ r ∈ s.executing, r.tag = .write → s.executing = [r]) ∧
      (∀ r ∈ s.executing, MayComplete s.mState r.tag) ∧
      (s.mRequests ≠ [] → s.executing ≠ [] ∨ ∃ t, (s.pc t).inExecute = true) := by
  have h : Inv s := run_inv Inv step_inv inv_init hr
  exact ⟨fun _ => h.counted.exclusive, fun _ => h.counted.mayComplete, h.queued⟩

/-- A write is executing, a read is queued behind it, and the write completes: its thread has not
    run `execute()` yet, nobody holds the state and the read is in the queue. -/
theorem request_queue_safe_handover : ∃ s : State Nat,
    Relation.ReflTransGen (Step 64) {} s ∧ s.mRequests = [⟨.read, 1⟩] ∧ s.executing = [] ∧
      ∃ t, (s.pc t).inExecute = true := by
  let s₁ : State Nat := ({} : State Nat).goto 0 (.asking ⟨.write, 0⟩)
  let s₂ : State Nat := { s₁.goto 0 .idle with mState := 1, executing := [⟨.write, 0⟩] }
  let s₃ : State Nat := s₂.goto 1 (.asking ⟨.read, 1⟩)
  let s₄ : State Nat := { s₃.goto 1 (.queuing ⟨.read, 1⟩) with mState := 1 }
  let s₅ : State Nat := { s₄.goto 1 .idle with mRequests := [⟨.read, 1⟩] }
  let s₆ : State Nat := { s₅.goto 0 .draining with mState := 0, executing := [] }
  have h₁ : Step 64 {} s₁ := Step.call 0 ⟨.write, 0⟩ rfl rfl
  have h₂ : Step 64 s₁ s₂ := Step.accept 0 ⟨.write, 0⟩ rfl rfl
  have h₃ : Step 64 s₂ s₃ := Step.call 1 ⟨.read, 1⟩ rfl rfl
  have h₄ : Step 64 s₃ s₄ := Step.refuse 1 ⟨.read, 1⟩ rfl rfl
  have h₅ : Step 64 s₄ s₅ := Step.push 1 ⟨.read, 1⟩ rfl
  have h₆ : Step 64 s₅ s₆ := Step.complete 0 ⟨.write, 0⟩ rfl mem_cons_self
  have hrun : Relation.ReflTransGen (Step 64) {} s₆ :=
    (((((Relation.ReflTransGen.single h₁).tail h₂).tail h₃).tail h₄).tail h₅).tail h₆
  have hsafe := (request_queue_safe hrun).2.2 (cons_ne_nil _ _)
  exact ⟨s₆, hrun, rfl, rfl, hsafe.resolve_left fun hne => hne rfl⟩

end MegaSdk.FileService
