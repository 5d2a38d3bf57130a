/-
  File:      MegaSdk/Ws/Budget.lean
  Subject:   THE UPLOAD BUDGET OF THE ENGINE (wsupload_engine.cpp): `consumeUploadBudget`,
             `refundUploadBudget`, `setMaxUploadSpeed`.

  With a cap set, a pool asks for the bytes of a chunk before it takes the chunk. The budget grows
  with the time since the last call, and the pools that had to wait are served first come, first
  served.

  * `Ledger`, `Step` -- runs of calls, with what was granted and refunded written down;
  * **`granted_le`** -- at every time, what was granted since the cap was set, less what was refunded
    of that, is within the cap times the elapsed time, and what was refunded of earlier grants.
-/
import MegaSdk.Base.Loop

namespace MegaSdk.Ws

/-- `SteadyTime::difference`: the difference as a `std::int32_t`. -/
def difference (a b : Int) : Int := (a - b + 2 ^ 31) % 2 ^ 32 - 2 ^ 31

namespace Budget

open Base

/-! ## 1. The code -/

/-- `std::numeric_limits<m_off_t>::max()`. -/
def maxValue : Int := 2 ^ 63 - 1

def DS_PER_SECOND : Int := 10

def SPEED_MEAN_CIRCULAR_BUFFER_SIZE_SECONDS : Int := 5

def kBudgetWaiterStaleDs : Int := 100

def kBudgetWaiterCap : Nat := 16

/-- `BudgetWaiter`; the key is the address of a pool. -/
structure BudgetWaiter where
  key : Nat
  bytes : Int
  lastAskDs : Int
deriving DecidableEq, Repr

/-- The members of `UploadEngine::Impl` that are the budget. -/
structure UploadBudget where
  mMaxUploadSpeed : Int := 0
  mUploadBudget : Int := 0
  mUploadBudgetLastDs : Int := 0
  mBudgetWaiters : List BudgetWaiter := []
deriving DecidableEq, Repr

/-- What `consumeUploadBudget` returns: `true`, or `false` and `*retryAfterDs`. -/
inductive Answer
  | granted
  | retryAfter (ds : Int)
deriving DecidableEq, Repr

namespace UploadBudget

variable (b : UploadBudget)

def maxBurstBudget : Int :=
  if b.mMaxUploadSpeed > maxValue / SPEED_MEAN_CIRCULAR_BUFFER_SIZE_SECONDS then maxValue
  else b.mMaxUploadSpeed * SPEED_MEAN_CIRCULAR_BUFFER_SIZE_SECONDS

def largestPendingNeed (bytes : Int) : Int :=
  match b.mBudgetWaiters with
  | [] => bytes
  | front :: _ => max bytes front.bytes

def budgetIncrement (elapsed : Int) : Int :=
  if b.mMaxUploadSpeed > maxValue / elapsed then maxValue
  else b.mMaxUploadSpeed * elapsed / DS_PER_SECOND

/-- The first part of `consumeUploadBudget`: the budget of the time since the last call. -/
def accrue (now bytes : Int) : UploadBudget :=
  let b := if b.mUploadBudgetLastDs = 0 then { b with mUploadBudgetLastDs := now } else b
  let elapsedDs := if now > b.mUploadBudgetLastDs then now - b.mUploadBudgetLastDs else 0
  if elapsedDs > 0 then
    let increment := b.budgetIncrement elapsedDs
    let budget :=
      if increment > maxValue - b.mUploadBudget then maxValue else b.mUploadBudget + increment
    let budgetCap := max b.maxBurstBudget (b.largestPendingNeed bytes)
    { b with
      mUploadBudget := if budget > budgetCap then budgetCap else budget
      mUploadBudgetLastDs := now }
  else b

/-- The waiters that stopped asking are taken out. -/
def expire (now : Int) : UploadBudget :=
  { b with mBudgetWaiters := b.mBudgetWaiters.filter fun w =>
      ¬ difference now w.lastAskDs > kBudgetWaiterStaleDs }

/-- `*retryAfterDs` for a deficit. -/
def suggestedDs (deficit : Int) : Answer :=
  .retryAfter (max 1 (min 10 ((deficit * DS_PER_SECOND + b.mMaxUploadSpeed - 1) / b.mMaxUploadSpeed)))

/-- The entry of a waiter that asks again, if it has one. -/
def touch (key : Nat) (bytes now : Int) : List BudgetWaiter → List BudgetWaiter
  | [] => []
  | w :: q => if w.key = key then { w with bytes := bytes, lastAskDs := now } :: q
      else w :: touch key bytes now q

/-- The last part of `consumeUploadBudget`, for a caller with a key. -/
def serve (now bytes : Int) (key : Nat) : UploadBudget × Answer :=
  let registered := b.mBudgetWaiters.any fun w => w.key = key
  let b := { b with mBudgetWaiters := touch key bytes now b.mBudgetWaiters }
  let denied := b.suggestedDs (if bytes > b.mUploadBudget then bytes - b.mUploadBudget else 1)
  let pushed := { b with mBudgetWaiters := b.mBudgetWaiters ++ [⟨key, bytes, now⟩] }
  match b.mBudgetWaiters with
  | [] =>
    if b.mUploadBudget ≥ bytes then
      ({ b with mUploadBudget := b.mUploadBudget - bytes }, .granted)
    else (pushed, denied)
  | front :: rest =>
    if front.key = key then
      if b.mUploadBudget ≥ bytes then
        ({ b with mBudgetWaiters := rest, mUploadBudget := b.mUploadBudget - bytes }, .granted)
      else (b, denied)
    else if registered = false ∧ b.mBudgetWaiters.length < kBudgetWaiterCap then (pushed, denied)
    else (b, denied)

/-- The same for a caller without a key: all or nothing, past the queue. -/
def servePlain (bytes : Int) : UploadBudget × Answer :=
  if b.mUploadBudget < bytes then (b, b.suggestedDs (bytes - b.mUploadBudget))
  else ({ b with mUploadBudget := b.mUploadBudget - bytes }, .granted)

def consume (now bytes : Int) (requesterKey : Option Nat) : UploadBudget × Answer :=
  if bytes ≤ 0 ∨ b.mMaxUploadSpeed ≤ 0 then (b, .granted)
  else
    let b := (b.accrue now bytes).expire now
    match requesterKey with
    | some key => b.serve now bytes key
    | none => b.servePlain bytes

/-- `budgetCap` of `refundUploadBudget`: there is room for the refund on top of the need. -/
def refundCap (bytes : Int) : Int :=
  max b.maxBurstBudget (b.largestPendingNeed bytes) +
    if bytes > maxValue - b.largestPendingNeed bytes then 0 else bytes

def refund (bytes : Int) : Option UploadBudget :=
  if bytes ≤ 0 ∨ b.mMaxUploadSpeed ≤ 0 then some b
  else
    let budgetCap := b.refundCap bytes
    -- a signed sum
    if budgetCap > maxValue then none
    else if bytes > maxValue - b.mUploadBudget then some { b with mUploadBudget := budgetCap }
    else some { b with mUploadBudget := min (b.mUploadBudget + bytes) budgetCap }

def setMaxUploadSpeed (now bytesPerSecond : Int) : UploadBudget :=
  { b with
    mMaxUploadSpeed := max bytesPerSecond 0
    mUploadBudget := 0
    mUploadBudgetLastDs := now }

end UploadBudget

/-! ## 2. What was granted -/

/-- The calls so far: when the cap was set, the bytes granted since, the bytes refunded since of
    grants made since and of earlier ones, the grants of both kinds that may still be refunded, and
    the time of the last call. -/
structure Ledger where
  setAt : Int := 0
  granted : Int := 0
  refunded : Int := 0
  refundedEarlier : Int := 0
  grants : List Int := []
  earlier : List Int := []
  clock : Int := 0

/-- One call. The clock does not go back; a refund gives back one grant; the accrual of a call does
    not reach the largest number. -/
inductive Step : UploadBudget × Ledger → UploadBudget × Ledger → Prop
  | granted {b b' : UploadBudget} {l : Ledger} (now bytes : Int) (key : Option Nat) :
      l.clock ≤ now → 0 < bytes →
      b.mMaxUploadSpeed * (now - b.mUploadBudgetLastDs) ≤ maxValue →
      b.consume now bytes key = (b', .granted) →
      Step (b, l) (b', { l with
        granted := l.granted + bytes, grants := bytes :: l.grants, clock := now })
  | denied {b b' : UploadBudget} {l : Ledger} (now bytes : Int) (key : Option Nat) (ds : Int) :
      l.clock ≤ now → b.mMaxUploadSpeed * (now - b.mUploadBudgetLastDs) ≤ maxValue →
      b.consume now bytes key = (b', .retryAfter ds) → Step (b, l) (b', { l with clock := now })
  | refund {b b' : UploadBudget} {l : Ledger} (bytes : Int) : bytes ∈ l.grants →
      b.refund bytes = some b' →
      Step (b, l) (b', { l with
        refunded := l.refunded + bytes, grants := l.grants.erase bytes })
  | refundEarlier {b b' : UploadBudget} {l : Ledger} (bytes : Int) : bytes ∈ l.earlier →
      b.refund bytes = some b' →
      Step (b, l) (b', { l with
        refundedEarlier := l.refundedEarlier + bytes, earlier := l.earlier.erase bytes })
  | setMaxUploadSpeed {b : UploadBudget} {l : Ledger} (now bytesPerSecond : Int) : l.clock ≤ now →
      Step (b, l) (b.setMaxUploadSpeed now bytesPerSecond,
        { setAt := now, earlier := l.grants ++ l.earlier, clock := now })

/-- The budget is not negative, and with what has been granted it is within what the cap allows up
    to the last accrual. -/
structure Within (b : UploadBudget) (l : Ledger) : Prop where
  cap : 0 ≤ b.mMaxUploadSpeed
  budget : 0 ≤ b.mUploadBudget
  grants : (∀ x ∈ l.grants, 0 < x) ∧ ∀ x ∈ l.earlier, 0 < x
  last : 0 < b.mMaxUploadSpeed → b.mUploadBudgetLastDs ≤ l.clock
  bound : 0 < b.mMaxUploadSpeed →
    10 * (b.mUploadBudget + l.granted - l.refunded) ≤
      b.mMaxUploadSpeed * (b.mUploadBudgetLastDs - l.setAt) + 10 * l.refundedEarlier

/-! ## 3. One call -/

section Calls

variable {b b' : UploadBudget} {now bytes x : Int}

namespace UploadBudget

theorem bytes_le_need (b : UploadBudget) (bytes) : bytes ≤ b.largestPendingNeed bytes := by
  unfold largestPendingNeed
  split
  · exact le_refl _
  · exact le_max_left _ _

/-- What does not saturate is what the cap allows for the time, rounded down. -/
theorem budgetIncrement_eq (he : 0 < now) (hfit : b.mMaxUploadSpeed * now ≤ maxValue) :
    b.budgetIncrement now = b.mMaxUploadSpeed * now / 10 :=
  if_neg (not_lt.2 ((Int.le_ediv_iff_mul_le he).2 hfit))

/-- The budget after an accrual over some time. -/
def grown (b : UploadBudget) (elapsed bytes : Int) : Int :=
  min (min maxValue (b.mUploadBudget + b.budgetIncrement elapsed))
    (max b.maxBurstBudget (b.largestPendingNeed bytes))

theorem accrue_eq (hlast : b.mUploadBudgetLastDs ≤ now) :
    b.accrue now x = { b with
      mUploadBudget :=
        if b.mUploadBudgetLastDs = 0 ∨ b.mUploadBudgetLastDs = now then b.mUploadBudget
        else b.grown (now - b.mUploadBudgetLastDs) x
      mUploadBudgetLastDs := now } := by
  unfold accrue
  by_cases h0 : b.mUploadBudgetLastDs = 0
  · -- never accrued before: the time starts now
    simp [h0]
  by_cases heq : b.mUploadBudgetLastDs = now
  · subst heq
    simp [h0]
  have hlt : b.mUploadBudgetLastDs < now := lt_of_le_of_ne hlast heq
  have he : 0 < now - b.mUploadBudgetLastDs := by omega
  simp only [if_pos hlt, if_pos he, h0, heq, or_self, if_false]
  congr 1
  unfold grown
  split <;> split <;> omega

theorem budgetIncrement_nonneg (hc : 0 ≤ b.mMaxUploadSpeed) (hx : 0 ≤ x) :
    0 ≤ b.budgetIncrement x := by
  unfold budgetIncrement
  split
  · decide
  · exact Int.ediv_nonneg (mul_nonneg hc hx) (by decide)

theorem accrue_nonneg (hc : 0 ≤ b.mMaxUploadSpeed) (hb : 0 ≤ b.mUploadBudget) (hbytes : 0 < bytes)
    (hlast : b.mUploadBudgetLastDs ≤ now) : 0 ≤ (b.accrue now bytes).mUploadBudget := by
  have hinc := budgetIncrement_nonneg hc (x := now - b.mUploadBudgetLastDs) (by omega)
  have hneed := b.bytes_le_need bytes
  have hv : 0 ≤ maxValue := by decide
  rw [accrue_eq hlast]
  simp only [grown]
  split <;> omega

/-- **The budget grows by no more than the cap allows for the time.** -/
theorem accrue_le (bytes) (hc : 0 ≤ b.mMaxUploadSpeed) (hlast : b.mUploadBudgetLastDs ≤ now)
    (hfit : b.mMaxUploadSpeed * (now - b.mUploadBudgetLastDs) ≤ maxValue) :
    10 * (b.accrue now bytes).mUploadBudget ≤
      10 * b.mUploadBudget + b.mMaxUploadSpeed * (now - b.mUploadBudgetLastDs) := by
  have hall : 0 ≤ b.mMaxUploadSpeed * (now - b.mUploadBudgetLastDs) :=
    mul_nonneg hc (by omega)
  rw [accrue_eq hlast]
  simp only
  split
  · omega
  unfold grown
  rw [budgetIncrement_eq (by omega) hfit]
  omega

/-- A caller with a key gets all its bytes off the budget, or none. -/
theorem serve_charge (b : UploadBudget) (now bytes) (key : Nat) :
    (b.serve now bytes key).1.mMaxUploadSpeed = b.mMaxUploadSpeed ∧
      (b.serve now bytes key).1.mUploadBudgetLastDs = b.mUploadBudgetLastDs ∧
      (b.serve now bytes key).1.mUploadBudget =
        b.mUploadBudget - (if (b.serve now bytes key).2 = .granted then bytes else 0) ∧
      ((b.serve now bytes key).2 = .granted → bytes ≤ b.mUploadBudget) := by
  unfold serve suggestedDs
  simp only
  split
  · split <;> simp_all
  split
  · split <;> simp_all
  · split <;> simp

theorem servePlain_charge (b : UploadBudget) (bytes) :
    (b.servePlain bytes).1.mMaxUploadSpeed = b.mMaxUploadSpeed ∧
      (b.servePlain bytes).1.mUploadBudgetLastDs = b.mUploadBudgetLastDs ∧
      (b.servePlain bytes).1.mUploadBudget =
        b.mUploadBudget - (if (b.servePlain bytes).2 = .granted then bytes else 0) ∧
      ((b.servePlain bytes).2 = .granted → bytes ≤ b.mUploadBudget) := by
  unfold servePlain suggestedDs
  split <;> simp_all

theorem consume_charge (hbytes : 0 < bytes) (hc : 0 < b.mMaxUploadSpeed) (now) (key : Option Nat) :
    (b.consume now bytes key).1.mMaxUploadSpeed = (b.accrue now bytes).mMaxUploadSpeed ∧
      (b.consume now bytes key).1.mUploadBudgetLastDs = (b.accrue now bytes).mUploadBudgetLastDs ∧
      (b.consume now bytes key).1.mUploadBudget = (b.accrue now bytes).mUploadBudget -
        (if (b.consume now bytes key).2 = .granted then bytes else 0) ∧
      ((b.consume now bytes key).2 = .granted → bytes ≤ (b.accrue now bytes).mUploadBudget) := by
  have hgo : ¬ (bytes ≤ 0 ∨ b.mMaxUploadSpeed ≤ 0) := by omega
  unfold consume
  rw [if_neg hgo]
  cases key with
  | some key => exact serve_charge ((b.accrue now bytes).expire now) now ..
  | none => exact servePlain_charge ((b.accrue now bytes).expire now) bytes

theorem need_le_refundCap (b : UploadBudget) (hx : 0 ≤ x) :
    b.largestPendingNeed x ≤ b.refundCap x := by
  unfold refundCap
  split <;> omega

/-- A refund changes only the budget, by no more than its bytes, and not below what is needed. -/
theorem refund_le (hb : 0 ≤ b.mUploadBudget) (hr : b.refund bytes = some b') :
    b'.mMaxUploadSpeed = b.mMaxUploadSpeed ∧ b'.mUploadBudgetLastDs = b.mUploadBudgetLastDs ∧
      b'.mBudgetWaiters = b.mBudgetWaiters ∧ 0 ≤ b'.mUploadBudget ∧
      (0 < bytes → b'.mUploadBudget ≤ b.mUploadBudget + bytes) ∧
      ∀ x ≤ b.largestPendingNeed bytes, min x b.mUploadBudget ≤ b'.mUploadBudget := by
  unfold refund at hr
  by_cases h : bytes ≤ 0 ∨ b.mMaxUploadSpeed ≤ 0
  · rw [if_pos h] at hr
    cases hr
    exact ⟨rfl, rfl, rfl, hb, fun h => by omega, fun _ _ => min_le_right ..⟩
  have hneed := b.bytes_le_need bytes
  have hcap := b.need_le_refundCap (x := bytes) (by omega)
  rw [if_neg h] at hr
  simp only at hr
  split at hr
  · cases hr
  split at hr <;> cases hr
  all_goals exact ⟨rfl, rfl, rfl, by simp only; omega, fun _ => by simp only; omega,
    fun _ _ => by simp only; omega⟩

end UploadBudget

/-! ## 4. Every run of calls -/

variable {l : Ledger}

theorem Within.consume (hw : Within b l) (hnow : l.clock ≤ now) (hbytes : 0 < bytes)
    (hfit : b.mMaxUploadSpeed * (now - b.mUploadBudgetLastDs) ≤ maxValue) (key : Option Nat) :
    0 ≤ (b.consume now bytes key).1.mUploadBudget ∧
      (b.consume now bytes key).1.mMaxUploadSpeed = b.mMaxUploadSpeed ∧
      (0 < b.mMaxUploadSpeed → (b.consume now bytes key).1.mUploadBudgetLastDs = now ∧
        10 * ((b.consume now bytes key).1.mUploadBudget +
            (if (b.consume now bytes key).2 = .granted then bytes else 0) + l.granted - l.refunded) ≤
          b.mMaxUploadSpeed * (now - l.setAt) + 10 * l.refundedEarlier) := by
  by_cases hc : 0 < b.mMaxUploadSpeed
  · have hlast := (hw.last hc).trans hnow
    obtain ⟨h1, h2, h3, h4⟩ := UploadBudget.consume_charge hbytes hc ..
    have h5 := UploadBudget.accrue_nonneg hw.cap hw.budget hbytes hlast
    have h6 := UploadBudget.accrue_le bytes hw.cap hlast hfit
    have hbound := hw.bound hc
    have hsum : b.mMaxUploadSpeed * (now - l.setAt) =
        b.mMaxUploadSpeed * (now - b.mUploadBudgetLastDs) +
          b.mMaxUploadSpeed * (b.mUploadBudgetLastDs - l.setAt) := by ring
    rw [UploadBudget.accrue_eq hlast] at h1 h2
    refine ⟨?_, h1, fun _ => ⟨h2, ?_⟩⟩
    · rw [h3]
      split
      · rename_i hg
        have := h4 hg
        omega
      · omega
    · rw [hsum]
      omega
  · have hgo : bytes ≤ 0 ∨ b.mMaxUploadSpeed ≤ 0 := by omega
    have he : b.consume now bytes key = (b, .granted) := if_pos hgo
    rw [he]
    exact ⟨hw.budget, rfl, fun h => absurd h hc⟩

/-- Every call keeps the budget within what the cap allows. -/
theorem Within.step {s s' : UploadBudget × Ledger} (hw : Within s.1 s.2) (hs : Step s s') :
    Within s'.1 s'.2 := by
  cases hs with
  | @granted b b' l now bytes key hnow hbytes hfit he =>
    obtain ⟨h1, h2, h3⟩ := hw.consume hnow hbytes hfit key
    rw [he] at h1 h2 h3
    simp only [if_true] at h2 h3
    refine ⟨h2 ▸ hw.cap, h1, ⟨?_, hw.grants.2⟩, fun hc => ?_, fun hc => ?_⟩
    · intro x hx
      rcases List.mem_cons.1 hx with rfl | hx
      · exact hbytes
      · exact hw.grants.1 x hx
    · exact le_of_eq (h3 (h2 ▸ hc)).1
    have := h3 (h2 ▸ hc)
    simp only [h2, this.1]
    omega
  | @denied b b' l now bytes key ds hnow hfit he =>
    have hbytes : 0 < bytes := by
      rcases lt_or_ge 0 bytes with h | h
      · exact h
      have hgo : b.consume now bytes key = (b, .granted) := if_pos (.inl h)
      rw [hgo] at he
      cases he
    obtain ⟨h1, h2, h3⟩ := hw.consume hnow hbytes hfit key
    rw [he] at h1 h2 h3
    simp only at h2 h3
    refine ⟨h2 ▸ hw.cap, h1, hw.grants, fun hc => le_of_eq (h3 (h2 ▸ hc)).1, fun hc => ?_⟩
    have := h3 (h2 ▸ hc)
    simp only [h2, this.1]
    omega
  | @refund b b' l bytes hin he =>
    replace hw : Within b l := hw
    obtain ⟨h1, h2, -, h3, h4, -⟩ := UploadBudget.refund_le hw.budget he
    have hpos := hw.grants.1 bytes hin
    refine ⟨h1 ▸ hw.cap, h3, ⟨fun x hx => hw.grants.1 x (List.mem_of_mem_erase hx), hw.grants.2⟩,
      fun hc => ?_, fun hc => ?_⟩
    · simp only [h2]
      exact hw.last (h1 ▸ hc)
    have := hw.bound (h1 ▸ hc)
    simp only [h1, h2]
    omega
  | @refundEarlier b b' l bytes hin he =>
    replace hw : Within b l := hw
    obtain ⟨h1, h2, -, h3, h4, -⟩ := UploadBudget.refund_le hw.budget he
    have hpos := hw.grants.2 bytes hin
    refine ⟨h1 ▸ hw.cap, h3, ⟨hw.grants.1, fun x hx => hw.grants.2 x (List.mem_of_mem_erase hx)⟩,
      fun hc => ?_, fun hc => ?_⟩
    · simp only [h2]
      exact hw.last (h1 ▸ hc)
    have := hw.bound (h1 ▸ hc)
    simp only [h1, h2]
    omega
  | @setMaxUploadSpeed b l now speed hnow =>
    refine ⟨le_max_right _ _, le_refl _, ⟨fun x hx => absurd hx List.not_mem_nil, fun x hx => ?_⟩,
      fun _ => le_refl _, fun _ => ?_⟩
    · rcases List.mem_append.1 hx with hx | hx
      · exact hw.grants.1 x hx
      · exact hw.grants.2 x hx
    · simp [UploadBudget.setMaxUploadSpeed]

/-- **The upload speed.** However the pools ask and give back and whenever the cap is set: at every
    time the bytes granted since the cap was set, less those refunded of them, are within the cap
    times the elapsed time, and the bytes refunded since of grants made before. -/
theorem granted_le (hr : Relation.ReflTransGen Step ({}, {}) (b, l)) (hc : 0 < b.mMaxUploadSpeed)
    (hnow : l.clock ≤ now) :
    l.granted - l.refunded ≤ b.mMaxUploadSpeed * (now - l.setAt) / 10 + l.refundedEarlier := by
  have hw : Within b l := run_inv (fun s => Within s.1 s.2) (fun _ _ hi => hi.step)
    ⟨le_refl _, le_refl _, ⟨fun x hx => absurd hx List.not_mem_nil,
      fun x hx => absurd hx List.not_mem_nil⟩, fun h => absurd h (lt_irrefl _),
      fun h => absurd h (lt_irrefl _)⟩ hr
  have hbound := hw.bound hc
  have hbudget := hw.budget
  have hmono : b.mMaxUploadSpeed * (b.mUploadBudgetLastDs - l.setAt) ≤
      b.mMaxUploadSpeed * (now - l.setAt) :=
    mul_le_mul_of_nonneg_left (by have := hw.last hc; omega) hw.cap
  omega

end Calls

/-- A cap of 100 bytes a second: 20 bytes have to wait for two deciseconds. -/
theorem granted_le_after_wait :
    ∃ b l, Relation.ReflTransGen Step ({}, {}) (b, l) ∧ l.granted = 20 ∧ l.setAt = 1 ∧ l.clock = 3 ∧
      l.granted - l.refunded ≤ b.mMaxUploadSpeed * (3 - l.setAt) / 10 + l.refundedEarlier := by
  have h0 := Relation.ReflTransGen.refl (r := Step) (a := (({}, {}) : UploadBudget × Ledger))
  have h1 := h0.tail (.setMaxUploadSpeed 1 100 (by decide))
  have h2 := h1.tail (.denied 1 20 (some 0) 2 (by decide) (by decide) rfl)
  have h3 := h2.tail (.granted 3 20 (some 0) (by decide) (by decide) (by decide) rfl)
  exact ⟨_, _, h3, rfl, rfl, rfl, granted_le h3 (by decide) (by decide)⟩

/-- A chunk of 100 bytes is granted while there is no cap. Then the cap is set to 10 bytes a second
    and the chunk comes back: its bytes were never charged, are refunded and can be had again at
    once. -/
theorem granted_of_earlier_refund :
    ∃ b l, Relation.ReflTransGen Step ({}, {}) (b, l) ∧ b.mMaxUploadSpeed = 10 ∧ l.setAt = l.clock ∧
      ¬ l.granted - l.refunded ≤ b.mMaxUploadSpeed * (l.clock - l.setAt) / 10 := by
  have h0 := Relation.ReflTransGen.refl (r := Step) (a := (({}, {}) : UploadBudget × Ledger))
  have h1 := h0.tail (.granted 1 100 (some 0) (by decide) (by decide) (by decide) rfl)
  have h2 := h1.tail (.setMaxUploadSpeed 1 10 (by decide))
  have h3 := h2.tail (.refundEarlier 100 (by decide) rfl)
  have h4 := h3.tail (.granted 1 100 (some 0) (by decide) (by decide) (by decide) rfl)
  exact ⟨_, _, h4, rfl, rfl, by decide⟩

end Budget

end MegaSdk.Ws
