/-
  File:      MegaSdk/Ws/BudgetFairness.lean
  Subject:   WHO WAITS FOR UPLOAD BUDGET GETS IT, IN ORDER -- IF THE CAP IS AT LEAST 10 BYTES A
             SECOND (wsupload_engine.cpp).

  Every poll of any pool accrues budget for the time since the last one, rounded down to a byte. With
  polls a decisecond apart a cap below `DS_PER_SECOND` accrues nothing.

  * `Schedule` -- calls without end under a constant cap, in which every registered waiter asks again
    within a second for the same bytes;
  * `serve_needs` -- what one call does to the queue; `Schedule.step_front` -- one call of a schedule,
    seen from the front of the queue;
  * `Schedule.front_granted` -- the front gets its bytes; `Schedule.served` -- and so does everyone
    behind, by induction on the queue;
  * **`served_in_order_iff`** -- so it is for every schedule exactly when the cap is at least 10.
-/
import MegaSdk.Ws.Budget

namespace MegaSdk.Ws.Budget

open List

variable {i k : Nat} {bytes cap n : Int} {l : List (Nat × Int)}

/-! ## 1. Schedules -/

/-- A call under a constant cap; every caller of `consumeUploadBudget` has a key. -/
inductive Call
  | ask (key : Nat) (bytes : Int)
  | refund (bytes : Int)

def Call.exec (b : UploadBudget) (now : Int) : Call → Option UploadBudget
  | .ask key bytes => some (b.consume now bytes (some key)).1
  | .refund bytes => b.refund bytes

/-- What holds of the budget between calls, the next of them at `now`. -/
structure Sound (b : UploadBudget) (now : Int) : Prop where
  budget : 0 ≤ b.mUploadBudget
  last : 0 < b.mUploadBudgetLastDs ∧ b.mUploadBudgetLastDs ≤ now
  keys : (b.mBudgetWaiters.map BudgetWaiter.key).Nodup
  needs : ∀ w ∈ b.mBudgetWaiters, (0 < w.bytes ∧ w.bytes ≤ maxValue) ∧ w.lastAskDs ≤ now

/-- Calls without end under the cap `cap`. Time does not stand still, and a waiter that is registered
    asks again within a second for what it needs. -/
structure Schedule (cap : Int) where
  time : Nat → Int
  call : Nat → Call
  state : Nat → UploadBudget
  step : ∀ i, (call i).exec (state i) (time i) = some (state (i + 1))
  capped : (state 0).mMaxUploadSpeed = cap
  sound : Sound (state 0) (time 0)
  mono : ∀ i, time i ≤ time (i + 1)
  unbounded : ∀ t, ∃ i, t ≤ time i
  inRange : ∀ i key bytes, call i = .ask key bytes → bytes ≤ maxValue
  asks : ∀ i, ∀ w ∈ (state i).mBudgetWaiters,
    ∃ j, i ≤ j ∧ call j = .ask w.key w.bytes ∧ time j ≤ w.lastAskDs + DS_PER_SECOND
  fixedNeed : ∀ i, ∀ w ∈ (state i).mBudgetWaiters, ∀ bytes,
    call i = .ask w.key bytes → bytes = w.bytes

namespace Schedule

variable {cap : Int} (s : Schedule cap)

/-- The call `i` grants its bytes to `key`. -/
def Granted (i key : Nat) : Prop :=
  ∃ bytes, s.call i = .ask key bytes ∧
    ((s.state i).consume (s.time i) bytes (some key)).2 = .granted

structure FirstGrant (i key j : Nat) : Prop where
  le : i ≤ j
  granted : s.Granted j key
  first : ∀ k, i ≤ k → k < j → ¬ s.Granted k key

/-- Those who wait before the call `i` are granted what they need, one after the other in the order
    of the queue. -/
def Served (i : Nat) : Prop :=
  ∃ js : List Nat, js.Pairwise (· < ·) ∧
    List.Forall₂ (fun w j => s.call j = .ask w.key w.bytes ∧ s.FirstGrant i w.key j)
      (s.state i).mBudgetWaiters js

end Schedule

/-- Under the cap every registered waiter is granted its bytes, in order, whatever the schedule. -/
def Live (cap : Int) : Prop := ∀ (s : Schedule cap) (i : Nat), s.Served i

/-! ## 2. One call and the queue -/

namespace UploadBudget

variable {b b' : UploadBudget} {now bytes : Int} {key : Nat}

/-- The queue, as far as the order of service depends on it. -/
def needs (q : List BudgetWaiter) : List (Nat × Int) := q.map fun w => (w.key, w.bytes)

theorem keys_eq (q : List BudgetWaiter) : q.map BudgetWaiter.key = (needs q).map Prod.fst := by
  unfold needs
  rw [map_map]
  rfl

theorem needs_touch (now) : ∀ {q : List BudgetWaiter},
    (∀ w ∈ q, w.key = key → bytes = w.bytes) → needs (touch key bytes now q) = needs q
  | [], _ => rfl
  | w :: q, h => by
      unfold touch
      split_ifs with hk
      · have := h w mem_cons_self hk
        simp [needs, this]
      have ih := needs_touch now fun v hv => h v (mem_cons_of_mem w hv)
      unfold needs at ih ⊢
      rw [map_cons, map_cons, ih]

theorem lastAskDs_touch (key bytes) {t : Int} (hnow : now ≤ t) : ∀ {q : List BudgetWaiter},
    (∀ w ∈ q, w.lastAskDs ≤ t) → ∀ w ∈ touch key bytes now q, w.lastAskDs ≤ t
  | [], _, w, hw => by cases hw
  | v :: q, h, w, hw => by
      unfold touch at hw
      split at hw
      · rcases mem_cons.1 hw with rfl | hw
        · exact hnow
        · exact h w (mem_cons_of_mem v hw)
      rcases mem_cons.1 hw with rfl | hw
      · exact h w mem_cons_self
      · exact lastAskDs_touch key bytes hnow (fun u hu => h u (mem_cons_of_mem v hu)) w hw

/-- **What a call does to the queue**: a grant takes out its front, which is the caller; a denial
    leaves it or puts the caller at its end. -/
theorem serve_needs (b : UploadBudget) (now : Int)
    (hfix : ∀ w ∈ b.mBudgetWaiters, w.key = key → bytes = w.bytes) :
    ((b.serve now bytes key).2 = .granted →
      needs (b.serve now bytes key).1.mBudgetWaiters = (needs b.mBudgetWaiters).tail ∧
        ∀ p ∈ (needs b.mBudgetWaiters).head?, p.1 = key) ∧
    ((b.serve now bytes key).2 ≠ .granted →
      (needs (b.serve now bytes key).1.mBudgetWaiters = needs b.mBudgetWaiters ∨
        (needs (b.serve now bytes key).1.mBudgetWaiters = needs b.mBudgetWaiters ++ [(key, bytes)] ∧
          key ∉ b.mBudgetWaiters.map BudgetWaiter.key)) ∧
      ∀ p ∈ (needs b.mBudgetWaiters).head?, p.1 = key → b.mUploadBudget < bytes) := by
  have ht := needs_touch now hfix
  unfold serve suggestedDs
  cases hq : touch key bytes now b.mBudgetWaiters with
  | nil =>
    rw [hq] at ht
    have hnil : b.mBudgetWaiters = [] := by simpa [needs] using ht.symm
    simp only [hnil]
    split
    · simp [needs]
    · simp [needs]
  | cons front rest =>
    rw [hq] at ht
    have hneeds : needs b.mBudgetWaiters = (front.key, front.bytes) :: needs rest := ht.symm
    simp only [hneeds]
    split
    · rename_i hk
      split
      · simp [hk]
      · rename_i hb
        simp [needs, not_le.1 hb]
    rename_i hk
    split
    · rename_i hpush
      have hout : key ∉ b.mBudgetWaiters.map BudgetWaiter.key := fun hin => by
        obtain ⟨w, hw, hwk⟩ := mem_map.1 hin
        have := any_eq_false.1 hpush.1 w hw
        simp [hwk] at this
      simp [needs, hk, hout]
    · simp [needs, hk]

theorem lastAskDs_serve (b : UploadBudget) (now bytes) (key)
    (h : ∀ w ∈ b.mBudgetWaiters, w.lastAskDs ≤ now) :
    ∀ w ∈ (b.serve now bytes key).1.mBudgetWaiters, w.lastAskDs ≤ now := by
  have ht := lastAskDs_touch key bytes (le_refl now) h
  unfold serve
  cases hq : touch key bytes now b.mBudgetWaiters with
  | nil =>
    simp only
    split
    · simp
    · simp
  | cons front rest =>
    rw [hq] at ht
    have hpush : ∀ w ∈ (front :: rest) ++ [⟨key, bytes, now⟩], w.lastAskDs ≤ now := fun w hw => by
      rcases mem_append.1 hw with hw | hw
      · exact ht w hw
      · rw [mem_singleton.1 hw]
    simp only
    split
    · split
      · exact fun w hw => ht w (mem_cons_of_mem _ hw)
      · exact ht
    split
    · exact hpush
    · exact ht

/-- Nobody is taken out who asked within the last second. -/
theorem expire_eq (h : ∀ w ∈ b.mBudgetWaiters, w.lastAskDs ≤ now ∧ now ≤ w.lastAskDs + 10) :
    b.expire now = b := by
  have hkeep : b.mBudgetWaiters.filter (fun w =>
      ¬ difference now w.lastAskDs > kBudgetWaiterStaleDs) = b.mBudgetWaiters := by
    refine filter_eq_self.2 fun w hw => decide_eq_true ?_
    have := h w hw
    unfold difference kBudgetWaiterStaleDs
    omega
  unfold expire
  rw [hkeep]

/-! ## 3. The budget grows to what the front needs -/

variable {front : BudgetWaiter} {rest : List BudgetWaiter}

theorem front_le_need (hq : b.mBudgetWaiters = front :: rest) (x : Int) :
    front.bytes ≤ b.largestPendingNeed x := by
  unfold largestPendingNeed
  rw [hq]
  exact le_max_right _ _

/-- With a cap of at least 10 a decisecond is worth a byte. -/
theorem le_budgetIncrement (hc : 10 ≤ b.mMaxUploadSpeed) {x : Int} (hx : 0 < x) :
    x ≤ b.budgetIncrement x ∨ b.budgetIncrement x = maxValue := by
  unfold budgetIncrement DS_PER_SECOND
  split
  · exact .inr rfl
  · have hmul : 10 * x ≤ b.mMaxUploadSpeed * x := mul_le_mul_of_nonneg_right hc hx.le
    exact .inl (by omega)

theorem accrue_ge (bytes) (hc : 10 ≤ b.mMaxUploadSpeed) (hb : 0 ≤ b.mUploadBudget)
    (hlast : 0 < b.mUploadBudgetLastDs ∧ b.mUploadBudgetLastDs ≤ now)
    (hq : b.mBudgetWaiters = front :: rest) (hfront : front.bytes ≤ maxValue) :
    min front.bytes (b.mUploadBudget + (now - b.mUploadBudgetLastDs)) ≤
      (b.accrue now bytes).mUploadBudget := by
  rw [accrue_eq hlast.2]
  simp only
  split
  · omega
  have hinc := le_budgetIncrement hc (x := now - b.mUploadBudgetLastDs) (by omega)
  have hneed := front_le_need hq bytes
  unfold grown
  omega

end UploadBudget

/-! ## 4. One call of a schedule -/

namespace Schedule

open UploadBudget

variable {cap : Int} {s : Schedule cap}

theorem time_mono {j : Nat} (h : i ≤ j) : s.time i ≤ s.time j :=
  monotone_nat_of_le_succ s.mono h

theorem exists_late (i) (t : Int) : ∃ j, i ≤ j ∧ t ≤ s.time j := by
  obtain ⟨j, hj⟩ := s.unbounded t
  exact ⟨max i j, le_max_left _ _, hj.trans (time_mono (le_max_right _ _))⟩

theorem consume_eq (hs : Sound (s.state i) (s.time i)) (key : Nat) (hb : 0 < bytes)
    (hc : 0 < (s.state i).mMaxUploadSpeed) :
    (s.state i).consume (s.time i) bytes (some key) =
      ((s.state i).accrue (s.time i) bytes).serve (s.time i) bytes key := by
  have hq : ((s.state i).accrue (s.time i) bytes).mBudgetWaiters = (s.state i).mBudgetWaiters := by
    rw [accrue_eq hs.last.2]
  have hkeep : ((s.state i).accrue (s.time i) bytes).expire (s.time i) =
      (s.state i).accrue (s.time i) bytes := by
    refine expire_eq fun w hw => ?_
    rw [hq] at hw
    obtain ⟨j, hij, -, hj⟩ := s.asks i w hw
    exact ⟨(hs.needs w hw).2, (time_mono hij).trans hj⟩
  unfold consume
  rw [if_neg (by omega), hkeep]

theorem bounds_of_needs {q q' : List BudgetWaiter} (h : ∀ p ∈ needs q', p ∈ needs q)
    (hq : ∀ w ∈ q, 0 < w.bytes ∧ w.bytes ≤ maxValue) :
    ∀ w ∈ q', 0 < w.bytes ∧ w.bytes ≤ maxValue := fun w hw => by
  obtain ⟨v, hv, he⟩ := mem_map.1 (h (w.key, w.bytes) (mem_map_of_mem hw))
  have hbytes : v.bytes = w.bytes := congrArg Prod.snd he
  exact hbytes ▸ hq v hv

theorem exec_ask {key : Nat} (hcall : s.call i = .ask key bytes) :
    s.state (i + 1) = ((s.state i).consume (s.time i) bytes (some key)).1 := by
  have h := s.step i
  rw [hcall] at h
  exact (Option.some.inj h).symm

/-- What an ask for at least a byte does. -/
structure Asked (b b' : UploadBudget) (now bytes : Int) (key : Nat) (a : Answer) : Prop where
  cap : b'.mMaxUploadSpeed = b.mMaxUploadSpeed
  last : b'.mUploadBudgetLastDs = now
  budget : b'.mUploadBudget =
    (b.accrue now bytes).mUploadBudget - (if a = .granted then bytes else 0)
  enough : a = .granted → bytes ≤ (b.accrue now bytes).mUploadBudget
  granted : a = .granted → needs b'.mBudgetWaiters = (needs b.mBudgetWaiters).tail ∧
    ∀ p ∈ (needs b.mBudgetWaiters).head?, p.1 = key
  denied : a ≠ .granted → (needs b'.mBudgetWaiters = needs b.mBudgetWaiters ∨
      (needs b'.mBudgetWaiters = needs b.mBudgetWaiters ++ [(key, bytes)] ∧
        key ∉ b.mBudgetWaiters.map BudgetWaiter.key)) ∧
    ∀ p ∈ (needs b.mBudgetWaiters).head?, p.1 = key → (b.accrue now bytes).mUploadBudget < bytes
  asked : ∀ w ∈ b'.mBudgetWaiters, w.lastAskDs ≤ now

theorem asked {key : Nat} (hs : Sound (s.state i) (s.time i)) (hc : 0 < (s.state i).mMaxUploadSpeed)
    (hcall : s.call i = .ask key bytes) (hb : 0 < bytes) :
    Asked (s.state i) (s.state (i + 1)) (s.time i) bytes key
      ((s.state i).consume (s.time i) bytes (some key)).2 := by
  have heq := consume_eq hs key hb hc
  have hacc := accrue_eq (x := bytes) hs.last.2
  have hq : ((s.state i).accrue (s.time i) bytes).mBudgetWaiters = (s.state i).mBudgetWaiters := by
    rw [hacc]
  obtain ⟨h1, h2, h3, h4⟩ := serve_charge ((s.state i).accrue (s.time i) bytes) (s.time i) bytes key
  have hfix : ∀ w ∈ ((s.state i).accrue (s.time i) bytes).mBudgetWaiters, w.key = key →
      bytes = w.bytes := fun w hw hk => s.fixedNeed i w (hq ▸ hw) bytes (hk ▸ hcall)
  obtain ⟨h5, h6⟩ := serve_needs ((s.state i).accrue (s.time i) bytes) (s.time i) hfix
  have h7 := lastAskDs_serve ((s.state i).accrue (s.time i) bytes) (s.time i) bytes key
    fun w hw => (hs.needs w (hq ▸ hw)).2
  rw [hq] at h5 h6
  rw [exec_ask hcall, heq]
  refine ⟨?_, ?_, h3, h4, h5, h6, h7⟩
  · rw [h1, hacc]
  · rw [h2, hacc]

/-- What holds between calls is kept by every call. -/
theorem sound_step (hc : 0 < (s.state i).mMaxUploadSpeed) (hs : Sound (s.state i) (s.time i)) :
    (s.state (i + 1)).mMaxUploadSpeed = (s.state i).mMaxUploadSpeed ∧
      Sound (s.state (i + 1)) (s.time (i + 1)) := by
  have hlater : ∀ t, t ≤ s.time i → t ≤ s.time (i + 1) := fun t ht => ht.trans (s.mono i)
  cases hcall : s.call i with
  | refund bytes =>
    have h := s.step i
    rw [hcall] at h
    obtain ⟨h1, h2, h3, h4, -, -⟩ := refund_le hs.budget h
    refine ⟨h1, h4, h2 ▸ ⟨hs.last.1, hlater _ hs.last.2⟩, h3 ▸ hs.keys, fun w hw => ?_⟩
    have := hs.needs w (h3 ▸ hw)
    exact ⟨this.1, hlater _ this.2⟩
  | ask key bytes =>
    rcases lt_or_ge 0 bytes with hb | hb
    · have ha := asked hs hc hcall hb
      have hpos := accrue_nonneg hc.le hs.budget hb hs.last.2
      have hbounds : ∀ w ∈ (s.state i).mBudgetWaiters, 0 < w.bytes ∧ w.bytes ≤ maxValue :=
        fun w hw => (hs.needs w hw).1
      have hpos' := hs.last
      refine ⟨ha.cap, ?_, ?_, ?_, fun w hw => ⟨?_, hlater _ (ha.asked w hw)⟩⟩
      · rw [ha.budget]
        split_ifs with hg
        · have := ha.enough hg
          omega
        · omega
      · rw [ha.last]
        exact ⟨by omega, s.mono i⟩
      · have hk := hs.keys
        rw [keys_eq] at hk ⊢
        by_cases hg : ((s.state i).consume (s.time i) bytes (some key)).2 = .granted
        · rw [(ha.granted hg).1, map_tail]
          exact hk.sublist (tail_sublist _)
        rcases (ha.denied hg).1 with he | ⟨he, hout⟩
        · rwa [he]
        rw [keys_eq] at hout
        rw [he, map_append]
        refine nodup_append.2 ⟨hk, pairwise_singleton _ _, fun x hx y hy e => ?_⟩
        have hx' : x = key := e.trans (mem_singleton.1 hy)
        exact hout (hx' ▸ hx)
      by_cases hg : ((s.state i).consume (s.time i) bytes (some key)).2 = .granted
      · refine bounds_of_needs (fun p hp => ?_) hbounds w hw
        rw [(ha.granted hg).1] at hp
        exact mem_of_mem_tail hp
      · rcases (ha.denied hg).1 with he | ⟨he, -⟩
        · exact bounds_of_needs (fun p hp => he ▸ hp) hbounds w hw
        · refine bounds_of_needs (q := (s.state i).mBudgetWaiters ++ [⟨key, bytes, 0⟩])
            (fun p hp => ?_) (fun v hv => ?_) w hw
          · rw [he] at hp
            simpa [needs] using hp
          rcases mem_append.1 hv with hv | hv
          · exact hbounds v hv
          · rw [mem_singleton.1 hv]
            exact ⟨hb, s.inRange i key bytes hcall⟩
    · have hsame : s.state (i + 1) = s.state i := by
        rw [exec_ask hcall]
        exact congrArg Prod.fst (if_pos (.inl hb))
      rw [hsame]
      exact ⟨rfl, hs.budget, ⟨hs.last.1, hlater _ hs.last.2⟩, hs.keys, fun w hw =>
        ⟨(hs.needs w hw).1, hlater _ (hs.needs w hw).2⟩⟩

theorem sound_at (hc : 0 < cap) : ∀ i,
    (s.state i).mMaxUploadSpeed = cap ∧ Sound (s.state i) (s.time i)
  | 0 => ⟨s.capped, s.sound⟩
  | i + 1 => by
      obtain ⟨h1, h2⟩ := sound_at hc i
      obtain ⟨h3, h4⟩ := sound_step (by rw [h1]; exact hc) h2
      exact ⟨h3.trans h1, h4⟩

section Front

variable (hc : 10 ≤ cap) (hq : needs (s.state i).mBudgetWaiters = (k, n) :: l)

include hc hq

/-- **One call, seen from the front of the queue**: the front asks and gets its bytes, or nobody of
    the queue gets any, the queue stays and the budget has grown by the time, up to what the front
    needs. -/
theorem step_front :
    (s.call i = .ask k n ∧ s.Granted i k ∧ needs (s.state (i + 1)).mBudgetWaiters = l ∧
      ∀ p ∈ l, ¬ s.Granted i p.1) ∨
    ((∀ p ∈ (k, n) :: l, ¬ s.Granted i p.1) ∧
      (∃ new, needs (s.state (i + 1)).mBudgetWaiters = (k, n) :: l ++ new) ∧
      (s.state i).mUploadBudgetLastDs ≤ (s.state (i + 1)).mUploadBudgetLastDs ∧
      min n ((s.state i).mUploadBudget +
          ((s.state (i + 1)).mUploadBudgetLastDs - (s.state i).mUploadBudgetLastDs)) ≤
        (s.state (i + 1)).mUploadBudget ∧
      (s.call i = .ask k n → (s.state (i + 1)).mUploadBudgetLastDs = s.time i ∧
        (s.state (i + 1)).mUploadBudget < n)) := by
  obtain ⟨hcap, hs⟩ := sound_at (s := s) (by omega) i
  have hcap0 : 0 < (s.state i).mMaxUploadSpeed := by omega
  obtain ⟨front, rest, hw, hfront⟩ : ∃ front rest, (s.state i).mBudgetWaiters = front :: rest ∧
      (front.key, front.bytes) = (k, n) := by
    cases hb : (s.state i).mBudgetWaiters with
    | nil =>
      rw [hb] at hq
      cases hq
    | cons front rest =>
      rw [hb] at hq
      exact ⟨front, rest, rfl, (List.cons.inj hq).1⟩
  obtain ⟨rfl, rfl⟩ := Prod.mk.inj hfront
  have hn := (hs.needs front (hw ▸ mem_cons_self)).1
  -- who is in the queue asks for what it needs
  have hneed : ∀ p ∈ (front.key, front.bytes) :: l, ∀ bytes, s.call i = .ask p.1 bytes →
      bytes = p.2 ∧ 0 < bytes := fun p hp bytes hcall => by
    rw [← hq] at hp
    obtain ⟨v, hv, rfl⟩ := mem_map.1 hp
    have he := s.fixedNeed i v hv bytes hcall
    exact ⟨he, he ▸ (hs.needs v hv).1.1⟩
  have hkeys := hs.keys
  rw [keys_eq, hq, map_cons, nodup_cons] at hkeys
  cases hcall : s.call i with
  | refund bytes =>
    have h := s.step i
    rw [hcall] at h
    obtain ⟨-, h2, h3, -, -, hge⟩ := refund_le hs.budget h
    have hge := hge _ (front_le_need hw bytes)
    refine .inr ⟨fun p _ ⟨b, hg, _⟩ => ?_, ⟨[], by rw [h3, hq, append_nil]⟩, h2.ge, ?_,
      nofun⟩
    · rw [hcall] at hg
      cases hg
    · rw [h2]
      omega
  | ask key bytes =>
    have hkey : ∀ p : Nat × Int, s.Granted i p.1 → p.1 = key ∧
        ((s.state i).consume (s.time i) bytes (some key)).2 = .granted := fun p ⟨b, hg, ha⟩ => by
      rw [hcall] at hg
      cases hg
      exact ⟨rfl, ha⟩
    rcases lt_or_ge 0 bytes with hb | hb
    · have ha := asked hs hcap0 hcall hb
      have hge := accrue_ge bytes (by omega) hs.budget hs.last hw hn.2
      by_cases hg : ((s.state i).consume (s.time i) bytes (some key)).2 = .granted
      · -- only the front is served
        obtain ⟨h1, h2⟩ := ha.granted hg
        rw [hq] at h1 h2
        obtain rfl : front.key = key := h2 _ rfl
        obtain ⟨rfl, -⟩ := hneed _ mem_cons_self bytes hcall
        refine .inl ⟨rfl, ⟨_, hcall, hg⟩, h1, fun p hp hgp => ?_⟩
        have hk : p.1 = front.key := (hkey p hgp).1
        exact hkeys.1 (mem_map.2 ⟨p, hp, hk⟩)
      obtain ⟨h1, h2⟩ := ha.denied hg
      have hbudget := ha.budget
      rw [if_neg hg, sub_zero] at hbudget
      refine .inr ⟨fun p _ hgp => hg (hkey p hgp).2, ?_, ?_, ?_, fun e => ?_⟩
      · rcases h1 with h1 | ⟨h1, -⟩
        · exact ⟨[], by rw [h1, hq, append_nil]⟩
        · exact ⟨_, by rw [h1, hq]⟩
      · rw [ha.last]
        exact hs.last.2
      · rwa [ha.last, hbudget]
      cases e
      refine ⟨ha.last, ?_⟩
      rw [hbudget]
      exact h2 (front.key, front.bytes) (by rw [hq]; rfl) rfl
    -- an ask for nothing is answered at once
    have hsame : s.state (i + 1) = s.state i := by
      rw [exec_ask hcall]
      exact congrArg Prod.fst (if_pos (.inl hb))
    rw [hsame]
    refine .inr ⟨fun p hp hgp => ?_, ⟨[], by rw [hq, append_nil]⟩, le_rfl, by omega,
      fun e => ?_⟩
    · have := (hneed p hp bytes ((hkey p hgp).1 ▸ hcall)).2
      omega
    · cases e
      omega

/-! ## 5. Everyone is served -/

/-- As long as the front is not served, the queue stays and the budget grows up to its need. -/
theorem front_waits {j : Nat} (hij : i ≤ j) (hno : ∀ m, i ≤ m → m < j → ¬ s.Granted m k) :
    (∃ new, needs (s.state j).mBudgetWaiters = (k, n) :: (l ++ new)) ∧
      (s.state i).mUploadBudgetLastDs ≤ (s.state j).mUploadBudgetLastDs ∧
      min n ((s.state i).mUploadBudget +
          ((s.state j).mUploadBudgetLastDs - (s.state i).mUploadBudgetLastDs)) ≤
        (s.state j).mUploadBudget ∧
      ∀ m, i ≤ m → m < j → ∀ p ∈ l, ¬ s.Granted m p.1 := by
  induction j, hij using Nat.le_induction with
  | base => exact ⟨⟨[], by rw [hq, append_nil]⟩, le_rfl, by omega, fun m h1 h2 => by omega⟩
  | succ j hij ih =>
    obtain ⟨⟨new, hnew⟩, hlast, hbudget, hothers⟩ := ih fun m h1 h2 => hno m h1 (by omega)
    rcases step_front hc hnew with ⟨-, hg, -⟩ | ⟨hg, ⟨new', hnew'⟩, hlast', hbudget', -⟩
    · exact absurd hg (hno j hij (Nat.lt_succ_self j))
    refine ⟨⟨new ++ new', by rw [hnew']; simp⟩, hlast.trans hlast', by omega, fun m h1 h2 p hp => ?_⟩
    rcases Nat.lt_succ_iff_lt_or_eq.1 h2 with h2 | rfl
    · exact hothers m h1 h2 p hp
    · exact hg p (mem_cons_of_mem _ (mem_append_left _ hp))

/-- **The front of the queue is served**, and nobody else of the queue before. -/
theorem front_granted :
    ∃ j, s.call j = .ask k n ∧ s.FirstGrant i k j ∧
      (∃ new, needs (s.state (j + 1)).mBudgetWaiters = l ++ new) ∧
      ∀ m, i ≤ m → m ≤ j → ∀ p ∈ l, ¬ s.Granted m p.1 := by
  classical
  have hex : ∃ j, i ≤ j ∧ s.Granted j k := by
    by_contra hne
    have hno : ∀ m, i ≤ m → ¬ s.Granted m k := fun m hm hg => hne ⟨m, hm, hg⟩
    -- late enough the budget has what the front needs
    obtain ⟨m, him, hm⟩ := exists_late (s := s) i ((s.state i).mUploadBudgetLastDs + n)
    obtain ⟨⟨new, hnew⟩, -⟩ := front_waits hc hq him fun m h1 _ => hno m h1
    have hin : (k, n) ∈ needs (s.state m).mBudgetWaiters := by
      rw [hnew]
      exact mem_cons_self
    obtain ⟨w, hw, he⟩ := mem_map.1 hin
    obtain ⟨rfl, rfl⟩ := Prod.mk.inj he
    obtain ⟨j, hmj, hcall, -⟩ := s.asks m w hw
    obtain ⟨⟨new', hnew'⟩, -, hbudget, -⟩ := front_waits hc hq (him.trans hmj) fun m h1 _ => hno m h1
    rcases step_front hc hnew' with ⟨-, hg, -⟩ | ⟨-, -, hlast, hbudget', hlow⟩
    · exact hno j (him.trans hmj) hg
    obtain ⟨hl, hlt⟩ := hlow hcall
    have hpos := (sound_at (s := s) (by omega) i).2.budget
    have htime := time_mono (s := s) hmj
    omega
  obtain ⟨hij, hg⟩ := Nat.find_spec hex
  have hmin : ∀ m, i ≤ m → m < Nat.find hex → ¬ s.Granted m k := fun m hm hlt hg =>
    Nat.find_min hex hlt ⟨hm, hg⟩
  obtain ⟨⟨new, hnew⟩, -, -, hothers⟩ := front_waits hc hq hij hmin
  rcases step_front hc hnew with ⟨hcall, -, hnext, hnot⟩ | ⟨hno, -⟩
  · refine ⟨Nat.find hex, hcall, ⟨hij, hg, hmin⟩, ⟨new, hnext⟩, fun m h1 h2 p hp => ?_⟩
    rcases Nat.lt_or_eq_of_le h2 with h2 | rfl
    · exact hothers m h1 h2 p hp
    · exact hnot p (mem_append_left _ hp)
  · exact absurd hg (hno (k, n) mem_cons_self)

end Front

/-- And so is everyone behind, by induction on the queue. -/
theorem served_needs (hc : 10 ≤ cap) : ∀ (l : List (Nat × Int)) {i : Nat} {new : List (Nat × Int)},
    needs (s.state i).mBudgetWaiters = l ++ new →
    ∃ js : List Nat, js.Pairwise (· < ·) ∧ (∀ j ∈ js, i ≤ j) ∧
      List.Forall₂ (fun p j => s.call j = .ask p.1 p.2 ∧ s.FirstGrant i p.1 j) l js
  | [], _, _, _ => ⟨[], .nil, by simp, List.Forall₂.nil⟩
  | (k, n) :: l, i, new, hq => by
      rw [cons_append] at hq
      obtain ⟨j, hcall, hfirst, ⟨new', hnext⟩, hothers⟩ := front_granted hc hq
      rw [append_assoc] at hnext
      obtain ⟨js, hpw, hle, hjs⟩ := served_needs hc l hnext
      refine ⟨j :: js, pairwise_cons.2 ⟨fun m hm => hle m hm, hpw⟩, fun m hm => ?_,
        .cons ⟨hcall, hfirst⟩ ?_⟩
      · rcases mem_cons.1 hm with rfl | hm
        · exact hfirst.le
        · exact hfirst.le.trans ((Nat.le_succ j).trans (hle m hm))
      refine (List.forall₂_and_left l js).2 ⟨fun p hp => hp, hjs⟩ |>.imp ?_
      intro p m ⟨hp, hcall', hf⟩
      refine ⟨hcall', hfirst.le.trans ((Nat.le_succ j).trans hf.le), hf.granted, fun x h1 h2 => ?_⟩
      rcases lt_or_ge j x with hx | hx
      · exact hf.first x hx h2
      · exact hothers x h1 hx p (mem_append_left _ hp)

theorem served (hc : 10 ≤ cap) (i) : s.Served i := by
  obtain ⟨js, hpw, -, hjs⟩ :=
    served_needs hc (needs (s.state i).mBudgetWaiters) (append_nil _).symm
  exact ⟨js, hpw, List.forall₂_map_left_iff.1 hjs⟩

end Schedule

/-! ## 6. Small caps -/

/-- One pool that asks for a byte every decisecond. -/
def starved (cap : Int) : Nat → UploadBudget
  | 0 => ⟨cap, 0, 1, []⟩
  | i + 1 => ⟨cap, 0, i + 1, [⟨0, 1, i + 1⟩]⟩

theorem starved_accrue (h0 : 0 < cap) (h10 : cap < 10) : ∀ i : Nat,
    (starved cap i).accrue (i + 1) 1 = { starved cap i with mUploadBudgetLastDs := i + 1 }
  | 0 => by simp [UploadBudget.accrue, starved]
  | i + 1 => by
      have hburst : (0 : Int) ≤ max (starved cap (i + 1)).maxBurstBudget
          ((starved cap (i + 1)).largestPendingNeed 1) :=
        le_trans (by decide) (le_max_of_le_right (UploadBudget.bytes_le_need _ 1))
      have hinc : (starved cap (i + 1)).budgetIncrement 1 = 0 := by
        unfold UploadBudget.budgetIncrement DS_PER_SECOND
        rw [if_neg (by
          show ¬ cap > maxValue / 1
          unfold maxValue
          omega)]
        show cap * 1 / 10 = 0
        omega
      rw [UploadBudget.accrue_eq (by
        show (i : Int) + 1 ≤ ((i + 1 : Nat) : Int) + 1
        omega)]
      have hgrown : (starved cap (i + 1)).grown 1 1 = 0 := by
        unfold UploadBudget.grown
        rw [hinc]
        show min (min maxValue (0 + 0)) _ = 0
        unfold maxValue
        omega
      have helapsed : (((i + 1 : Nat) : Int) + 1 - (starved cap (i + 1)).mUploadBudgetLastDs) = 1 := by
        show ((i + 1 : Nat) : Int) + 1 - ((i : Int) + 1) = 1
        omega
      have hbudget : (starved cap (i + 1)).mUploadBudget = 0 := rfl
      rw [helapsed, hgrown, hbudget, ite_self]
      rfl

theorem starved_step (h0 : 0 < cap) (h10 : cap < 10) (i) :
    ((starved cap i).consume (i + 1) 1 (some 0)).1 = starved cap (i + 1) ∧
      ((starved cap i).consume (i + 1) 1 (some 0)).2 ≠ .granted := by
  have hexp : ({ starved cap i with mUploadBudgetLastDs := i + 1 } : UploadBudget).expire (i + 1) =
      { starved cap i with mUploadBudgetLastDs := i + 1 } := by
    refine UploadBudget.expire_eq fun w hw => ?_
    cases i with
    | zero => cases hw
    | succ i =>
      rw [mem_singleton.1 hw]
      dsimp only
      omega
  unfold UploadBudget.consume
  rw [if_neg (by
    rw [not_or]
    refine ⟨by decide, ?_⟩
    cases i <;> exact not_le.2 h0), starved_accrue h0 h10 i, hexp]
  cases i <;> simp [starved, UploadBudget.serve, UploadBudget.touch, UploadBudget.suggestedDs]

/-- That pool, under a small cap. -/
def starvedSchedule {cap : Int} (h0 : 0 < cap) (h10 : cap < 10) : Schedule cap where
  time i := i + 1
  call _ := .ask 0 1
  state := starved cap
  step i := congrArg some (starved_step h0 h10 i).1
  capped := rfl
  sound := ⟨le_rfl, ⟨Int.one_pos, le_rfl⟩, nodup_nil, nofun⟩
  mono i := by
    push_cast
    omega
  unbounded t := ⟨t.toNat, by omega⟩
  inRange i key bytes h := by
    cases h
    decide
  asks i w hw := by
    cases i with
    | zero => cases hw
    | succ i =>
      rw [mem_singleton.1 hw]
      refine ⟨i + 1, le_rfl, rfl, ?_⟩
      show ((i + 1 : Nat) : Int) + 1 ≤ (i : Int) + 1 + 10
      omega
  fixedNeed i w hw bytes h := by
    cases i with
    | zero => cases hw
    | succ i =>
      rw [mem_singleton.1 hw] at h ⊢
      cases h
      rfl

theorem not_live (h0 : 0 < cap) (h10 : cap < 10) : ¬ Live cap := by
  intro hlive
  obtain ⟨js, -, hjs⟩ := hlive (starvedSchedule h0 h10) 1
  cases hjs with
  | cons h _ =>
    obtain ⟨bytes, hcall, hg⟩ := h.2.granted
    cases hcall
    exact (starved_step h0 h10 _).2 hg

/-- **Under a positive cap that stays the same, every registered waiter that keeps asking is granted
    its bytes, in the order of registration, exactly when the cap is at least 10 bytes a second.** -/
theorem served_in_order_iff {cap : Int} (hc : 0 < cap) : Live cap ↔ 10 ≤ cap :=
  ⟨fun h => not_lt.1 fun h10 => not_live hc h10 h, fun h _ => Schedule.served h⟩

/-- A thousand bytes a second are enough for everyone. -/
theorem live_thousand : Live 1000 := (served_in_order_iff (by decide)).2 (by decide)

/-- Under a cap of nine bytes a second a pool that asks for one byte every decisecond waits for
    ever. -/
theorem starved_nine : ∃ s : Schedule 9, (s.state 1).mBudgetWaiters = [⟨0, 1, 1⟩] ∧
    (∀ i, s.call i = .ask 0 1 ∧ s.time i = i + 1) ∧ ∀ i, ¬ s.Granted i 0 :=
  ⟨starvedSchedule (by decide) (by decide), rfl, fun _ => ⟨rfl, rfl⟩, fun i ⟨_, hcall, hg⟩ => by
    cases hcall
    exact (starved_step (by decide) (by decide) i).2 hg⟩

end MegaSdk.Ws.Budget
