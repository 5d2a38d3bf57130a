/-
  File:      MegaSdk/Ws/Quota.lean
  Subject:   PREDICTIVE QUOTA HOLDS (ws_quota.cpp, megaclient_wsupload.cpp).

  A snapshot gives each folder with a balance its pool. An evaluation holds the uploads that do not
  fit, adds up what is outstanding, and remembers whether all of it fits (`mUnconstrained`); as long
  as it does, completions do not ask for another evaluation. Balances and sizes are natural numbers:
  the code drops negative balances and clamps at 0.

  * `share` -- what an upload takes from a pool: its size once per target there;
  * **`fits_of_unconstrained`** -- once all fits, it does after every completion and cancellation;
  * **`unheld_fits_iff`** -- an upload that is not held fits for every balance exactly if it has at
    most one target in each pool: the evaluation asks for each target on its own.
-/
import Mathlib

namespace MegaSdk.Ws

open List Function

/-! ## 1. The code -/

structure QuotaPool where
  remaining : Nat
  outstanding : Nat := 0

/-- `UploadQuotaManager`, with a snapshot of `n` pools. -/
structure UploadQuotaManager (n : Nat) where
  mPools : Fin n → QuotaPool
  mPoolByFolder : List (Nat × Fin n)
  mUnconstrained : Bool := true
  mEvalPending : Bool := false

/-- A websocket upload; a `File` without a target folder has `none`. -/
structure QuotaTransfer where
  size : Nat
  files : List (Option Nat)
  /-- `TRANSFERSTATE_COMPLETING` or `TRANSFERSTATE_COMPLETED` -/
  completing : Bool := false
  ws_quota_held : Bool := false
deriving DecidableEq

variable {n : Nat}

namespace UploadQuotaManager

variable (q : UploadQuotaManager n)

def haveBalances : Bool := !q.mPoolByFolder.isEmpty

def poolOf (folder : Nat) : Option (Fin n) := q.mPoolByFolder.lookup folder

def hasBalanceFor (folder : Nat) : Bool := (q.poolOf folder).isSome

def availableFor (folder : Nat) : Nat := (q.poolOf folder).elim 0 fun i => (q.mPools i).remaining

/-- The pool of a folder is changed, if there is one. -/
def withPoolOf (folder : Nat) (g : QuotaPool → QuotaPool) : UploadQuotaManager n :=
  match q.poolOf folder with
  | none => q
  | some i => { q with mPools := Function.update q.mPools i (g (q.mPools i)) }

def deductOnCompletion (size folder : Nat) : UploadQuotaManager n :=
  q.withPoolOf folder fun p => ⟨p.remaining - size, p.outstanding - size⟩

def beginOutstandingAccumulation : UploadQuotaManager n :=
  { q with mPools := fun i => { q.mPools i with outstanding := 0 } }

def addOutstandingForTargets (folders : List Nat) (size : Nat) : UploadQuotaManager n :=
  folders.foldl (·.withPoolOf · fun p => { p with outstanding := p.outstanding + size }) q

def finishOutstandingAccumulation : UploadQuotaManager n :=
  { q with mUnconstrained := decide (∀ i, (q.mPools i).outstanding ≤ (q.mPools i).remaining) }

end UploadQuotaManager

namespace QuotaTransfer

variable (t : QuotaTransfer) (q : UploadQuotaManager n)

/-- The targets with a balance. -/
def targets : List Nat := (t.files.filterMap id).filter q.hasBalanceFor

def shouldHold : Bool := (t.targets q).any fun folder => q.availableFor folder < t.size

def evaluate : QuotaTransfer :=
  if t.completing then t else { t with ws_quota_held := q.haveBalances && t.shouldHold q }

end QuotaTransfer

variable (q : UploadQuotaManager n)

/-- What the loop of `wsQuotaEvaluateHolds` adds for one upload. -/
def addOutstanding (t : QuotaTransfer) : UploadQuotaManager n :=
  if t.completing then q else q.addOutstandingForTargets (t.targets q) t.size

/-- `MegaClient::wsQuotaEvaluateHolds`. The loop changes nothing that a hold depends on. -/
def wsQuotaEvaluateHolds (ts : List QuotaTransfer) :
    UploadQuotaManager n × List QuotaTransfer :=
  (if q.haveBalances then
      (ts.foldl addOutstanding q.beginOutstandingAccumulation).finishOutstandingAccumulation
    else q, ts.map (·.evaluate q))

def wsQuotaOnUploadCompleted (t : QuotaTransfer) :
    UploadQuotaManager n :=
  if q.haveBalances then
    let q := (t.targets q).foldl (·.deductOnCompletion t.size) q
    { q with mEvalPending := q.mEvalPending || !q.mUnconstrained }
  else q

/-- What happens to the queue without a new snapshot or a new upload. -/
inductive QuotaEvent
  | complete (k : Nat)
  | cancel (k : Nat)
  | cancelFile (k j : Nat)

def QuotaEvent.apply (s : UploadQuotaManager n × List QuotaTransfer) :
    QuotaEvent → UploadQuotaManager n × List QuotaTransfer
  | complete k =>
    match s.2[k]? with
    | none => s
    | some t =>
      if t.completing then s
      else (wsQuotaOnUploadCompleted s.1 t, s.2.set k { t with completing := true })
  | cancel k => (s.1, s.2.eraseIdx k)
  | cancelFile k j =>
    match s.2[k]? with
    | none => s
    | some t => (s.1, s.2.set k { t with files := t.files.eraseIdx j })

/-! ## 2. Shares -/

open UploadQuotaManager QuotaTransfer

/-- How many targets an upload has in a pool. -/
def QuotaTransfer.targetsIn (i : Fin n) (t : QuotaTransfer) : Nat :=
  (t.targets q).countP (q.poolOf · = some i)

def QuotaTransfer.share (i : Fin n) (t : QuotaTransfer) : Nat :=
  if t.completing then 0 else t.size * t.targetsIn q i

/-- What all unfinished uploads take from a pool. -/
def load (i : Fin n) (ts : List QuotaTransfer) : Nat :=
  (ts.map (·.share q i)).sum

variable {q : UploadQuotaManager n} {i : Fin n} {t v : QuotaTransfer} {ts : List QuotaTransfer}

/-- A pool is changed as often as it has a folder in the list. -/
theorem foldl_withPoolOf (g : QuotaPool → QuotaPool) (folders : List Nat) :
    folders.foldl (·.withPoolOf · g) q = { q with
      mPools := fun i => g^[folders.countP (q.poolOf · = some i)] (q.mPools i) } := by
  induction folders generalizing q with
  | nil => rfl
  | cons folder folders ih =>
    rw [foldl_cons, ih, withPoolOf]
    split
    · rename_i hnone
      simp [hnone]
    rename_i j hj
    congr 1
    funext i
    change g^[folders.countP (q.poolOf · = some i)] _ = _
    rw [countP_cons]
    by_cases hi : j = i
    · rw [hi] at hj ⊢
      rw [if_pos (decide_eq_true hj)]
      simp
    · rw [if_neg (by simpa [hj] using hi)]
      exact congrArg _ (update_of_ne (Ne.symm hi) _ _)

theorem shouldHold_eq_false : t.shouldHold q = false ↔
    ∀ i, t.targetsIn q i ≠ 0 → t.size ≤ (q.mPools i).remaining := by
  unfold shouldHold targetsIn
  rw [any_eq_false]
  constructor
  · intro h i hi
    obtain ⟨folder, hmem, hpool⟩ := countP_pos_iff.1 (pos_of_ne_zero hi)
    simpa [availableFor, of_decide_eq_true hpool] using h folder hmem
  · intro h folder hmem
    obtain ⟨i, hi⟩ := Option.isSome_iff_exists.1 (mem_filter.1 hmem).2
    have := h i (countP_pos_iff.2 ⟨folder, hmem, decide_eq_true hi⟩).ne'
    simpa [availableFor, hi] using this

theorem targetsIn_eq_zero (h : q.haveBalances = false) : t.targetsIn q i = 0 := by
  have hempty : q.mPoolByFolder = [] := by simpa [haveBalances] using h
  have hnone : t.targets q = [] := filter_eq_nil_iff.2 fun f _ => by
    simp [hasBalanceFor, poolOf, hempty]
  rw [targetsIn, hnone, countP_nil]

theorem held_evaluate (h : t.completing = false) :
    (t.evaluate q).ws_quota_held = false ↔ t.shouldHold q = false := by
  rw [evaluate, h]
  cases hq : q.haveBalances with
  | true => exact .rfl
  | false => exact iff_of_true rfl (shouldHold_eq_false.2 fun i hi => absurd (targetsIn_eq_zero hq) hi)

/-! ## 3. All uploads together -/

theorem foldl_addOutstanding : ts.foldl addOutstanding q = { q with mPools := fun i =>
    { q.mPools i with outstanding := (q.mPools i).outstanding + load q i ts } } := by
  induction ts generalizing q with
  | nil => rfl
  | cons t ts ih =>
    rw [foldl_cons, ih, addOutstanding]
    unfold load
    simp only [map_cons, sum_cons, share]
    split
    · simp
    have hadd : ∀ k (p : QuotaPool),
        (fun p : QuotaPool => { p with outstanding := p.outstanding + t.size })^[k] p =
          { p with outstanding := p.outstanding + t.size * k } := by
      intro k p
      induction k with
      | zero => rfl
      | succ k ih => rw [iterate_succ_apply', ih, Nat.mul_succ, add_assoc]
    rw [addOutstandingForTargets, foldl_withPoolOf]
    simp only [hadd, ← add_assoc]
    rfl

/-- What the queue takes from each pool is there. -/
def Fits (s : UploadQuotaManager n × List QuotaTransfer) : Prop :=
  ∀ i, load s.1 i s.2 ≤ (s.1.mPools i).remaining

theorem fits_evaluate (h : (wsQuotaEvaluateHolds q ts).1.mUnconstrained = true) :
    Fits (wsQuotaEvaluateHolds q ts) := by
  intro i
  have hshare : ∀ t : QuotaTransfer, (t.evaluate q).share q i = t.share q i := fun t => by
    unfold evaluate
    split <;> rfl
  have hload : load q i (ts.map (·.evaluate q)) = load q i ts := by
    simp [load, comp_def, hshare]
  unfold wsQuotaEvaluateHolds at h ⊢
  cases hq : q.haveBalances with
  | true =>
    simp only [hq, foldl_addOutstanding] at h ⊢
    exact hload.trans_le ((Nat.le_add_left _ _).trans (of_decide_eq_true h i))
  | false =>
    have hzero : ∀ t : QuotaTransfer, t.share q i = 0 := fun t => by
      rw [share, targetsIn_eq_zero hq, Nat.mul_zero, ite_self]
    simp [load, comp_def, hzero]

theorem load_set {k : Nat} (h : ts[k]? = some t) :
    load q i (ts.set k v) + t.share q i = load q i ts + v.share q i := by
  induction ts generalizing k with
  | nil => cases h
  | cons u ts ih =>
    unfold load at ih ⊢
    cases k with
    | zero =>
      cases h
      simp only [set_cons_zero, map_cons, sum_cons]
      omega
    | succ k =>
      have := ih h
      simp only [set_cons_succ, map_cons, sum_cons]
      omega

theorem wsQuotaOnUploadCompleted_eq (hgo : t.completing = false) :
    ∃ pending, wsQuotaOnUploadCompleted q t = { q with
      mPools := fun i =>
        ⟨(q.mPools i).remaining - t.share q i, (q.mPools i).outstanding - t.share q i⟩
      mEvalPending := pending } := by
  have hsub : ∀ k (p : QuotaPool),
      (fun p : QuotaPool => ⟨p.remaining - t.size, p.outstanding - t.size⟩)^[k] p =
        (⟨p.remaining - t.size * k, p.outstanding - t.size * k⟩ : QuotaPool) := by
    intro k p
    induction k with
    | zero => rfl
    | succ k ih => rw [iterate_succ_apply', ih, Nat.mul_succ, Nat.sub_sub, Nat.sub_sub]
  simp only [share, hgo]
  unfold wsQuotaOnUploadCompleted
  cases hq : q.haveBalances with
  | true =>
    have hall := foldl_withPoolOf (q := q) (fun p => ⟨p.remaining - t.size, p.outstanding - t.size⟩)
      (t.targets q)
    simp only [hsub] at hall
    exact ⟨_, congrArg (fun r : UploadQuotaManager n =>
      { r with mEvalPending := r.mEvalPending || !r.mUnconstrained }) hall⟩
  | false =>
    simp only [targetsIn_eq_zero hq]
    exact ⟨_, rfl⟩

theorem Fits.apply {s : UploadQuotaManager n × List QuotaTransfer} (h : Fits s) (e : QuotaEvent) :
    Fits (e.apply s) := by
  intro i
  have hi := h i
  cases e with
  | complete k =>
    unfold QuotaEvent.apply
    dsimp only
    split
    · exact hi
    rename_i t ht
    split
    · exact hi
    rename_i hgo
    obtain ⟨b, hb⟩ := wsQuotaOnUploadCompleted_eq (Bool.eq_false_iff.2 hgo)
    have hset := load_set (q := s.1) (i := i) (v := { t with completing := true }) ht
    have hdone : share s.1 i { t with completing := true } = 0 := rfl
    rw [hb]
    change load s.1 i (s.2.set k _) ≤ (s.1.mPools i).remaining - t.share s.1 i
    omega
  | cancel k =>
    exact (((eraseIdx_sublist _ _).map _).sum_le_sum fun _ _ => Nat.zero_le _).trans hi
  | cancelFile k j =>
    unfold QuotaEvent.apply
    dsimp only
    split
    · exact hi
    rename_i t ht
    have hset := load_set (q := s.1) (i := i) (v := { t with files := t.files.eraseIdx j }) ht
    have hle : share s.1 i { t with files := t.files.eraseIdx j } ≤ t.share s.1 i := by
      unfold share
      split
      · exact le_rfl
      · exact Nat.mul_le_mul_left _ (((eraseIdx_sublist _ _).filterMap id).filter _).countP_le
    dsimp only
    omega

/-- **Once everything fits it does for good**: after an evaluation that finds nothing short, in every
    run of completions and cancellations, what the unfinished uploads take from each pool is there,
    and another evaluation would hold none of them. -/
theorem fits_of_unconstrained (q : UploadQuotaManager n) (ts : List QuotaTransfer)
    (es : List QuotaEvent) (h : (wsQuotaEvaluateHolds q ts).1.mUnconstrained = true) :
    let s := es.foldl QuotaEvent.apply (wsQuotaEvaluateHolds q ts)
    (∀ i, load s.1 i s.2 ≤ (s.1.mPools i).remaining) ∧
      ∀ t ∈ s.2, t.completing = false → t.shouldHold s.1 = false := by
  have hrun : ∀ s : UploadQuotaManager n × List QuotaTransfer, Fits s →
      Fits (es.foldl QuotaEvent.apply s) := by
    induction es with
    | nil => exact fun _ hs => hs
    | cons e es ih => exact fun s hs => ih _ (hs.apply e)
  intro s
  have hfits : Fits s := hrun _ (fits_evaluate h)
  refine ⟨hfits, fun t ht hgo => shouldHold_eq_false.2 fun i hi => ?_⟩
  have hle : t.share s.1 i ≤ load s.1 i s.2 :=
    single_le_sum (fun _ _ => Nat.zero_le _) _ (mem_map_of_mem ht)
  have hshare : t.share s.1 i = t.size * t.targetsIn s.1 i := if_neg (by simp [hgo])
  have := Nat.le_mul_of_pos_right t.size (pos_of_ne_zero hi)
  have := hfits i
  omega

/-- Two uploads that take all there is; one completes and the other is cancelled. -/
theorem fits_of_unconstrained_two :
    let q : UploadQuotaManager 1 := { mPools := fun _ => ⟨10, 0⟩, mPoolByFolder := [(1, 0), (2, 0)] }
    let ts : List QuotaTransfer := [⟨3, [some 1, some 2], false, false⟩, ⟨4, [some 1], false, false⟩]
    let s := [QuotaEvent.complete 0, .cancel 1].foldl QuotaEvent.apply (wsQuotaEvaluateHolds q ts)
    load q 0 ts = 10 ∧ (∀ i, load s.1 i s.2 ≤ (s.1.mPools i).remaining) ∧
      ∀ t ∈ s.2, t.completing = false → t.shouldHold s.1 = false :=
  ⟨by decide, fits_of_unconstrained _ _ _ (by decide)⟩

/-! ## 4. One upload -/

/-- **An upload that is left unheld fits on its own, for every balance, exactly if it has at most one
    target in each pool.** -/
theorem unheld_fits_iff (q : UploadQuotaManager n) (ts : List QuotaTransfer) :
    (∀ pools, ∀ t ∈ (wsQuotaEvaluateHolds { q with mPools := pools } ts).2,
      t.completing = false → t.ws_quota_held = false →
      ∀ i, t.size * t.targetsIn q i ≤ (pools i).remaining) ↔
    ∀ t ∈ ts, t.completing = false → t.size = 0 ∨ ∀ i, t.targetsIn q i ≤ 1 := by
  have hc : ∀ (q' : UploadQuotaManager n) (t : QuotaTransfer),
      (t.evaluate q').completing = t.completing ∧ (t.evaluate q').size = t.size ∧
        ∀ i, (t.evaluate q').targetsIn q i = t.targetsIn q i := fun q' t => by
    unfold evaluate
    split <;> exact ⟨rfl, rfl, fun _ => rfl⟩
  constructor
  · intro h t ht hgo
    refine or_iff_not_imp_left.2 fun hsize i => ?_
    -- every pool has just the size of the upload
    have hheld := (held_evaluate hgo).2 (shouldHold_eq_false.2 fun _ _ => le_rfl :
      t.shouldHold { q with mPools := fun _ => ⟨t.size, 0⟩ } = false)
    have hle := h _ _ (mem_map_of_mem ht) ((hc _ t).1.trans hgo) hheld i
    rw [(hc _ t).2.1, (hc _ t).2.2] at hle
    exact Nat.le_of_mul_le_mul_left (hle.trans_eq (Nat.mul_one _).symm) (pos_of_ne_zero hsize)
  intro h pools t ht hgo hheld i
  obtain ⟨u, hu, rfl⟩ := mem_map.1 ht
  obtain ⟨hcomp, hsize, htargets⟩ := hc { q with mPools := pools } u
  have hgo' := hcomp.symm.trans hgo
  have hfit : u.targetsIn q i ≠ 0 → u.size ≤ (pools i).remaining :=
    shouldHold_eq_false.1 ((held_evaluate hgo').1 hheld) i
  rw [hsize, htargets]
  rcases h u hu hgo' with h0 | hone
  · rw [h0, Nat.zero_mul]
    exact Nat.zero_le _
  · rcases Nat.le_one_iff_eq_zero_or_eq_one.1 (hone i) with h0 | h1
    · rw [h0]
      exact Nat.zero_le _
    · rw [h1, Nat.mul_one]
      exact hfit (by omega)

/-- An upload of 6 bytes to two folders of a pool with 10: it is not held. -/
theorem two_targets_not_held :
    let q : UploadQuotaManager 1 := { mPools := fun _ => ⟨10, 0⟩, mPoolByFolder := [(1, 0), (2, 0)] }
    let t : QuotaTransfer := { size := 6, files := [some 1, some 2] }
    (wsQuotaEvaluateHolds q [t]).2 = [t] ∧ t.ws_quota_held = false ∧
      ¬ t.size * t.targetsIn q 0 ≤ (q.mPools 0).remaining := by
  decide

end MegaSdk.Ws
