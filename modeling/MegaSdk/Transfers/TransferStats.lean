/-
  File:      MegaSdk/Transfers/TransferStats.lean
  Subject:   THE METRICS OF PAST TRANSFERS (transferstats.cpp).

  A `TransferStats` holds the last transfers. `collectMetrics` sorts the column of their sizes and
  the column of their speeds, each on its own, and averages over the two by index. A `double` has 53
  bits; what a `long double` has is left open (`longDouble`).

  * `pairedSum_iff` -- the columns match the transfers if and only if no larger transfer was slower;
  * **`average_iff`** -- the metrics do not depend on the order of the transfers that are held, and
    each speed is weighted by the size of its own transfer if and only if no larger transfer was
    slower.
-/
import MegaSdk.Base.Rounding

namespace MegaSdk.Stats

open List Base

/-! ## 1. The code -/

structure TransferData where
  mSize : Int
  mSpeed : Int
  mLatency : ℚ := 1
  mFailedRequestRatio : ℚ := 0
  mIsRaided : Bool := false
  /-- In nanoseconds. -/
  mTimestamp : Int := 0

/-- A negative field fails an assertion as well. -/
def TransferData.checkDataStateValidity (t : TransferData) : Bool :=
  0 < t.mSize && 0 < t.mSpeed && 0 < t.mLatency

structure TransferStats where
  mMaxEntries : Nat
  mMaxAgeSeconds : Int
  mTransfersData : List TransferData := []
  mUncollectedAndPrintedTransferData : Nat × Int := (0, 0)

def TransferStats.addTransferData (s : TransferStats) (now : Int) (t : TransferData) :
    TransferStats × Bool :=
  if !t.checkDataStateValidity then (s, false)
  else
    let young := s.mTransfersData.dropWhile fun x =>
      (now - x.mTimestamp).tdiv 1000000000 > s.mMaxAgeSeconds
    let all := young ++ [{ t with mTimestamp := now }]
    ({ s with
      mTransfersData := if all.length > s.mMaxEntries then all.tail else all
      mUncollectedAndPrintedTransferData :=
        (s.mUncollectedAndPrintedTransferData.1 + 1,
          s.mUncollectedAndPrintedTransferData.2 + t.mSize) }, true)

def double : Format := .nearest 53

/-- `std::round` and `std::llround`: a half goes away from zero. -/
def llround (x : ℚ) : Int := if 0 ≤ x then ⌊x + 1 / 2⌋ else -⌊-x + 1 / 2⌋

/-- The two values in the middle are added as `m_off_t`. -/
def calculateMedian (sortedValues : List Int) : Int :=
  let n := sortedValues.length
  if n = 0 then 0
  else if n % 2 = 0 then
    llround (double.rnd
      ((sortedValues.getD (n / 2 - 1) 0 + sortedValues.getD (n / 2) 0).bmod (2 ^ 64)) / 2)
  else sortedValues.getD (n / 2) 0

section

variable (longDouble : Format)

/-- `weightedSum` and `totalWeight`. -/
def weightedSums (values weights : List Int) : ℚ × ℚ :=
  (zip values weights).foldl (fun s x =>
    (longDouble.rnd (s.1 + longDouble.rnd (longDouble.rnd x.1 * longDouble.rnd x.2)),
      longDouble.rnd (s.2 + longDouble.rnd x.2))) (0, 0)

def weightedAverage (values weights : List Int) : ℚ :=
  let s := weightedSums longDouble values weights
  longDouble.rnd (s.1 / s.2)

/-- What does not fit an `m_off_t` is clamped. -/
def toOff (average : ℚ) : Int :=
  llround (max (longDouble.rnd (-2 ^ 63)) (min average (longDouble.rnd (2 ^ 63 - 1))))

def calculateWeightedAverage (values weights : List Int) : Int :=
  if values.length ≠ weights.length then 0
  else
    let s := weightedSums longDouble values weights
    if s.1 = 0 ∨ s.2 = 0 then 0 else toOff longDouble (weightedAverage longDouble values weights)

inductive Direction
  | get
  | put
deriving DecidableEq

structure Metrics where
  mTransferType : Direction := .get
  mNumTransfers : Nat := 0
  mMedianSize : Int := 0
  mContraharmonicMeanSize : Int := 0
  mMedianSpeed : Int := 0
  mWeightedAverageSpeed : Int := 0
  mMaxSpeed : Int := 0
  mAvgLatency : Int := 0
  mFailedRequestRatio : ℚ := 0
  mRaidedTransferRatio : ℚ := 0
deriving DecidableEq

/-- With two decimals. -/
def ratio (total n : ℚ) : ℚ :=
  double.rnd (llround (double.rnd (double.rnd (total / n) * 100)) / 100)

def sizes (l : List TransferData) : List Int := (l.map (·.mSize)).insertionSort (· ≤ ·)

def speeds (l : List TransferData) : List Int := (l.map (·.mSpeed)).insertionSort (· ≤ ·)

def TransferStats.collectMetrics (s : TransferStats) (type : Direction) : Metrics :=
  let l := s.mTransfersData
  if l.isEmpty then {}
  else
    let n := double.rnd l.length
    { mTransferType := type
      mNumTransfers := l.length
      mMedianSize := calculateMedian (sizes l)
      mContraharmonicMeanSize := calculateWeightedAverage longDouble (sizes l) (sizes l)
      mMedianSpeed := calculateMedian (speeds l)
      mWeightedAverageSpeed := calculateWeightedAverage longDouble (speeds l) (sizes l)
      mMaxSpeed := (speeds l).getLastD 0
      mAvgLatency :=
        llround (double.rnd (l.foldl (fun total t => double.rnd (total + t.mLatency)) 0 / n))
      mFailedRequestRatio :=
        ratio (l.foldl (fun total t => double.rnd (total + t.mFailedRequestRatio)) 0) n
      mRaidedTransferRatio :=
        if type = .get then ratio (double.rnd (l.countP (·.mIsRaided))) n else 0 }

end

/-! ## 2. What is held -/

/-- The transfers are added to empty statistics, each at its time. -/
def run (maxEntries : Nat) (maxAgeSeconds : Int) (adds : List (Int × TransferData)) :
    TransferStats :=
  adds.foldl (fun s a => (s.addTransferData a.1 a.2).1)
    { mMaxEntries := maxEntries, mMaxAgeSeconds := maxAgeSeconds }

def stamp (a : Int × TransferData) : TransferData := { a.2 with mTimestamp := a.1 }

/-- No transfer is dropped: all are valid, they are not too many, and none is too old when another is
added. -/
structure Keeps (maxEntries : Nat) (maxAgeSeconds : Int) (adds : List (Int × TransferData)) :
    Prop where
  valid : ∀ a ∈ adds, a.2.checkDataStateValidity = true
  length_le : adds.length ≤ maxEntries
  young : ∀ a ∈ adds, ∀ b ∈ adds, (b.1 - a.1).tdiv 1000000000 ≤ maxAgeSeconds

section

variable {maxEntries : Nat} {maxAgeSeconds : Int}

theorem run_append (adds) (a : Int × TransferData) :
    run maxEntries maxAgeSeconds (adds ++ [a]) =
      ((run maxEntries maxAgeSeconds adds).addTransferData a.1 a.2).1 := by
  simp [run]

theorem run_limits (adds) : (run maxEntries maxAgeSeconds adds).mMaxEntries = maxEntries ∧
    (run maxEntries maxAgeSeconds adds).mMaxAgeSeconds = maxAgeSeconds := by
  induction adds using reverseRecOn with
  | nil => exact ⟨rfl, rfl⟩
  | append_singleton adds a ih =>
    rw [run_append, TransferStats.addTransferData]
    split <;> exact ih

theorem valid_of_run (adds) : ∀ t ∈ (run maxEntries maxAgeSeconds adds).mTransfersData,
    t.checkDataStateValidity = true := by
  induction adds using reverseRecOn with
  | nil => simp [run]
  | append_singleton adds a ih =>
    rw [run_append, TransferStats.addTransferData]
    split
    · exact ih
    rename_i hv
    have hvalid : a.2.checkDataStateValidity = true := by simpa using hv
    have hall : ∀ {p : TransferData → Bool}, ∀ t ∈ dropWhile p
        (run maxEntries maxAgeSeconds adds).mTransfersData ++ [stamp a],
        t.checkDataStateValidity = true := by
      intro p t ht
      rcases mem_append.1 ht with h | h
      · exact ih t ((dropWhile_sublist _).subset h)
      · rw [mem_singleton.1 h]
        exact hvalid
    intro t ht
    dsimp only at ht
    split at ht
    · exact hall t (mem_of_mem_tail ht)
    · exact hall t ht

theorem run_keeps {adds} (h : Keeps maxEntries maxAgeSeconds adds) :
    (run maxEntries maxAgeSeconds adds).mTransfersData = adds.map stamp := by
  induction adds using reverseRecOn with
  | nil => rfl
  | append_singleton adds a ih =>
    have hlen := h.length_le
    rw [length_append, length_singleton] at hlen
    replace ih := ih ⟨fun b hb => h.valid b (by simp [hb]), by omega,
      fun b hb c hc => h.young b (by simp [hb]) c (by simp [hc])⟩
    obtain ⟨hmax, hage⟩ := @run_limits maxEntries maxAgeSeconds adds
    have hyoung : (adds.map stamp).dropWhile
        (fun x => decide ((a.1 - x.mTimestamp).tdiv 1000000000 > maxAgeSeconds)) = adds.map stamp := by
      refine dropWhile_eq_self_iff.2 fun hpos => ?_
      obtain ⟨b, hb, he⟩ := mem_map.1 (getElem_mem hpos)
      rw [← he, decide_eq_true_eq, not_lt]
      exact h.young b (by simp [hb]) a (by simp)
    rw [run_append, TransferStats.addTransferData, if_neg (by simp [h.valid a (by simp)])]
    simp only [ih, hmax, hage, hyoung, length_append, length_map, length_singleton]
    rw [if_neg (by omega), map_append]
    rfl

end

/-! ## 3. The columns -/

/-- No larger transfer was slower. -/
def SameOrder (l : List TransferData) : Prop :=
  ∀ a ∈ l, ∀ b ∈ l, a.mSize < b.mSize → a.mSpeed ≤ b.mSpeed

/-- The sum of the products of the sorted columns. -/
def pairedSum (l : List TransferData) : Int := (zipWith (· * ·) (speeds l) (sizes l)).sum

/-- The sum of the products of the transfers' own speeds and sizes. -/
def ownSum (l : List TransferData) : Int := (l.map fun t => t.mSpeed * t.mSize).sum

/-- The mean of the speeds, each weighted by the size of its own transfer. -/
def weightedMean (l : List TransferData) : ℚ := ownSum l / (l.map (·.mSize)).sum

variable {l l' : List TransferData}

theorem insertionSort_eq {l l' : List Int} (h : l.Perm l') (hs : l'.Pairwise (· ≤ ·)) :
    l.insertionSort (· ≤ ·) = l' :=
  ((perm_insertionSort _ l).trans h).eq_of_pairwise' (pairwise_insertionSort _ l) hs

theorem insertionSort_perm {l l' : List Int} (h : l.Perm l') :
    l.insertionSort (· ≤ ·) = l'.insertionSort (· ≤ ·) :=
  insertionSort_eq (h.trans (perm_insertionSort _ _).symm) (pairwise_insertionSort _ _)

theorem insertionSort_ofFn {n : Nat} (f : Fin n → Int) :
    (ofFn f).insertionSort (· ≤ ·) = ofFn (f ∘ Tuple.sort f) :=
  insertionSort_eq (Equiv.Perm.ofFn_comp_perm _ f).symm
    (pairwise_ofFn.2 fun _ _ h => Tuple.monotone_sort f h.le)

/-- **The products of the sorted columns have the largest sum**, and it is that of the transfers' own
products if and only if no larger transfer was slower. -/
theorem pairedSum_iff (l : List TransferData) :
    ownSum l ≤ pairedSum l ∧ (ownSum l = pairedSum l ↔ SameOrder l) := by
  have hcol (c : TransferData → Int) : l.map c = ofFn fun i => c (l.get i) := by
    conv_lhs => rw [← ofFn_get l, map_ofFn]
    rfl
  set f : Fin l.length → Int := fun i => (l.get i).mSpeed with hf
  set g : Fin l.length → Int := fun i => (l.get i).mSize with hg
  have hpaired : pairedSum l = ∑ i, (f ∘ Tuple.sort f) i * (g ∘ Tuple.sort g) i := by
    rw [pairedSum, speeds, sizes, hcol, hcol, ← hf, ← hg, insertionSort_ofFn, insertionSort_ofFn,
      ← sum_ofFn]
    congr 1
    exact ext_getElem (by simp) (by simp)
  -- the transfers in the order of their speeds have the column of the sizes permuted
  let σ : Equiv.Perm (Fin l.length) := (Tuple.sort f).trans (Tuple.sort g).symm
  have hg' : (g ∘ Tuple.sort g) ∘ σ = g ∘ Tuple.sort f := by
    funext i
    simp [σ]
  have hown : ownSum l = ∑ i, (f ∘ Tuple.sort f) i * (g ∘ Tuple.sort g) (σ i) := by
    rw [ownSum, hcol, sum_ofFn, ← Equiv.sum_comp (Tuple.sort f)]
    exact Finset.sum_congr rfl fun i _ => congrArg (f (Tuple.sort f i) * ·) (congrFun hg' i).symm
  have hmono : Monovary (f ∘ Tuple.sort f) (g ∘ Tuple.sort g) :=
    (Tuple.monotone_sort f).monovary (Tuple.monotone_sort g)
  rw [hown, hpaired]
  refine ⟨hmono.sum_mul_comp_perm_le_sum_mul, hmono.sum_mul_comp_perm_eq_sum_mul_iff.trans ?_⟩
  rw [hg']
  constructor
  · intro h a ha b hb hab
    obtain ⟨i, rfl⟩ := get_of_mem ha
    obtain ⟨j, rfl⟩ := get_of_mem hb
    have hij := @h ((Tuple.sort f).symm i) ((Tuple.sort f).symm j)
    simp only [Function.comp_apply, Equiv.apply_symm_apply] at hij
    exact hij hab
  · intro h i j hij
    exact h _ (get_mem l _) _ (get_mem l _) hij

/-! ## 4. The average -/

section

variable (longDouble : Format)

theorem mWeightedAverageSpeed_eq (s : TransferStats) (type) :
    (s.collectMetrics longDouble type).mWeightedAverageSpeed =
      calculateWeightedAverage longDouble (speeds s.mTransfersData) (sizes s.mTransfersData) := by
  unfold TransferStats.collectMetrics
  cases s.mTransfersData with
  | nil => simp [calculateWeightedAverage, weightedSums, speeds, sizes]
  | cons => rfl

/-- **Sums that fit are exact.** -/
theorem foldl_weightedSums {z : List (Int × Int)} (hz : ∀ x ∈ z, 0 < x.1 ∧ 0 < x.2) {a b : Int}
    (ha : 0 ≤ a) (hb : 0 ≤ b) (hfit : a + (z.map fun x => x.1 * x.2).sum < 2 ^ longDouble.prec)
    (hfit' : b + (z.map (·.2)).sum < 2 ^ longDouble.prec) :
    z.foldl (fun s x =>
      (longDouble.rnd (s.1 + longDouble.rnd (longDouble.rnd x.1 * longDouble.rnd x.2)),
        longDouble.rnd (s.2 + longDouble.rnd x.2))) ((a : ℚ), (b : ℚ)) =
      (((a + (z.map fun x => x.1 * x.2).sum : Int) : ℚ), ((b + (z.map (·.2)).sum : Int) : ℚ)) := by
  have hrnd {n : Int} (h0 : 0 ≤ n) (h : n < 2 ^ longDouble.prec) : longDouble.rnd n = n :=
    longDouble.rnd_intCast (by rwa [abs_of_nonneg h0])
  induction z generalizing a b with
  | nil => simp
  | cons x z ih =>
    obtain ⟨⟨hv, hw⟩, hz⟩ := forall_mem_cons.1 hz
    have hsum : 0 ≤ (z.map fun x => x.1 * x.2).sum :=
      sum_nonneg fun n hn => by
        obtain ⟨y, hy, rfl⟩ := mem_map.1 hn
        exact (mul_pos (hz y hy).1 (hz y hy).2).le
    have hsum' : 0 ≤ (z.map (·.2)).sum :=
      sum_nonneg fun n hn => by
        obtain ⟨y, hy, rfl⟩ := mem_map.1 hn
        exact (hz y hy).2.le
    rw [map_cons, sum_cons] at hfit hfit'
    have hprod : x.1 ≤ x.1 * x.2 ∧ x.2 ≤ x.1 * x.2 := ⟨by nlinarith, by nlinarith⟩
    have hstep : longDouble.rnd (a + longDouble.rnd (longDouble.rnd x.1 * longDouble.rnd x.2)) =
        (a + x.1 * x.2 : Int) := by
      rw [hrnd hv.le (by omega), hrnd hw.le (by omega), ← Int.cast_mul, hrnd (by omega) (by omega),
        ← Int.cast_add, hrnd (by omega) (by omega)]
    have hstep' : longDouble.rnd (b + longDouble.rnd x.2) = (b + x.2 : Int) := by
      rw [hrnd hw.le (by omega), ← Int.cast_add, hrnd (by omega) (by omega)]
    rw [foldl_cons]
    simp only [hstep, hstep']
    rw [ih hz (by omega) (by omega) (by omega) (by omega)]
    simp only [map_cons, sum_cons, add_assoc]

theorem pos_of_valid {t : TransferData} (h : t.checkDataStateValidity = true) :
    0 < t.mSize ∧ 0 < t.mSpeed := by
  simp only [TransferData.checkDataStateValidity, Bool.and_eq_true, decide_eq_true_eq] at h
  exact h.1

theorem weightedSums_columns (hv : ∀ t ∈ l, t.checkDataStateValidity = true)
    (hfit : pairedSum l < 2 ^ longDouble.prec) :
    weightedSums longDouble (speeds l) (sizes l) =
      (((pairedSum l : Int) : ℚ), (((l.map (·.mSize)).sum : Int) : ℚ)) ∧
    (l ≠ [] → 0 < (l.map (·.mSize)).sum) ∧ (l.map (·.mSize)).sum ≤ pairedSum l := by
  have hlen : (speeds l).length = (sizes l).length := by simp [speeds, sizes]
  have hmem {c : TransferData → Int} {n : Int} (hn : n ∈ (l.map c).insertionSort (· ≤ ·)) :
      ∃ t ∈ l, c t = n := mem_map.1 ((mem_insertionSort _).1 hn)
  have hz : ∀ x ∈ zip (speeds l) (sizes l), 0 < x.1 ∧ 0 < x.2 := fun x hx => by
    obtain ⟨t, ht, he⟩ := hmem (of_mem_zip hx).1
    obtain ⟨u, hu, he'⟩ := hmem (of_mem_zip hx).2
    exact ⟨he ▸ (pos_of_valid (hv t ht)).2, he' ▸ (pos_of_valid (hv u hu)).1⟩
  have hsum : ((zip (speeds l) (sizes l)).map fun x => x.1 * x.2).sum = pairedSum l := by
    rw [pairedSum, ← map_uncurry_zip_eq_zipWith]
    rfl
  have hsum' : ((zip (speeds l) (sizes l)).map (·.2)).sum = (l.map (·.mSize)).sum := by
    rw [map_snd_zip hlen.ge]
    exact (perm_insertionSort _ _).sum_eq
  have hle : (l.map (·.mSize)).sum ≤ pairedSum l := by
    rw [← hsum, ← hsum']
    exact sum_le_sum fun x hx => le_mul_of_one_le_left (hz x hx).2.le (hz x hx).1
  refine ⟨?_, fun hne => sum_pos _ (fun n hn => ?_) (by simpa), hle⟩
  · have h := foldl_weightedSums longDouble hz le_rfl le_rfl (by rw [hsum]; omega)
      (by rw [hsum']; omega)
    rw [hsum, hsum', zero_add, zero_add] at h
    exact h
  · obtain ⟨t, ht, rfl⟩ := mem_map.1 hn
    exact (pos_of_valid (hv t ht)).1

end

/-- **The average speed depends on the sizes and speeds of the transfers that are held, and not on
their order. If the sums fit, the `long double` that is rounded to it is the one of the mean of the
speeds, each weighted by the size of its own transfer, if and only if no larger transfer was slower.**
What is held is all that was added, if none of it was dropped. -/
theorem average_iff (longDouble : Format) (maxEntries : Nat) (maxAgeSeconds : Int)
    (adds : List (Int × TransferData)) :
    let s := run maxEntries maxAgeSeconds adds
    let l := s.mTransfersData
    (Keeps maxEntries maxAgeSeconds adds → l = adds.map stamp) ∧
    (∀ (s' : TransferStats) type, (s'.mTransfersData.map fun t => (t.mSize, t.mSpeed)).Perm
        (l.map fun t => (t.mSize, t.mSpeed)) →
      (s'.collectMetrics longDouble type).mWeightedAverageSpeed =
        (s.collectMetrics longDouble type).mWeightedAverageSpeed) ∧
    (l ≠ [] → 2 * pairedSum l < 2 ^ longDouble.prec →
      (∀ type, (s.collectMetrics longDouble type).mWeightedAverageSpeed =
        toOff longDouble (weightedAverage longDouble (speeds l) (sizes l))) ∧
      (weightedAverage longDouble (speeds l) (sizes l) = longDouble.rnd (weightedMean l) ↔
        SameOrder l)) := by
  intro s l
  have hv : ∀ t ∈ l, t.checkDataStateValidity = true := valid_of_run adds
  refine ⟨run_keeps, fun s' type hperm => ?_, fun hne hfit => ?_⟩
  · have hcol (c : Int × Int → Int) := insertionSort_perm (hperm.map c)
    simp only [map_map] at hcol
    rw [mWeightedAverageSpeed_eq, mWeightedAverageSpeed_eq]
    exact congrArg₂ _ (hcol Prod.snd) (hcol Prod.fst)
  obtain ⟨hown, hiff⟩ := pairedSum_iff l
  have hown0 : 0 ≤ ownSum l := sum_nonneg fun n hn => by
    obtain ⟨t, ht, rfl⟩ := mem_map.1 hn
    obtain ⟨hs, hp⟩ := pos_of_valid (hv t ht)
    positivity
  obtain ⟨hsums, hpos, hle⟩ := weightedSums_columns longDouble hv (by omega)
  replace hpos := hpos hne
  refine ⟨fun type => ?_, ?_⟩
  · have hlen : (speeds l).length = (sizes l).length := by simp [speeds, sizes]
    rw [mWeightedAverageSpeed_eq, calculateWeightedAverage, if_neg (not_not.2 hlen), hsums]
    have hsum : (pairedSum l : ℚ) ≠ 0 := by exact_mod_cast (by omega : pairedSum l ≠ 0)
    have htotal : (((l.map (·.mSize)).sum : Int) : ℚ) ≠ 0 := by exact_mod_cast hpos.ne'
    exact if_neg (not_or.2 ⟨hsum, htotal⟩)
  · rw [weightedAverage, hsums, weightedMean, ← hiff]
    refine ⟨fun h => ?_, fun h => by rw [h]⟩
    exact longDouble.rnd_div_injective hpos hown0 (by omega) (by omega) h.symm

/-- A large slow transfer and a small fast one: the mean is 1, and 10 is returned. -/
theorem average_of_opposite :
    let s := run 50 3600 [(0, { mSize := 99, mSpeed := 1 }), (5, { mSize := 1, mSpeed := 10 })]
    (s.collectMetrics (.nearest 64) .put).mWeightedAverageSpeed = 10 ∧
      toOff (.nearest 64) (weightedMean s.mTransfersData) = 1 := by
  decide +kernel

end MegaSdk.Stats
