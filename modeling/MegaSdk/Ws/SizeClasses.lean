/-
  File:      MegaSdk/Ws/SizeClasses.lean
  Subject:   THE POOLS OF THE SIZE CLASSES (ws_pool_mgr.cpp): `WsPoolMgr::applyRefreshedUrls`.

  A file is uploaded by a pool whose range `[mMinFileSize, mMaxFileSize)` holds its size. A refresh
  brings the endpoint and the limit of each class; pools are kept where they match, swapped into
  place, or inserted.

  * `applyRefreshedUrls_front` -- the listed classes stand in front, all other pools are out of use;
  * `lowerBounds` -- where the class of a prior pool that is kept begins: where that pool did;
  * **`applyRefreshedUrls_covers_iff`** -- every size has exactly one pool in use, if and only if the
    classes adjoin with these bounds.
-/
import Mathlib

namespace MegaSdk.Ws

open List Bool

/-! ## 1. Pools -/

/-- What the workers of a pool change. -/
structure PoolWork where
  mNumPoolFiles : Int := 0
  mUploadingFile : Bool := false
  mNumChunksInFlight : Int := 0
  -- of the queue, the connections and the threads only how many there are
  mToResend : Nat := 0
  mConns : Nat := 0
  mActiveThreads : Nat := 0
  mExitingThreads : Nat := 0
  mLastActive : Int
  mLastServerResponse : Int
  mNumberOfConnections : UInt8

/-- `WsPool`, as far as the manager of the pools reads it. -/
structure WsPool extends PoolWork where
  mUrl : List UInt8
  mMinFileSize : Nat
  /-- `0` stands for no limit. -/
  mMaxFileSize : Nat
  mPoolCreationTime : Int
  mPinned : Bool := false
  mRetiring : Bool := false

/-- `for (i = wsHostPrefixLength; …)` of `sameHostMaxSize`: equal up to a common slash. -/
def sameHost : List UInt8 → List UInt8 → Bool
  | a :: as, b :: bs => a == b && (a == '/'.toUInt8 || sameHost as bs)
  | _, _ => false

namespace WsPool

/-- `WsPool::sameHostMaxSize`; the scheme `wss://` is not compared. -/
def sameHostMaxSize (p : WsPool) (c : List UInt8 × Nat) : Bool :=
  p.mMaxFileSize == c.2 && sameHost (p.mUrl.drop 6) (c.1.drop 6)

def poolHasNoWork (p : WsPool) : Bool :=
  p.mNumPoolFiles == 0 && !p.mUploadingFile && p.mNumChunksInFlight == 0 && p.mToResend == 0

def canRetarget (p : WsPool) : Bool :=
  p.poolHasNoWork && p.mConns == 0 && p.mActiveThreads == 0 && p.mExitingThreads == 0

def create (c : List UInt8 × Nat) (minsize : Nat) (now : Int) (numConnections : UInt8) : WsPool where
  mUrl := c.1
  mMinFileSize := minsize
  mMaxFileSize := c.2
  mPoolCreationTime := now
  mLastActive := now
  mLastServerResponse := now
  mNumberOfConnections := if numConnections < 1 then 1 else numConnections

/-- The first loop over the pools keeps this pool for the class. -/
def isExact (c : List UInt8 × Nat) (p : WsPool) : Bool :=
  !p.mPinned && p.mMaxFileSize == c.2 && p.mUrl == c.1

/-- The second loop keeps it, with the endpoint of the class. -/
def isRetargetable (c : List UInt8 × Nat) (p : WsPool) : Bool :=
  !p.mPinned && p.sameHostMaxSize c && p.canRetarget

def sizeClass (p : WsPool) : List UInt8 × Nat := (p.mUrl, p.mMaxFileSize)

def range (p : WsPool) : Nat × Nat := (p.mMinFileSize, p.mMaxFileSize)

def InUse (p : WsPool) : Prop := p.mRetiring = false ∧ p.mPinned = false

end WsPool

/-- The test of `nextEligible`: `size >= min && (!max || size < max)`. -/
def inRange (size : Nat) (r : Nat × Nat) : Bool :=
  r.1 ≤ size && (r.2 == 0 || size < r.2)

def WsPool.serves (size : Nat) (p : WsPool) : Bool :=
  !p.mRetiring && !p.mPinned && inRange size p.range

/-! ## 2. The refresh -/

/-- The loops `for (j = mPools.size(); j-- > 0;)`: the last pool that passes the test. -/
def lastIdx? (test : WsPool → Bool) (ps : List WsPool) : Option Nat :=
  (List.range ps.length).reverse.find? fun j => ps[j]?.any test

/-- Pool `j` is changed by `f`, then `activateMatchedPool(j)`. -/
def activateMatchedPool (i j : Nat) (f : WsPool → WsPool) (ps : List WsPool) : List WsPool :=
  match ps[i]?, ps[j]? with
  | some a, some b => (ps.set j a).set i { f b with mRetiring := false }
  | _, _ => ps

variable (now : Int)

/-- The body of the loop over the classes; `minsize` is the limit of the class before. -/
def refreshClass (base : UInt8) (minsize i : Nat) (c : List UInt8 × Nat)
    (ps : List WsPool) : List WsPool :=
  match lastIdx? (WsPool.isExact c) ps with
  | some j => activateMatchedPool i j (fun p => { p with mPoolCreationTime := now }) ps
  | none =>
    match lastIdx? (WsPool.isRetargetable c) ps with
    | some j =>
      activateMatchedPool i j (fun p => { p with mUrl := c.1, mPoolCreationTime := now }) ps
    | none => ps.insertIdx i (.create c minsize now base)

def refreshClasses (now : Int) (base : UInt8) :
    Nat → Nat → List (List UInt8 × Nat) → List WsPool → List WsPool
  | _, _, [], ps => ps
  | minsize, i, c :: cs, ps =>
    refreshClasses now base c.2 (i + 1) cs (refreshClass now base minsize i c ps)

def bumpAllPools (ps : List WsPool) : List WsPool :=
  ps.map fun p => { p with mLastActive := now, mLastServerResponse := now }

/-- All pools that are not pinned retire. -/
def retire (p : WsPool) : WsPool := if p.mPinned then p else { p with mRetiring := true }

def applyRefreshedUrls (base : UInt8) (apiSizeClasses : List (List UInt8 × Nat))
    (ps : List WsPool) : List WsPool :=
  if apiSizeClasses.isEmpty then ps
  else
    bumpAllPools now <| refreshClasses now base 0 0 apiSizeClasses <|
      ps.map retire

/-! ## 3. The listed classes stand in front -/

/-- Limits grow, and the last class, and no other, is unlimited. -/
def Limits (ls : List Nat) : Prop :=
  ls.Pairwise (fun a b => a ≠ 0 ∧ (b = 0 ∨ a < b)) ∧ ls.getLast? = some 0

/-- The lists a refresh may bring: distinct endpoints, growing limits, the last class unlimited. -/
def SizeClasses (cs : List (List UInt8 × Nat)) : Prop :=
  (cs.map Prod.fst).Nodup ∧ Limits (cs.map Prod.snd)

/-- The prior pools without pool `k`, whose place the first of them takes. -/
def swapOut : List WsPool → Nat → List WsPool
  | [], _ => []
  | a :: old, k => ((a :: old).set k a).tail

/-- The lower bounds of the classes. Of the prior pools that are left, a class keeps the last with
its endpoint and limit, or else the last idle one with its host and limit, and begins where that pool
does. If there is none, it begins at the limit of the class before, `minsize`. -/
def lowerBounds : Nat → List (List UInt8 × Nat) → List WsPool → List Nat
  | _, [], _ => []
  | minsize, c :: cs, old =>
    match (lastIdx? (WsPool.isExact c) old).or (lastIdx? (WsPool.isRetargetable c) old) with
    | none => minsize :: lowerBounds c.2 cs old
    | some k => (old[k]?.elim minsize WsPool.mMinFileSize) :: lowerBounds c.2 cs (swapOut old k)

def OutOfUse (p : WsPool) : Prop := p.mPinned = false → p.mRetiring = true

variable {c : List UInt8 × Nat} {cs : List (List UInt8 × Nat)}
  {front rest ps : List WsPool}
variable (base : UInt8) {rs : List (Nat × Nat)}

theorem lastIdx?_some {test : WsPool → Bool} {j : Nat} (h : lastIdx? test ps = some j) :
    ∃ p, ps[j]? = some p ∧ test p = true := by
  have hj := find?_some h
  exact (Option.any_eq_true _ _).1 hj

/-- If no pool in front passes the test, the last one that does is the last of those behind. -/
theorem lastIdx?_append {test : WsPool → Bool} (hfront : ∀ p ∈ front, test p = false) :
    lastIdx? test (front ++ rest) = (lastIdx? test rest).map (front.length + ·) := by
  have hnone : (List.range front.length).reverse.find?
      (fun j => (front ++ rest)[j]?.any test) = none := by
    refine find?_eq_none.2 fun j hj => ?_
    have hj : j < front.length := by simpa using hj
    simp [getElem?_append_left hj, getElem?_eq_getElem hj, hfront _ (getElem_mem hj)]
  have hbehind : ∀ k, (front ++ rest)[front.length + k]? = rest[k]? := fun k => by
    rw [getElem?_append_right (by omega), Nat.add_sub_cancel_left]
  rw [lastIdx?, length_append, range_add, reverse_append, find?_append, hnone, Option.or_none,
    ← map_reverse, find?_map]
  simp only [Function.comp_def, hbehind]
  rfl

theorem activateMatchedPool_append {k : Nat} {b : WsPool} (f : WsPool → WsPool)
    (hb : rest[k]? = some b) :
    activateMatchedPool front.length (front.length + k) f (front ++ rest) =
        front ++ { f b with mRetiring := false } :: swapOut rest k ∧
      ∀ q ∈ swapOut rest k, q ∈ rest := by
  cases rest with
  | nil => simp at hb
  | cons a rest =>
    refine ⟨?_, fun q hq => ?_⟩
    · have hset : ∀ b', ((a :: rest).set k a).set 0 b' = b' :: swapOut (a :: rest) k := by
        intro b'
        cases k <;> rfl
      have hk : (front ++ a :: rest)[front.length + k]? = some b := by
        rw [getElem?_append_right (by omega), Nat.add_sub_cancel_left, hb]
      simp only [activateMatchedPool, hk, getElem?_append_right, Nat.le_refl, Nat.sub_self,
        getElem?_cons_zero, set_append_right, Nat.le_add_right, Nat.add_sub_cancel_left,
        hset]
    rcases mem_or_eq_of_mem_set (mem_of_mem_tail hq) with h | rfl
    · exact h
    · exact mem_cons_self

theorem insertIdx_append (p : WsPool) :
    (front ++ rest).insertIdx front.length p = front ++ p :: rest := by
  induction front with
  | nil => rfl
  | cons a front ih => simp [ih]

theorem refreshClass_append (minsize : Nat) (cs : List (List UInt8 × Nat))
    (hfront : ∀ p ∈ front, p.mMaxFileSize ≠ c.2) (hrest : ∀ q ∈ rest, OutOfUse q) :
    ∃ p rest', refreshClass now base minsize front.length c (front ++ rest) = front ++ p :: rest' ∧
      p.sizeClass = c ∧ p.InUse ∧ (∀ q ∈ rest', OutOfUse q) ∧
      lowerBounds minsize (c :: cs) rest = p.mMinFileSize :: lowerBounds c.2 cs rest' := by
  have hexact : ∀ p ∈ front, WsPool.isExact c p = false := fun p hp => by
    simp [WsPool.isExact, hfront p hp]
  have hretarget : ∀ p ∈ front, WsPool.isRetargetable c p = false := fun p hp => by
    simp [WsPool.isRetargetable, WsPool.sameHostMaxSize, hfront p hp]
  rw [refreshClass, lastIdx?_append hexact, lastIdx?_append hretarget, lowerBounds]
  cases he : lastIdx? (WsPool.isExact c) rest with
  | some k =>
    obtain ⟨b, hb, ht⟩ := lastIdx?_some he
    obtain ⟨hact, hmem⟩ := activateMatchedPool_append
      (fun p => { p with mPoolCreationTime := now }) hb
    simp only [WsPool.isExact, and_eq_true, not_eq_true', beq_iff_eq] at ht
    exact ⟨_, _, hact, Prod.ext ht.2 ht.1.2, ⟨rfl, ht.1.1⟩, fun q hq => hrest q (hmem q hq),
      by simp [hb]⟩
  | none =>
    cases hr : lastIdx? (WsPool.isRetargetable c) rest with
    | some k =>
      obtain ⟨b, hb, ht⟩ := lastIdx?_some hr
      obtain ⟨hact, hmem⟩ := activateMatchedPool_append
        (fun p => { p with mUrl := c.1, mPoolCreationTime := now }) hb
      simp only [WsPool.isRetargetable, and_eq_true, not_eq_true', WsPool.sameHostMaxSize,
        beq_iff_eq] at ht
      exact ⟨_, _, hact, Prod.ext rfl ht.1.2.1, ⟨rfl, ht.1.1⟩, fun q hq => hrest q (hmem q hq),
        by simp [hb]⟩
    | none => exact ⟨.create c .., rest, insertIdx_append _, rfl, ⟨rfl, rfl⟩, hrest, rfl⟩

theorem refreshClasses_append (minsize : Nat) (hcs : (cs.map Prod.snd).Nodup)
    (hfront : ∀ p ∈ front, ∀ c ∈ cs, p.mMaxFileSize ≠ c.2) (hrest : ∀ q ∈ rest, OutOfUse q) :
    ∃ new rest', refreshClasses now base minsize front.length cs (front ++ rest) =
        front ++ (new ++ rest') ∧ new.map WsPool.sizeClass = cs ∧ (∀ p ∈ new, p.InUse) ∧
      (∀ q ∈ rest', OutOfUse q) ∧ new.map WsPool.mMinFileSize = lowerBounds minsize cs rest := by
  induction cs generalizing front rest minsize with
  | nil => exact ⟨[], rest, rfl, rfl, by simp, hrest, rfl⟩
  | cons c cs ih =>
    obtain ⟨p, rest₁, he, hp, huse, hrest₁, hlow⟩ :=
      refreshClass_append now base minsize cs (fun p hp => hfront p hp c mem_cons_self) hrest
    have hlater : ∀ q ∈ front ++ [p], ∀ c' ∈ cs, q.mMaxFileSize ≠ c'.2 := by
      intro q hq c' hc'
      rcases mem_append.1 hq with hq | hq
      · exact hfront q hq c' (mem_cons_of_mem c hc')
      obtain rfl := mem_singleton.1 hq
      obtain rfl : q.sizeClass = c := hp
      exact fun h => (nodup_cons.1 hcs).1 (mem_map.2 ⟨c', hc', h.symm⟩)
    obtain ⟨new, rest', he', hnew, hin, hout, hlow'⟩ :=
      ih c.2 (nodup_cons.1 hcs).2 hlater hrest₁
    refine ⟨p :: new, rest', ?_, by simp [hp, hnew], by simpa [huse] using hin, hout, ?_⟩
    · simpa [refreshClasses, he] using he'
    · rw [hlow, map_cons, hlow']

theorem isExact_retire : WsPool.isExact c ∘ retire = WsPool.isExact c := by
  funext p
  cases h : p.mPinned <;> simp [retire, WsPool.isExact, h]

theorem isRetargetable_retire : WsPool.isRetargetable c ∘ retire = WsPool.isRetargetable c := by
  funext p
  cases h : p.mPinned <;> simp [retire, WsPool.isRetargetable, h, WsPool.sameHostMaxSize,
    WsPool.canRetarget, WsPool.poolHasNoWork]

/-- Whether a pool is retired makes no difference to what is kept. -/
theorem lowerBounds_retire (minsize : Nat) :
    lowerBounds minsize cs (ps.map retire) = lowerBounds minsize cs ps := by
  have hlast : ∀ test (ps : List WsPool), lastIdx? test (ps.map retire) =
      lastIdx? (test ∘ retire) ps := fun test ps => by
    simp [lastIdx?, Option.any_map, Function.comp_def]
  have hmin : WsPool.mMinFileSize ∘ retire = WsPool.mMinFileSize := by
    funext p
    cases h : p.mPinned <;> simp [retire, h]
  have hswap : ∀ (ps : List WsPool) k, swapOut (ps.map retire) k = (swapOut ps k).map retire := by
    intro ps k
    cases ps with
    | nil => rfl
    | cons a ps => rw [swapOut, map_tail, map_set]; rfl
  induction cs generalizing minsize ps with
  | nil => rfl
  | cons c cs ih =>
    rw [lowerBounds, lowerBounds, hlast, hlast, isExact_retire, isRetargetable_retire]
    split
    · rw [ih]
    · rw [hswap, ih, getElem?_map]
      rw [Option.elim_map, hmin]

/-- The pools after a refresh: those of the listed classes, and then those out of use. -/
theorem applyRefreshedUrls_front (ps) (h : SizeClasses cs) :
    ∃ front rest, applyRefreshedUrls now base cs ps = front ++ rest ∧
      front.map WsPool.sizeClass = cs ∧ (∀ p ∈ front, p.InUse) ∧ (∀ q ∈ rest, OutOfUse q) ∧
      front.map WsPool.mMinFileSize = lowerBounds 0 cs ps := by
  have hne : cs.isEmpty = false := by
    cases cs with
    | nil => exact absurd h.2.2 (by simp)
    | cons => rfl
  have hlimits : (cs.map Prod.snd).Nodup := by
    refine h.2.1.imp ?_
    rintro a b ⟨ha, hb⟩
    omega
  have hretire : ∀ q ∈ ps.map retire, OutOfUse q := by
    intro q hq hpin
    obtain ⟨p, -, rfl⟩ := mem_map.1 hq
    by_cases hp : p.mPinned <;> simp_all [retire]
  have hnone : ∀ p ∈ ([] : List WsPool), ∀ c ∈ cs, p.mMaxFileSize ≠ c.2 := by simp
  obtain ⟨new, rest, he, hnew, hin, hout, hlow⟩ :=
    refreshClasses_append now base 0 hlimits hnone hretire
  refine ⟨bumpAllPools now new, bumpAllPools now rest, ?_, ?_, ?_, ?_, ?_⟩
  · simp_all [applyRefreshedUrls, bumpAllPools]
  · rw [← hnew, bumpAllPools, map_map]
    rfl
  · intro p hp
    obtain ⟨p₀, hp₀, rfl⟩ := mem_map.1 hp
    exact hin p₀ hp₀
  · intro q hq
    obtain ⟨q₀, hq₀, rfl⟩ := mem_map.1 hq
    exact hout q₀ hq₀
  · rw [← lowerBounds_retire, ← hlow, bumpAllPools, map_map]
    rfl

/-! ## 4. The ranges in front -/

/-- Each range begins where the one before ended, an empty one left aside. -/
def adjoin : Nat → List (Nat × Nat) → Bool
  | _, [] => true
  | e, (lo, hi) :: rs => if hi ≠ 0 ∧ hi ≤ lo then adjoin e rs else lo == e && adjoin hi rs

/-- Below the limit of an earlier class, a range reaches up to that limit. -/
theorem countP_inRange_mono {hi s t : Nat} (h : ∀ r ∈ rs, r.2 = 0 ∨ hi < r.2) (hst : s ≤ t)
    (ht : t < hi) : rs.countP (inRange s) ≤ rs.countP (inRange t) := by
  refine countP_mono_left fun r hr hs => ?_
  have := h r hr
  simp only [inRange, and_eq_true, or_eq_true, decide_eq_true_eq, beq_iff_eq] at hs ⊢
  omega

/-- A range that is not empty, in front of ranges with larger limits. -/
theorem countP_inRange_cons_iff {lo hi : Nat} (e : Nat) (hlo : lo < hi)
    (h : ∀ r ∈ rs, r.2 = 0 ∨ hi < r.2) :
    (∀ size, ((lo, hi) :: rs).countP (inRange size) = if e ≤ size then 1 else 0) ↔
      lo = e ∧ ∀ size, rs.countP (inRange size) = if hi ≤ size then 1 else 0 := by
  have hcons : ∀ size, ((lo, hi) :: rs).countP (inRange size) =
      rs.countP (inRange size) + if lo ≤ size ∧ size < hi then 1 else 0 := by
    intro size
    simp [countP_cons, inRange, Nat.ne_of_gt (Nat.zero_lt_of_lt hlo)]
  refine ⟨fun hall => ?_, ?_⟩
  · -- a later range that holds `e` holds `lo` as well, and there it is one too many
    have he : lo = e := by
      have hmono := fun hlt => countP_inRange_mono h (Nat.le_of_lt hlt) hlo (s := e)
      grind
    exact ⟨he, fun size => by have := hall size; grind⟩
  rintro ⟨rfl, hall⟩ size
  grind

/-- **Ranges with growing limits hold each size from `e` on exactly once, and no other size, if and
only if they adjoin.** -/
theorem countP_inRange_iff (h : Limits (rs.map Prod.snd)) (e : Nat) :
    (∀ size, rs.countP (inRange size) = if e ≤ size then 1 else 0) ↔ adjoin e rs = true := by
  induction rs generalizing e with
  | nil => exact absurd h.2 (by simp)
  | cons r rs ih =>
    obtain ⟨lo, hi⟩ := r
    obtain ⟨hpair, hlast⟩ := h
    cases rs with
    | nil =>
      obtain rfl : hi = 0 := by simpa using hlast
      simp only [adjoin, countP_singleton, inRange]
      refine ⟨fun hall => ?_, fun he size => ?_⟩
      · have := hall lo
        have := hall e
        grind
      · grind
    | cons r rs =>
      obtain ⟨hlater, hpair⟩ := pairwise_cons.1 hpair
      replace ih := ih ⟨hpair, by simpa using hlast⟩
      have hhi : hi ≠ 0 := (hlater r.2 (by simp)).1
      by_cases hempty : hi ≤ lo
      · have hskip : ∀ size, inRange size (lo, hi) = false := by
          intro size
          simp only [inRange]
          grind
        have hadj : adjoin e ((lo, hi) :: r :: rs) = adjoin e (r :: rs) := if_pos ⟨hhi, hempty⟩
        rw [hadj, ← ih]
        simp [hskip]
      rw [countP_inRange_cons_iff e (by omega) fun r' hr' =>
        (hlater r'.2 (mem_map_of_mem hr')).2, ih]
      simp [adjoin, hempty]

/-- The listed classes stand in front, in order and in use; all other pools are out of use. -/
def Listed (cs : List (List UInt8 × Nat)) (ps : List WsPool) : Prop :=
  (ps.take cs.length).map WsPool.sizeClass = cs ∧ (∀ p ∈ ps.take cs.length, p.InUse) ∧
    ∀ q ∈ ps.drop cs.length, OutOfUse q

/-- **A refresh puts the listed classes in front, and every size then has exactly one pool in use, if
and only if the classes adjoin, those that keep a prior pool with the lower bound of that pool.** -/
theorem applyRefreshedUrls_covers_iff (base : UInt8) (ps : List WsPool)
    (h : SizeClasses cs) :
    (Listed cs (applyRefreshedUrls now base cs ps) ∧
      ∀ size, (applyRefreshedUrls now base cs ps).countP (WsPool.serves size) = 1) ↔
      adjoin 0 ((lowerBounds 0 cs ps).zip (cs.map Prod.snd)) = true := by
  obtain ⟨front, rest, he, hclasses, hin, hout, hlow⟩ := applyRefreshedUrls_front now base ps h
  have hlen : cs.length = front.length := by rw [← hclasses, length_map]
  have hranges : (lowerBounds 0 cs ps).zip (cs.map Prod.snd) = front.map WsPool.range := by
    rw [← hlow, ← hclasses, map_map, zip_map']
    rfl
  have hlimits : Limits ((front.map WsPool.range).map Prod.snd) := by
    have := h.2
    rw [← hclasses, map_map] at this
    rwa [map_map]
  have hcount : ∀ size, (front ++ rest).countP (WsPool.serves size) =
      (front.map WsPool.range).countP (inRange size) := by
    intro size
    have hrest : rest.countP (WsPool.serves size) = 0 := by
      refine countP_eq_zero.2 fun q hq hs => ?_
      simp only [WsPool.serves, and_eq_true, not_eq_true'] at hs
      exact false_ne_true (hs.1.1.symm.trans (hout q hq hs.1.2))
    rw [countP_append, hrest, countP_map]
    refine countP_congr fun p hp => ?_
    simp [WsPool.serves, (hin p hp).1, (hin p hp).2]
  have hlisted : Listed cs (front ++ rest) := by
    refine ⟨?_, ?_, ?_⟩ <;> simpa [hlen]
  rw [he, hranges, ← countP_inRange_iff hlimits 0]
  simp [hlisted, hcount]

/-- The class of the small files is split in two: the pool of the upper half keeps the lower bound of
the whole, so sizes of the lower half have two pools. -/
theorem split_class_served_twice :
    SizeClasses [([3], 50), ([1], 100), ([2], 0)] ∧
      (applyRefreshedUrls 1 8 [([3], 50), ([1], 100), ([2], 0)]
        (applyRefreshedUrls 0 8 [([1], 100), ([2], 0)] [])).countP (WsPool.serves 10) = 2 := by
  refine ⟨⟨by decide, by decide, rfl⟩, by decide⟩

/-- The limits stay: the pool of the small files is kept, and a new pool begins where it ends. -/
theorem same_limits_covers :
    let ps := applyRefreshedUrls 0 8 [([1], 100), ([2], 0)] []
    SizeClasses [([1], 100), ([3], 0)] ∧ ps.length = 2 ∧
      ∀ size, (applyRefreshedUrls 1 8 [([1], 100), ([3], 0)] ps).countP (WsPool.serves size) = 1 := by
  have h : SizeClasses [([1], 100), ([3], 0)] := ⟨by decide, by decide, rfl⟩
  exact ⟨h, by decide, ((applyRefreshedUrls_covers_iff 1 8 _ h).2 (by decide)).2⟩

end MegaSdk.Ws
