/-
  File:      MegaSdk/FileService/AvlBalance.lean
  Subject:   WHAT THE UPWARD PASS RESTORES, one lemma per function of AvlTree.lean.

  * `Sound tr h par t` -- in the memory `h` the tree `t` hangs below `par`: child and parent
    pointers mirror one another, heights and metadata are those of the subtrees;
  * `update_sound`, `rotate_sound`, `rebalanceNode_sound`, `maybeRebalance_sound` -- a node over
    two sound subtrees whose heights differ by at most two becomes a sound balanced tree with the
    same nodes in the same order;
  * `Around` -- the memory along the way up from a hole whose subtree had height `k`;
  * `rebalance_sound` -- **the upward pass** turns a stale node below such a way into a sound
    balanced tree.
-/
import MegaSdk.FileService.AvlTree

namespace MegaSdk.FileService.AVLTree

open Base Base.BinTree Base.Zipper List Option

variable {K V M : Type} (tr : Traits K V M) {h h' h'' : Memory V M}
variable {p par q : Option Addr} {s t z : BinTree Addr} {d : Bool} {a b c : Addr}

/-! ## 1. Trees in memory -/

/-- The node `b` has the same members in both memories. -/
structure SameAt (h h' : Memory V M) (b : Addr) : Prop where
  child : h'.child b = h.child b
  parent : h'.parent b = h.parent b
  height : h'.height b = h.height b
  metadata : h'.metadata b = h.metadata b
  value : h'.value b = h.value b

/-- The pointers of the node `a`: below `par`, with `s` on its side `d` and `t` on the other. -/
structure Joined (h : Memory V M) (par : Option Addr) (d : Bool) (s : Option Addr) (a : Addr)
    (t : Option Addr) : Prop where
  here : h.child a d = s
  there : h.child a (!d) = t
  parent : h.parent a = par

/-- What `update` computes for the node `a` is what it carries, and its height is `k`. -/
structure Fresh (h : Memory V M) (a : Addr) (k : Nat) : Prop where
  height : (h.height a).toNat = k
  metadata : h.metadata a =
    tr.update (h.value a) (h.carried (h.child a false)) (h.carried (h.child a true))

/-- The tree `t` is in memory below `par`. -/
def Sound (h : Memory V M) : Option Addr → BinTree Addr → Prop
  | _, .nil => True
  | par, .node l a r => Joined h par false l.root a r.root ∧
      Fresh tr h a (max l.height r.height + 1) ∧ Sound h (some a) l ∧ Sound h (some a) r

theorem Joined.swap {s t : Option Addr} (hj : Joined h par d s a t) : Joined h par (!d) t a s :=
  ⟨hj.there, by rw [Bool.not_not]; exact hj.here, hj.parent⟩

theorem joined_swap {s t : Option Addr} : Joined h par (!d) t a s ↔ Joined h par d s a t := by
  refine ⟨fun hj => ?_, Joined.swap⟩
  have hs := hj.swap
  rwa [Bool.not_not] at hs

theorem sound_fork :
    Sound tr h par (fork d s a t) ↔ Joined h par d s.root a t.root ∧
      Fresh tr h a (max s.height t.height + 1) ∧ Sound tr h (some a) s ∧
      Sound tr h (some a) t := by
  cases d with
  | false => rfl
  | true =>
    have hj : Joined h par false t.root a s.root ↔ Joined h par true s.root a t.root :=
      joined_swap (d := true)
    simp only [fork, Sound, max_comm t.height]
    tauto

/-! ## 2. Frames -/

theorem SameAt.trans (h1 : SameAt h h' b) (h2 : SameAt h' h'' b) : SameAt h h'' b where
  child := h2.child.trans h1.child
  parent := h2.parent.trans h1.parent
  height := h2.height.trans h1.height
  metadata := h2.metadata.trans h1.metadata
  value := h2.value.trans h1.value

theorem carried_congr (hp : ∀ b, p = some b → SameAt h h' b) : h'.carried p = h.carried p := by
  cases p with
  | none => rfl
  | some b =>
    have hb := hp b rfl
    simp [Memory.carried, hb.value, hb.metadata]

theorem Joined.congr {s t : Option Addr} (ha : SameAt h h' a) (hj : Joined h par d s a t) :
    Joined h' par d s a t :=
  ⟨by rw [ha.child, hj.here], by rw [ha.child, hj.there], by rw [ha.parent, hj.parent]⟩

theorem Sound.congr : ∀ {t : BinTree Addr} {par : Option Addr}, (∀ b ∈ t.toList, SameAt h h' b) →
    Sound tr h par t → Sound tr h' par t
  | .nil, _, _, _ => trivial
  | .node l a r, par, hs, ⟨hj, hf, hl, hr⟩ => by
      have hsl : ∀ b ∈ l.toList, SameAt h h' b := fun b hb =>
        hs b (mem_append_left _ hb)
      have hsr : ∀ b ∈ r.toList, SameAt h h' b := fun b hb =>
        hs b (mem_append_right _ (mem_cons_of_mem _ hb))
      have ha : SameAt h h' a := hs a (mem_append_right _ (mem_cons_self ..))
      refine ⟨hj.congr ha, ⟨by rw [ha.height, hf.height], ?_⟩, Sound.congr hsl hl, Sound.congr hsr hr⟩
      have el := carried_congr fun b hb => hsl b (root_mem hb)
      have er := carried_congr fun b hb => hsr b (root_mem hb)
      have hl' : h.child a false = l.root := hj.here
      have hr' : h.child a true = r.root := hj.there
      rw [ha.metadata, ha.value, ha.child, hf.metadata, hl', hr', el, er]

/-- Only members of the nodes `S` change, and no value does. -/
structure Confined (S : List Addr) (h h' : Memory V M) : Prop where
  outside : ∀ b, b ∉ S → SameAt h h' b
  value : ∀ b, h'.value b = h.value b

namespace Confined

variable {S : List Addr}

theorem trans (h1 : Confined S h h') (h2 : Confined S h' h'') : Confined S h h'' :=
  ⟨fun b hb => (h1.outside b hb).trans (h2.outside b hb), fun b => (h2.value b).trans (h1.value b)⟩

theorem mono {S' : List Addr} (h1 : Confined S h h') (hs : ∀ b ∈ S, b ∈ S') : Confined S' h h' :=
  ⟨fun b hb => h1.outside b fun hm => hb (hs b hm), h1.value⟩

theorem setParent (ha : a ∈ S) (p) : Confined S h (h.setParent a p) where
  outside b hb :=
    have hne : b ≠ a := fun e => hb (e ▸ ha)
    ⟨rfl, if_neg hne, rfl, rfl, rfl⟩
  value _ := rfl

theorem setChild (ha : a ∈ S) (d) (p) :
    Confined S h (h.setChild a d p) where
  outside b hb :=
    have hne : b ≠ a := fun e => hb (e ▸ ha)
    ⟨funext fun _ => if_neg fun e => hne e.1, rfl, rfl, rfl, rfl⟩
  value _ := rfl

theorem adopt (hp : ∀ a, p = some a → a ∈ S) (q) : Confined S h (h.adopt p q) := by
  cases p with
  | none => exact ⟨fun _ _ => ⟨rfl, rfl, rfl, rfl, rfl⟩, fun _ => rfl⟩
  | some a => exact setParent (hp a rfl) q

theorem update (ha : a ∈ S) : Confined S h (update tr h a) where
  outside b hb :=
    have hne : b ≠ a := fun e => hb (e ▸ ha)
    ⟨rfl, rfl, if_neg hne, if_neg hne, rfl⟩
  value _ := rfl

theorem sound (h1 : Confined S h h') (hd : ∀ b ∈ t.toList, b ∉ S) (hs : Sound tr h par t) :
    Sound tr h' par t :=
  hs.congr tr fun b hb => h1.outside b (hd b hb)

theorem sound_one (h1 : Confined [a] h h') (ha : a ∉ t.toList) (hs : Sound tr h par t) :
    Sound tr h' par t :=
  h1.sound tr (fun _ hb e => ha (mem_singleton.1 e ▸ hb)) hs

end Confined

theorem Sound.adopt (q) : ∀ {t : BinTree Addr}, t.toList.Nodup →
    Sound tr h par t → Sound tr (h.adopt t.root q) q t
  | .nil, _, _ => trivial
  | .node l a r, hn, ⟨hj, hf, hl, hr⟩ => by
      have hc : Confined [a] h (h.setParent a q) := .setParent (mem_singleton_self a) q
      obtain ⟨hal, har, -, -, -⟩ := (nodup_fork false l r a).1 hn
      exact ⟨⟨hj.here, hj.there, if_pos rfl⟩, ⟨hf.height, hf.metadata⟩, hc.sound_one tr hal hl,
        hc.sound_one tr har hr⟩

/-! ## 3. One node -/

def Memory.heightOf (h : Memory V M) : Option Addr → Nat
  | some a => (h.height a).toNat
  | none => 0

theorem Sound.heightOf : ∀ {t : BinTree Addr}, Sound tr h par t →
    h.heightOf t.root = t.height
  | .nil, _ => rfl
  | .node _ _ _, hs => hs.2.1.height

theorem Joined.ends {s t : Option Addr} (hj : Joined h par d s a t) :
    h.child a false = (bif d then t else s) ∧ h.child a true = (bif d then s else t) := by
  cases d
  · exact ⟨hj.here, hj.there⟩
  · exact ⟨hj.there, hj.here⟩

/-- Which child pointer designates `a` is told by the left one. -/
theorem Joined.side_eq {t : Option Addr} (hj : Joined h par d (some a) c t) (ht : t ≠ some a) :
    decide (h.child c false ≠ some a) = d := by
  rw [hj.ends.1]
  cases d
  · simp
  · simpa using ht

theorem balance_sound (hj : Joined h par d s.root a t.root) (hs : Sound tr h (some a) s)
    (ht : Sound tr h (some a) t) (h1 : s.height ≤ t.height + 2) (h2 : t.height ≤ s.height + 2) :
    balance h a = some (bif d then (s.height : Int) - t.height else (t.height : Int) - s.height) := by
  have hb : balance h a =
      let b := (h.heightOf (h.child a true) : Int) - h.heightOf (h.child a false)
      if b.natAbs < 3 then some b else none := by
    unfold balance Memory.heightOf
    cases h.child a true <;> cases h.child a false <;> simp
  obtain ⟨hl, hr⟩ := hj.ends
  rw [hb, hl, hr]
  cases d
  · simp only [cond_false, hs.heightOf, ht.heightOf]
    rw [if_pos (by omega)]
  · simp only [cond_true, hs.heightOf, ht.heightOf]
    rw [if_pos (by omega)]

theorem update_height (a)
    (hb : max (h.heightOf (h.child a false)) (h.heightOf (h.child a true)) < 255) :
    ((update tr h a).height a).toNat =
      max (h.heightOf (h.child a false)) (h.heightOf (h.child a true)) + 1 := by
  unfold update Memory.heightOf at *
  cases hl : h.child a false <;> cases hr : h.child a true <;>
    simp only [hl, hr, if_true, UInt8.lt_iff_toNat_lt] at hb ⊢
  · rfl
  all_goals try split
  all_goals
    simp only [UInt8.toNat_add, UInt8.toNat_one, UInt8.toNat_zero] at *
    omega

theorem update_sound (hj : Joined h par d s.root a t.root) (hs : Sound tr h (some a) s)
    (ht : Sound tr h (some a) t) (hb : max s.height t.height < 255) (has : a ∉ s.toList)
    (hat : a ∉ t.toList) : Sound tr (update tr h a) par (fork d s a t) := by
  have hc : Confined [a] h (update tr h a) := .update tr (mem_singleton_self a)
  have hcarry : ∀ {u : BinTree Addr}, a ∉ u.toList →
      (update tr h a).carried u.root = h.carried u.root :=
    fun hu => carried_congr fun b hb => hc.outside b fun e => hu (mem_singleton.1 e ▸ root_mem hb)
  have hmax : max (h.heightOf (h.child a false)) (h.heightOf (h.child a true)) =
      max s.height t.height := by
    obtain ⟨hl, hr⟩ := hj.ends
    rw [hl, hr]
    cases d
    · simp only [cond_false, hs.heightOf, ht.heightOf]
    · simp only [cond_true, hs.heightOf, ht.heightOf, max_comm]
  have hm : (update tr h a).metadata a =
      tr.update (h.value a) (h.carried (h.child a false)) (h.carried (h.child a true)) := if_pos rfl
  refine (sound_fork tr).2 ⟨{ hj with }, ⟨?_, ?_⟩, hc.sound_one tr has hs,
    hc.sound_one tr hat ht⟩
  · rw [update_height tr a (by omega), hmax]
  obtain ⟨hl, hr⟩ := hj.ends
  show (update tr h a).metadata a = tr.update (h.value a)
    ((update tr h a).carried (h.child a false)) ((update tr h a).carried (h.child a true))
  rw [hm, hl, hr]
  cases d
  · simp only [cond_false, hcarry has, hcarry hat]
  · simp only [cond_true, hcarry has, hcarry hat]

/-! ## 4. Rotations -/

@[simp] theorem adopt_child (p q) : (h.adopt p q).child = h.child := by
  cases p <;> rfl

theorem adopt_parent_ne (hb : p ≠ some b) (q) : (h.adopt p q).parent b = h.parent b := by
  cases p with
  | none => rfl
  | some a => exact if_neg fun e => hb (congrArg some e.symm)

/-- The pointers a rotation sets, before it updates heights and metadata. -/
def relink (h : Memory V M) (a c : Addr) (e : Bool) (y : Option Addr) : Memory V M :=
  ((((h.setParent c (h.parent a)).setParent a (some c)).adopt y (some a)).setChild c (!e)
    (some a)).setChild a e y

theorem rotate_eq {e : Bool} (hc : h.child a e = some c) :
    rotate tr h a (!e) =
      some (update tr (update tr (relink h a c e (h.child c (!e))) a) c, c) := by
  unfold rotate
  rw [Bool.not_not, hc]
  rfl

/-- **A rotation** brings the child on the side `e` up, in order. -/
theorem rotate_sound {e : Bool} {x y : BinTree Addr} (ha : Joined h par e (some c) a z.root)
    (hc : Joined h (some a) e x.root c y.root) (hx : Sound tr h (some c) x)
    (hy : Sound tr h (some c) y) (hz : Sound tr h (some a) z)
    (hn : (fork e (fork e x c y) a z).toList.Nodup)
    (hb : x.height < 200 ∧ y.height < 200 ∧ z.height < 200) :
    ∃ h', rotate tr h a (!e) = some (h', c) ∧ Sound tr h' par (fork e x c (fork e y a z)) ∧
      Confined (fork e (fork e x c y) a z).toList h h' := by
  obtain ⟨ha1, haz, hn1, -, hdz⟩ := (nodup_fork ..).1 hn
  obtain ⟨hcx, hcy, -, hny, hxy⟩ := (nodup_fork ..).1 hn1
  simp only [mem_fork, not_or] at ha1 hdz
  obtain ⟨hac, hax, hay⟩ := ha1
  have hcz : c ∉ z.toList := hdz c (.inl rfl)
  have hyz : ∀ b ∈ y.toList, b ∉ z.toList := fun b hb => hdz b (.inr (.inr hb))
  have hya : y.root ≠ some a := fun e => hay (root_mem e)
  have hyc : y.root ≠ some c := fun e => hcy (root_mem e)
  -- a tree without `a` and `c` keeps its nodes when only these two change
  have off : ∀ {u : BinTree Addr}, a ∉ u.toList → c ∉ u.toList → ∀ b ∈ u.toList, b ∉ [c, a] := by
    intro u h1 h2 b hb hm
    rcases mem_cons.1 hm with rfl | hm
    · exact h2 hb
    · exact h1 (mem_singleton.1 hm ▸ hb)
  have mc : c ∈ [c, a] := mem_cons_self ..
  have ma : a ∈ [c, a] := mem_cons_of_mem _ (mem_singleton_self a)
  have c1 : Confined [c, a] h ((h.setParent c (h.parent a)).setParent a (some c)) :=
    (Confined.setParent mc _).trans (.setParent ma _)
  have c2 : ∀ g : Memory V M, Confined [c, a] g ((g.setChild c (!e) (some a)).setChild a e y.root) :=
    fun _ => (Confined.setChild mc _ _).trans (.setChild ma _ _)
  have cy : ∀ g : Memory V M, Confined y.toList g (g.adopt y.root (some a)) :=
    fun _ => .adopt (fun _ e => root_mem e) _
  have hy' : Sound tr (relink h a c e y.root) (some a) y :=
    (c2 _).sound tr (off hay hcy) ((c1.sound tr (off hay hcy) hy).adopt tr (some a) hny)
  have hx' : Sound tr (relink h a c e y.root) (some c) x :=
    (c2 _).sound tr (off hax hcx) ((cy _).sound tr hxy (c1.sound tr (off hax hcx) hx))
  have hz' : Sound tr (relink h a c e y.root) (some a) z :=
    (c2 _).sound tr (off haz hcz) ((cy _).sound tr (fun b hb hm => hyz b hm hb)
      (c1.sound tr (off haz hcz) hz))
  have ja : Joined (relink h a c e y.root) (some c) e y.root a z.root := by
    refine ⟨if_pos ⟨rfl, rfl⟩, ?_, ?_⟩
    · simp [relink, Memory.setChild, Memory.setParent, hac, ha.there]
    · exact (adopt_parent_ne hya _).trans (if_pos rfl)
  have jc : Joined (relink h a c e y.root) par e x.root c (some a) := by
    refine ⟨?_, ?_, ?_⟩
    · simp [relink, Memory.setChild, Memory.setParent, Ne.symm hac, hc.here]
    · simp [relink, Memory.setChild]
    · refine (adopt_parent_ne hyc _).trans ((if_neg (Ne.symm hac)).trans ((if_pos rfl).trans ?_))
      exact ha.parent
  -- first `a` over `y` and `z`, then `c` over `x` and `a`
  have sa := update_sound tr ja hy' hz' (by omega) hay haz
  have cu : Confined [a] (relink h a c e y.root) (update tr (relink h a c e y.root) a) :=
    .update tr (mem_singleton_self a)
  have hx'' := cu.sound_one tr hax hx'
  have jc' := jc.congr (cu.outside c fun hm => hac (mem_singleton.1 hm).symm)
  rw [← root_fork e y z a] at jc'
  have hcf : c ∉ (fork e y a z).toList := fun hm => by
    rcases (mem_fork ..).1 hm with hm | hm | hm
    · exact hac hm.symm
    · exact hcy hm
    · exact hcz hm
  have sc := update_sound tr jc' hx'' sa (by rw [height_fork]; omega) hcx hcf
  refine ⟨_, by rw [rotate_eq tr ha.here, hc.there], sc, ?_⟩
  have mc' : c ∈ (fork e (fork e x c y) a z).toList := by simp [mem_fork]
  have ma' : a ∈ (fork e (fork e x c y) a z).toList := by simp [mem_fork]
  have hsub : ∀ b ∈ [c, a], b ∈ (fork e (fork e x c y) a z).toList := by simp [mc', ma']
  have hcon := ((c1.mono hsub).trans ((cy _).mono fun b hb => by simp [mem_fork, hb])).trans
    ((c2 _).mono hsub)
  exact (hcon.trans (.update tr ma')).trans (.update tr mc')

/-! ## 5. Rebalancing one node -/

theorem height_lt (hb : t.Balanced) (hn : t.toList.Nodup) : t.height < 100 := by
  refine hb.height_lt ?_
  have hinj : Function.Injective UInt64.toFin := fun _ _ => UInt64.toFin_inj.1
  have hle := (hn.map hinj).length_le_card
  rwa [length_map, Fintype.card_fin] at hle

/-- What restoring a subtree below `par` with the nodes `nodes` leaves: the tree `t`. -/
structure Restored (h : Memory V M) (par : Option Addr) (nodes : List Addr) (h' : Memory V M)
    (t : BinTree Addr) : Prop where
  sound : Sound tr h' par t
  balanced : t.Balanced
  toList : t.toList = nodes
  confined : Confined nodes h h'

theorem rotateChild_sound {x y w : BinTree Addr} (ha : Joined h par d (some c) a z.root)
    (hc : Sound tr h (some a) (fork d x c (fork d y b w))) (hz : Sound tr h (some a) z)
    (hn : (fork d (fork d x c (fork d y b w)) a z).toList.Nodup)
    (hb : x.height < 200 ∧ y.height < 200 ∧ w.height < 200) :
    ∃ h', rotateChild tr h a c d = some h' ∧ Joined h' par d (some b) a z.root ∧
      Sound tr h' (some a) (fork d (fork d x c y) b w) ∧ Sound tr h' (some a) z ∧
      Confined (fork d (fork d x c (fork d y b w)) a z).toList h h' := by
  obtain ⟨ha1, haz, hn1, -, hdz⟩ := (nodup_fork ..).1 hn
  obtain ⟨jc, -, sx, sy⟩ := (sound_fork tr).1 hc
  obtain ⟨jb, -, syy, syw⟩ := (sound_fork tr).1 sy
  -- seen from the other side, `b` is the child that comes up over `c`
  have jc' : Joined h (some a) (!d) (some b) c x.root := by
    have hj := jc.swap
    rwa [root_fork] at hj
  have hn1' : (fork (!d) (fork (!d) w b y) c x).toList.Nodup := by
    rwa [fork_not, fork_not]
  obtain ⟨g, hg, sg, cg⟩ := rotate_sound tr jc' jb.swap syw syy sx hn1' ⟨hb.2.2, hb.2.1, hb.1⟩
  have hmem : ∀ v, v ∈ (fork (!d) (fork (!d) w b y) c x).toList ↔
      v ∈ (fork d x c (fork d y b w)).toList := fun v => by rw [fork_not, fork_not]
  have sg' : Sound tr g (some a) (fork d (fork d x c y) b w) := by
    rwa [fork_not, fork_not] at sg
  have hlist : (fork d (fork d x c y) b w).toList = (fork d x c (fork d y b w)).toList :=
    toList_rotate d x y w c b
  have ja := ha.congr (cg.outside a fun hm => ha1 ((hmem a).1 hm))
  have sz := cg.sound tr (fun v hv hm => hdz v ((hmem v).1 hm) hv) hz
  have cset : Confined [a] g (g.setChild a d (some b)) := .setChild (mem_singleton_self a) _ _
  refine ⟨g.setChild a d (some b), ?_, ⟨if_pos ⟨rfl, rfl⟩, ?_, ja.parent⟩, ?_, ?_, ?_⟩
  · rw [Bool.not_not] at hg
    unfold rotateChild
    rw [hg]
    rfl
  · exact (if_neg fun e => Bool.not_ne_self d e.2).trans ja.there
  · exact cset.sound_one tr (hlist ▸ ha1) sg'
  · exact cset.sound_one tr haz sz
  refine (cg.mono fun v hv => ?_).trans (.setChild ?_ _ _)
  · exact (mem_fork ..).2 (.inr (.inl ((hmem v).1 hv)))
  · exact (mem_fork ..).2 (.inl rfl)

/-- **`rebalance(node, direction)`** where the side `d` is two levels taller: a single or a double
rotation restores the subtree, which loses at most one level. -/
theorem rebalanceNode_sound (ha : Joined h par d s.root a z.root) (hs : Sound tr h (some a) s)
    (hz : Sound tr h (some a) z) (bs : s.Balanced) (bz : z.Balanced) (ht : s.height = z.height + 2)
    (hn : (fork d s a z).toList.Nodup) :
    ∃ h' b t, rebalanceNode tr h a d = some (h', b) ∧ t.root = some b ∧
      Restored tr h par (fork d s a z).toList h' t ∧
      (t.height = s.height ∨ t.height = s.height + 1) := by
  obtain ⟨-, -, hns, -, -⟩ := (nodup_fork ..).1 hn
  have ls := height_lt bs hns
  obtain ⟨x, c, y, rfl⟩ := exists_fork d (t := s) (by omega)
  obtain ⟨b1, b2, bx, byy⟩ := (balanced_fork ..).1 bs
  obtain ⟨jc, -, sx, sy⟩ := (sound_fork tr).1 hs
  rw [root_fork] at ha
  have hbal := balance_sound tr jc sx sy (by omega) (by omega)
  rw [height_fork] at ht ls
  have hcond : ((bif d then (x.height : Int) - y.height else (y.height : Int) - x.height) =
      (bif d then -1 else 1)) ↔ y.height = x.height + 1 := by
    cases d <;> simp only [cond_false, cond_true] <;> omega
  have hunf : rebalanceNode tr h a d =
      if y.height = x.height + 1 then
        (rotateChild tr h a c d).bind fun h => rotate tr h a (!d)
      else rotate tr h a (!d) := by
    unfold rebalanceNode
    simp only [ha.here, hbal, bind_eq_bind, bind_some, hcond]
  by_cases hy : y.height = x.height + 1
  · -- the inner grandchild `b` comes up over both
    obtain ⟨u, b, w, rfl⟩ := exists_fork d (t := y) (by omega)
    obtain ⟨b3, b4, bu, bw⟩ := (balanced_fork ..).1 byy
    rw [height_fork] at hy ls ht b1 b2
    obtain ⟨g, hg, jg, sg, szg, cg⟩ := rotateChild_sound tr ha hs hz hn
      ⟨by omega, by omega, by omega⟩
    have hl1 : (fork d (fork d (fork d x c u) b w) a z).toList =
        (fork d (fork d x c (fork d u b w)) a z).toList :=
      toList_fork_congr d (toList_rotate d x u w c b) a z
    obtain ⟨jb, -, sxu, sw⟩ := (sound_fork tr).1 sg
    obtain ⟨h', hr, sr, cr⟩ := rotate_sound tr jg jb sxu sw szg (hl1 ▸ hn)
      ⟨by rw [height_fork]; omega, by omega, by omega⟩
    refine ⟨h', b, _, by rw [hunf, if_pos (by rw [height_fork]; omega), hg, bind_some, hr],
      root_fork .., ⟨sr, ?_, ?_, ?_⟩, .inl ?_⟩
    · simp only [balanced_fork, height_fork]
      refine ⟨by omega, by omega, ⟨by omega, by omega, bx, bu⟩, by omega, by omega, bw, bz⟩
    · rw [← toList_rotate, hl1]
    · rw [hl1] at cr
      exact cg.trans cr
    · simp only [height_fork]
      omega
  · obtain ⟨h', hr, sr, cr⟩ := rotate_sound tr ha jc sx sy hz hn ⟨by omega, by omega, by omega⟩
    refine ⟨h', c, _, by rw [hunf, if_neg hy, hr], root_fork .., ⟨sr, ?_, ?_, cr⟩, ?_⟩
    · simp only [balanced_fork, height_fork]
      refine ⟨by omega, by omega, bx, by omega, by omega, byy, bz⟩
    · rw [← toList_rotate]
    · simp only [height_fork]
      omega

/-- **`maybeRebalance`** restores a node whose sound subtrees differ by at most two levels. -/
theorem maybeRebalance_sound (ha : Joined h par d s.root a z.root) (hs : Sound tr h (some a) s)
    (hz : Sound tr h (some a) z) (bs : s.Balanced) (bz : z.Balanced) (h1 : s.height ≤ z.height + 2)
    (h2 : z.height ≤ s.height + 2) (hn : (fork d s a z).toList.Nodup) :
    ∃ h' b t, maybeRebalance tr h a = some (h', b) ∧ t.root = some b ∧
      Restored tr h par (fork d s a z).toList h' t ∧
      (t.height = max s.height z.height + 1 ∨
        (s.height = z.height + 2 ∨ z.height = s.height + 2) ∧ t.height = max s.height z.height) := by
  have hbal := balance_sound tr ha hs hz h1 h2
  have hunf : maybeRebalance tr h a =
      if s.height = z.height + 2 then rebalanceNode tr h a d
      else if z.height = s.height + 2 then rebalanceNode tr h a (!d)
      else some (update tr h a, a) := by
    unfold maybeRebalance
    rw [hbal]
    simp only [bind_eq_bind, bind_some]
    cases d <;> simp only [cond_false, cond_true] <;> split_ifs <;>
      first | omega | rfl | (congr 1; exact decide_eq_false (by omega)) |
        (congr 1; exact decide_eq_true (by omega))
  obtain ⟨has, haz, hns, -, -⟩ := (nodup_fork ..).1 hn
  have ls := height_lt bs hns
  rw [hunf]
  split
  · rename_i c1
    obtain ⟨h', b, t, hr, ht, hres, hh⟩ := rebalanceNode_sound tr ha hs hz bs bz c1 hn
    exact ⟨h', b, t, hr, ht, hres, by omega⟩
  split
  · rename_i c2
    rw [← fork_not] at hn ⊢
    obtain ⟨h', b, t, hr, ht, hres, hh⟩ := rebalanceNode_sound tr ha.swap hz hs bz bs c2 hn
    exact ⟨h', b, t, hr, ht, hres, by omega⟩
  refine ⟨_, a, fork d s a z, rfl, root_fork .., ⟨?_, ?_, rfl, ?_⟩, .inl (height_fork ..)⟩
  · exact update_sound tr ha hs hz (by omega) has haz
  · exact (balanced_fork ..).2 ⟨by omega, by omega, bs, bz⟩
  · exact .update tr ((mem_fork ..).2 (.inl rfl))

/-! ## 6. The way up -/

/-- The memory along the way `p` up from a hole below which hangs `sub`. Everything beside the way
is sound, and every node on it was balanced when the subtree in the hole had height `k`; what the
nodes on the way cache may be stale. -/
def Around (h : Memory V M) (par : Option Addr) : Option Addr → Nat → Zipper Addr → Prop
  | _, _, [] => True
  | sub, k, f :: p => Joined h (above par p) f.side sub f.label f.sibling.root ∧
      Sound tr h (some f.label) f.sibling ∧ f.sibling.Balanced ∧
      k ≤ f.sibling.height + 1 ∧ f.sibling.height ≤ k + 1 ∧
      Around h par (some f.label) (max k f.sibling.height + 1) p

def Beside (p : Zipper Addr) (b : Addr) : Prop := b ∈ before p ∨ b ∈ after p

theorem beside_cons {f : Frame Addr} {p : Zipper Addr} :
    Beside (f :: p) b ↔ b = f.label ∨ b ∈ f.sibling.toList ∨ Beside p b := by
  rcases f with ⟨d, a, s⟩
  cases d <;> simp only [Beside, before, Zipper.after, cond_false, cond_true, mem_append,
    mem_cons] <;> tauto

theorem Around.congr : ∀ {p : Zipper Addr} {sub : Option Addr} {k : Nat},
    (∀ b, Beside p b → SameAt h h' b) → Around tr h par sub k p → Around tr h' par sub k p
  | [], _, _, _, _ => trivial
  | f :: p, sub, k, hs, ⟨hj, hf, hb, h1, h2, hp⟩ => by
      refine ⟨hj.congr (hs _ (beside_cons.2 (.inl rfl))), hf.congr tr fun b hb => ?_, hb, h1, h2,
        hp.congr fun b hb => ?_⟩
      · exact hs b (beside_cons.2 (.inr (.inl hb)))
      · exact hs b (beside_cons.2 (.inr (.inr hb)))

theorem Around.frame {p : Zipper Addr} {sub : Option Addr} {k : Nat} (ha : Around tr h par sub k p)
    (hc : Confined [a] h h') (hp : ¬ Beside p a) : Around tr h' par sub k p :=
  ha.congr tr fun b hb => hc.outside b fun e => hp (mem_singleton.1 e ▸ hb)

theorem nodup_plug {p : Zipper Addr} (hn : (plug p t).toList.Nodup) :
    t.toList.Nodup ∧ ∀ b ∈ t.toList, ¬ Beside p b := by
  rw [toList_plug, nodup_append, nodup_append] at hn
  obtain ⟨⟨-, h2, h3⟩, -, h5⟩ := hn
  refine ⟨h2, fun b hb hbe => ?_⟩
  rcases hbe with hbe | hbe
  · exact h3 b hbe b hb rfl
  · exact h5 b (mem_append_right _ hb) b hbe rfl

theorem Around.setChild {f : Frame Addr} {p : Zipper Addr} {sub q : Option Addr} {k : Nat}
    (hn : (plug (f :: p) t).toList.Nodup) (ha : Around tr h par sub k (f :: p)) :
    Around tr (h.setChild f.label f.side q) par q k (f :: p) := by
  obtain ⟨hj, sf, bf, k1, k2, hp⟩ := ha
  obtain ⟨hn1, hn2⟩ := nodup_plug (p := p) hn
  obtain ⟨-, hfs, -, -, -⟩ := (nodup_fork ..).1 hn1
  have hc : Confined [f.label] h (h.setChild f.label f.side q) :=
    .setChild (mem_singleton_self _) _ _
  refine ⟨⟨if_pos ⟨rfl, rfl⟩, ?_, hj.parent⟩, hc.sound_one tr hfs sf, bf, k1, k2,
    hp.frame tr hc (hn2 f.label ((mem_fork ..).2 (.inl rfl)))⟩
  exact (if_neg fun e => Bool.not_ne_self _ e.2).trans hj.there

/-- **The upward pass.** Starting at a stale node whose sound subtrees differ by at most two levels,
below a way on which every node was balanced for a subtree of the height `k`, the pass ends with a
sound balanced tree of the same nodes in the same order. -/
theorem rebalance_sound : ∀ {p : Zipper Addr} {n : Nat} {h : Memory V M} {d : Bool}
    {s z : BinTree Addr} {a : Addr} {k : Nat}, Joined h (above none p) d s.root a z.root →
    Sound tr h (some a) s → Sound tr h (some a) z → s.Balanced → z.Balanced →
    s.height ≤ z.height + 2 → z.height ≤ s.height + 2 →
    -- the restored subtree will be within one level of `k`
    max s.height z.height ≤ k → k ≤ max s.height z.height + 2 →
    (s.height = z.height + 2 ∨ z.height = s.height + 2 → k ≤ max s.height z.height + 1) →
    Around tr h none (some a) k p → (plug p (fork d s a z)).toList.Nodup → p.length < n →
    ∃ h' t, rebalance tr n h a = some (h', t.root) ∧
      Restored tr h none (plug p (fork d s a z)).toList h' t
  | _, 0, _, _, _, _, _, _, _, _, _, _, _, _, _, _, _, _, _, _, hl => absurd hl (Nat.not_lt_zero _)
  | [], n + 1, h, d, s, z, a, k, ha, hs, hz, bs, bz, h1, h2, _, _, _, _, hn, _ => by
      obtain ⟨h', b, t, hr, ht, hres, -⟩ := maybeRebalance_sound tr ha hs hz bs bz h1 h2 hn
      have hp : h.parent a = none := ha.parent
      refine ⟨h', t, ?_, hres⟩
      unfold rebalance
      rw [hp, ht]
      simp only [hr, Option.bind_eq_bind, Option.bind_some, Option.pure_def]
  | f :: p, n + 1, h, d, s, z, a, k, ha, hs, hz, bs, bz, h1, h2, h3, h4, h5, hf, hn, hl => by
      obtain ⟨jf, -, bf, k1, k2, -⟩ := id hf
      obtain ⟨hnt, hnb⟩ := nodup_plug hn
      obtain ⟨h', b, t, hr, ht, hres, hh⟩ := maybeRebalance_sound tr ha hs hz bs bz h1 h2 hnt
      -- neither the node above nor its other subtree changes
      have off : ∀ v, Beside (f :: p) v → v ∉ (fork d s a z).toList := fun v hv hm => hnb v hm hv
      have same : ∀ v, Beside (f :: p) v → SameAt h h' v := fun v hv =>
        hres.confined.outside v (off v hv)
      have hlist : (plug p (fork f.side t f.label f.sibling)).toList =
          (plug (f :: p) (fork d s a z)).toList := by
        rw [plug, toList_plug, toList_plug, toList_fork_congr f.side hres.toList]
      have hft := ((nodup_fork ..).1 (nodup_plug (hlist ▸ hn)).1).1
      have cset : Confined [f.label] h' (h'.setChild f.label f.side (some b)) :=
        .setChild (mem_singleton_self _) _ _
      obtain ⟨jn, sn, -, -, -, hpn⟩ := (hf.congr tr same).setChild tr hn (q := some b)
      obtain ⟨g, u, hg, hu⟩ := rebalance_sound (ht ▸ jn)
        (cset.sound_one tr hft hres.sound) sn hres.balanced bf
        (by omega) (by omega) (by omega) (by omega) (by omega) hpn (hlist ▸ hn)
        (by simpa using hl)
      have hdir : decide (h.child f.label false ≠ some a) = f.side :=
        jf.side_eq fun e => off a (beside_cons.2 (.inr (.inl (root_mem e))))
          ((mem_fork ..).2 (.inl rfl))
      have hpar : h.parent a = some f.label := ha.parent
      refine ⟨g, u, ?_, ⟨hu.sound, hu.balanced, hu.toList.trans hlist, ?_⟩⟩
      · unfold rebalance
        rw [hpar]
        simp only [hr, hdir]
        exact hg
      have hsub : ∀ v ∈ (fork d s a z).toList, v ∈ (plug (f :: p) (fork d s a z)).toList :=
        fun v hv => by
          rw [toList_plug]
          exact mem_append_left _ (mem_append_right _ hv)
      have hmem : f.label ∈ (plug (f :: p) (fork d s a z)).toList := by
        rw [← hlist, toList_plug]
        exact mem_append_left _ (mem_append_right _ ((mem_fork ..).2 (.inl rfl)))
      exact ((hres.confined.mono hsub).trans (.setChild hmem _ _)).trans (hlist ▸ hu.confined)

end MegaSdk.FileService.AVLTree
