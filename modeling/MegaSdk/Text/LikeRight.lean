/-
  File:      MegaSdk/Text/LikeRight.lean
  Subject:   ON WHICH PATTERNS `likeCompare` IS RIGHT.

  Right is a pattern on which the matcher, for every text, reads inside both strings and says whether
  the text matches the items that are meant.

  * `likeRight_iff` -- each kind of bad site has a text that shows it: `LikeRight.direct` counts the
    code points of which nothing is left, `LikeRight.dangling` takes the shortest text, and
    `LikeRight.runOne` compares the two patterns by their shortest texts;
  * `likeCompare_iff` -- **`likeCompare` is right on a pattern exactly when no site is bad**.
-/
import MegaSdk.Base.Glob
import MegaSdk.Text.Like
import MegaSdk.Text.LikeSpec

namespace MegaSdk.Like

open Base.Glob List Option

variable {c esc s : Nat} {ps : List Nat} {m : Mode} {onText prev : Bool}

/-! ## 1. The items tried and the items meant -/

def Mode.isEscaped : Mode → Bool
  | .escaped => true
  | _ => false

theorem role_eq_all (h : role esc c = .all) : esc ≠ matchAll := by
  intro hesc
  simp only [role, hesc] at h
  split_ifs at h

theorem roleInRun_eq (hall : esc ≠ matchAll) (hone : roleInRun esc c = .one → esc ≠ matchOne) :
    roleInRun esc c = role esc c := by
  by_cases hca : c = matchAll
  · simp [role, roleInRun, hca, hall.symm]
  by_cases hco : c = matchOne
  · have hesc : esc ≠ matchOne := hone (by simp [roleInRun, hco])
    simp [role, roleInRun, hco, hesc.symm]
  · simp [role, roleInRun, hca, hco]

/-- Without a `?` as escape character behind a match-all, the items tried are those meant. -/
theorem tried_eq_tokens (hm : m = .run → esc ≠ matchAll)
    (hone : .runOne ∈ sites esc m onText ps → esc ≠ matchOne) :
    tried esc m ps = tokens esc m.isEscaped ps := by
  induction ps generalizing m onText with
  | nil => cases m <;> rfl
  | cons c ps ih =>
    have htail : (.runOne ∈ sites esc .normal false ps → esc ≠ matchOne) →
        tried esc .normal ps = tokens esc false ps := ih (by simp)
    cases m with
    | escaped =>
      simp only [sites, mem_append] at hone
      simp only [tried, Mode.isEscaped, tokens, htail fun h => hone (.inr h)]
    | normal =>
      simp only [sites] at hone
      simp only [tried, Mode.isEscaped, tokens]
      cases hr : role esc c <;> simp only [hr, mem_append] at hone
      case escape => exact ih (by simp) hone
      case all => exact congrArg _ (ih (fun _ => role_eq_all hr) hone)
      case one => exact congrArg _ (htail hone)
      case ordinary => exact congrArg _ (htail fun h => hone (.inr h))
    | run =>
      have hall := hm rfl
      have hrole : roleInRun esc c = role esc c := by
        refine roleInRun_eq hall fun hr => hone ?_
        simp [sites, hr]
      simp only [sites, hrole] at hone
      simp only [tried, Mode.isEscaped, tokens, hrole]
      cases hr : role esc c <;> simp only [hr] at hone
      case escape => exact ih (by simp) hone
      case all => exact congrArg _ (ih (fun _ => hall) hone)
      case one => exact congrArg _ (ih (fun _ => hall) fun h => hone (mem_cons_of_mem _ h))
      case ordinary => exact congrArg _ (htail hone)

/-- How the two readings of a pattern can stand to each other. With `?` as escape character they may
    differ behind a match-all. -/
def InStep (esc : Nat) (m : Mode) (prev : Bool) : Prop :=
  (m = .run → esc ≠ matchAll) ∧ (prev = m.isEscaped ∨ m = .run ∧ esc = matchOne)

theorem inStep_normal (esc) : InStep esc .normal false := ⟨nofun, .inl rfl⟩

theorem inStep_escaped (esc) : InStep esc .escaped true := ⟨nofun, .inl rfl⟩

theorem inStep_run (h : esc ≠ matchAll) : InStep esc .run false := ⟨fun _ => h, .inl rfl⟩

theorem lits_tried_sublist {prev : Bool} (h : InStep esc m prev) :
    (lits (tried esc m ps)).Sublist (lits (tokens esc prev ps)) := by
  induction ps generalizing m prev with
  | nil => cases m <;> exact List.Sublist.refl _
  | cons c ps ih =>
    have hnormal := ih (inStep_normal esc)
    have hescaped := ih (inStep_escaped esc)
    cases m with
    | escaped =>
      obtain rfl : prev = true := h.2.elim id fun h => nomatch h.1
      exact hnormal.cons_cons c
    | normal =>
      obtain rfl : prev = false := h.2.elim id fun h => nomatch h.1
      simp only [tried, tokens]
      cases hr : role esc c with
      | escape => exact hescaped
      | all => exact ih (inStep_run (role_eq_all hr))
      | one => exact hnormal
      | ordinary => exact hnormal.cons_cons c
    | run =>
      have hall := h.1 rfl
      have hrun := ih (inStep_run hall)
      by_cases hesc : esc = matchOne
      · have hrole : roleInRun esc c ≠ .escape := by
          intro hr
          by_cases hca : c = matchAll <;> by_cases hco : c = matchOne <;>
            simp_all [roleInRun]
        cases prev with
        | true =>
          simp only [tried]
          cases hr : roleInRun esc c with
          | escape => exact absurd hr hrole
          | all | one => exact hrun.cons c
          | ordinary => exact hnormal.cons_cons c
        | false =>
          simp only [tried, tokens]
          cases hr : roleInRun esc c with
          | escape => exact absurd hr hrole
          | all =>
            rw [← roleInRun_eq hall (fun h => by simp [hr] at h), hr]
            exact hrun
          | one =>
            have hc : role esc c = .escape := by
              by_cases hca : c = matchAll <;> by_cases hco : c = matchOne <;>
                simp_all [roleInRun, role]
            rw [hc]
            exact ih ⟨fun _ => hall, .inr ⟨rfl, hesc⟩⟩
          | ordinary =>
            rw [← roleInRun_eq hall (fun h => by simp [hr] at h), hr]
            exact hnormal.cons_cons c
      · obtain rfl : prev = false := h.2.elim id fun h => absurd h.2 hesc
        simp only [tried, tokens, roleInRun_eq hall fun _ => hesc]
        cases hr : role esc c with
        | escape => exact hescaped
        | all | one => exact hrun
        | ordinary => exact hnormal.cons_cons c

theorem mem_lits_tokens (h : s ∈ lits (tokens esc prev ps)) : s ∈ ps := by
  induction ps generalizing prev with
  | nil => cases prev <;> exact h
  | cons c ps ih =>
    have hlit : s ∈ c :: lits (tokens esc false ps) → s ∈ c :: ps := by
      intro h
      rcases mem_cons.1 h with rfl | h
      · exact mem_cons_self
      · exact mem_cons_of_mem _ (ih h)
    cases prev with
    | true => exact hlit h
    | false =>
      simp only [tokens] at h
      cases hr : role esc c with
      | escape => exact mem_cons_of_mem _ (ih (by simpa [hr] using h))
      | all | one => exact mem_cons_of_mem _ (ih (by simpa [hr, lits] using h))
      | ordinary => exact hlit (by simpa [hr, lits] using h)

theorem one_notMem_tokens (hesc : esc = matchOne) (prev) (ps) : .one ∉ tokens esc prev ps := by
  induction ps generalizing prev with
  | nil => cases prev <;> exact not_mem_nil
  | cons c ps ih =>
    cases prev with
    | true => simpa [tokens] using ih false
    | false =>
      simp only [tokens]
      cases hr : role esc c with
      | escape => exact ih true
      | all => simpa using ih false
      | one =>
        by_cases hca : c = matchAll <;> by_cases hco : c = matchOne <;>
          simp_all [role]
      | ordinary => simpa using ih false

theorem site_of_mem_append {site : Site} (h : site ∈ direct onText c ++ sites esc .normal false ps) :
    site = .direct c ∨ site ∈ sites esc .normal false ps := by
  cases onText with
  | true => exact .inr h
  | false => exact mem_cons.1 h

/-- A `?` behind a match-all is tried as one. -/
theorem one_mem_tried (h : .runOne ∈ sites esc m onText ps) : .one ∈ tried esc m ps := by
  induction m, onText, ps using rounds id esc with
  | nil m onText => cases m <;> cases onText <;> simp [sites] at h
  | same _ _ htried hsites ih => exact htried ▸ mem_append_right _ (ih (hsites ▸ h))
  | any _ htried => exact htried ▸ mem_cons_self
  | ordinary _ _ htried hsites ih =>
    rcases site_of_mem_append (hsites ▸ h) with h | h
    · cases h
    · exact htried ▸ mem_cons_of_mem _ (ih h)
  | searched _ _ _ htried hsites ih => exact htried ▸ ih (hsites ▸ h)

theorem mem_of_direct (h : .direct c ∈ sites esc m onText ps) : c ∈ ps := by
  induction m, onText, ps using rounds id esc with
  | nil m onText => cases m <;> cases onText <;> simp [sites] at h
  | same _ _ _ hsites ih => exact mem_cons_of_mem _ (ih (hsites ▸ h))
  | any _ _ hsites ih => exact mem_cons_of_mem _ (ih ((hsites (.direct c) (by simp)).1 h))
  | ordinary _ _ _ hsites ih =>
    rcases site_of_mem_append (hsites ▸ h) with h | h
    · cases h
      exact mem_cons_self
    · exact mem_cons_of_mem _ (ih h)
  | searched _ _ _ _ hsites ih => exact ih (hsites ▸ h)

/-! ## 2. When `like` is right -/

section LikeRight

variable {κ : Type*} [DecidableEq κ] {key : Nat → κ} {esc x y : Nat} {ps : List Nat} {P : Nat → Prop}

/-- `like` says on all texts of code points with `P` whether they match the items that are meant. -/
def LikeRight (key : Nat → κ) (esc : Nat) (P : Nat → Prop) (ps : List Nat) : Prop :=
  ∀ T, (∀ s ∈ T, P s) →
    Answers (like key esc .normal ps (some T)) (Matches (Same key) (tokens esc false ps) T)

theorem lits_normal_sublist : (lits (tried esc .normal ps)).Sublist (lits (tokens esc false ps)) :=
  lits_tried_sublist (inStep_normal esc)

theorem own_ok (hx : P x) (hps : ∀ c ∈ ps, P c) {p : List (Item Nat)}
    (hp : (lits p).Sublist (lits (tokens esc false ps))) : ∀ s ∈ own x p, P s := by
  intro s hs
  rcases mem_own hs with rfl | hs
  · exact hx
  · exact hps s (mem_lits_tokens (hp.subset hs))

omit [DecidableEq κ] in
theorem matches_same_own (x : Nat) (p : List (Item Nat)) : Matches (Same key) p (own x p) :=
  matches_own (S := Same key) (fun _ => rfl) x p

section

variable (h : LikeRight key esc P ps)
include h

/-- No escape character dangles: the shortest text that is meant would be refused. -/
theorem LikeRight.dangling (hx : P x) (hps : ∀ c ∈ ps, P c) :
    .dangling ∉ sites esc .normal false ps := by
  intro hmem
  obtain ⟨b, hr, hb⟩ := h _ (own_ok hx hps (.refl _))
  rw [hb.2 (matches_same_own x _)] at hr
  exact like_dangling .normal false hmem _ nofun hr

/-- Something is left of the code points that are compared at an end: a text that is overrun has too
    few code points of which nothing is left. -/
theorem LikeRight.direct (hx : P x) (hps : ∀ c ∈ ps, P c)
    (hx0 : key x ≠ key 0) (hmem : .direct c ∈ sites esc .normal false ps) : key c ≠ key 0 := by
  intro hc
  obtain ⟨T, hT⟩ := like_overrun hx0 hc .normal false hmem
  obtain ⟨b, hr, hb⟩ := h T fun s hs => (hT.made s hs).elim (fun h => h ▸ hx) (hps s)
  have htrue : b = true := by
    cases b with
    | true => rfl
    | false => exact absurd hr hT.passes
  have hcount : (lits (tokens esc false ps)).countP (goneB key) ≤ T.countP (goneB key) := by
    refine countP_lits_le (fun s c hsc hgone => ?_) (hb.1 htrue)
    have hs : key s = key c := hsc
    simpa [goneB, hs] using hgone
  have hshort := hT.short
  have hle := (@lits_normal_sublist esc ps).countP_le (p := goneB key)
  omega

/-- The escape character is not a `?` behind a match-all: the items tried and the items meant would
    have the same texts. -/
theorem LikeRight.runOne (hx : P x) (hy : P y) (hps : ∀ c ∈ ps, P c) (hx0 : key x ≠ key 0)
    (hxy : key x ≠ key y) (hmem : .runOne ∈ sites esc .normal false ps) : esc ≠ matchOne := by
  intro hesc
  have hagree : ∀ T, (∀ s ∈ T, P s) →
      (Matches (Same key) (tried esc .normal ps) T ↔ Matches (Same key) (tokens esc false ps) T) := by
    intro T hT
    obtain ⟨b, hr, hb⟩ := h T hT
    have htried : Answers (like key esc .normal ps (some T))
        (Matches (Same key) (tried esc .normal ps) T) :=
      like_tried .normal false T nofun (fun c hc => h.direct hx hps hx0 hc)
        (h.dangling hx hps)
    obtain ⟨b', hr', hb'⟩ := htried
    obtain rfl : b' = b := some.inj (hr'.symm.trans hr)
    exact hb'.symm.trans hb
  have hown : ∀ z, P z → Matches (Same key) (tokens esc false ps) (own z (tried esc .normal ps)) :=
    fun z hz => (hagree _ (own_ok hz hps lits_normal_sublist)).1 (matches_same_own z _)
  have htokens := (hagree _ (own_ok hx hps (.refl _))).2 (matches_same_own x _)
  exact one_notMem_of_agree hxy (one_notMem_tokens hesc false ps) htokens (hown x hx) (hown y hy)
    (one_mem_tried hmem)

end

/-- **`like` is right on all texts exactly when no site is bad.** -/
theorem likeRight_iff (hx : P x) (hy : P y) (hps : ∀ c ∈ ps, P c) (hx0 : key x ≠ key 0)
    (hxy : key x ≠ key y) :
    LikeRight key esc P ps ↔
      ∀ site ∈ sites esc .normal false ps, site.Fine (fun c => key c = key 0) esc := by
  constructor
  · intro h site hmem
    cases site with
    | direct c => exact h.direct hx hps hx0 hmem
    | runOne => exact h.runOne hx hy hps hx0 hxy hmem
    | dangling => exact h.dangling hx hps hmem
  intro hfine T _
  have hone : .runOne ∈ sites esc .normal false ps → esc ≠ matchOne := hfine _
  have htokens : tried esc .normal ps = tokens esc false ps :=
    tried_eq_tokens nofun hone
  rw [← htokens]
  exact like_tried .normal false T nofun (fun c => hfine _)
    fun h => hfine _ h

end LikeRight

/-! ## 3. When `likeCompare` is right -/

/-- What is known of `utf8proc_decompose_char` with the options of the code: code points of a text
    decompose into at most eight, none of them zero; zero and two letters decompose into themselves. -/
structure Decomposes (decompose : Bool → Nat → Option (List Nat)) : Prop where
  scalar : ∀ strip c, Scalar c → ∃ l, decompose strip c = some l ∧ l.length ≤ 8 ∧ 0 ∉ l
  zero : ∀ strip, decompose strip 0 = some [0]
  letter : ∀ strip c, c = 97 ∨ c = 98 → decompose strip c = some [c]

variable (decompose : Bool → Nat → Option (List Nat))

/-- Two code points are equal behind the folding of case and, if wanted, of accents. -/
def SameFolded (strip : Bool) (s c : Nat) : Prop :=
  decompose strip s = decompose strip c

/-- Nothing is left of a code point behind the folding. -/
def Gone (strip : Bool) (c : Nat) : Prop :=
  decompose strip c = some []

instance (strip : Bool) :
    DecidablePred (Gone decompose strip) :=
  fun c => inferInstanceAs (Decidable (decompose strip c = some []))

/-- **What is wanted of a pattern**: on every text the matcher reads inside both strings and says
    whether the text matches what the pattern means. -/
def Right (u_foldCase : Nat → Nat) (ps : List Nat)
    (esc : Nat) (strip : Bool) : Prop :=
  ∀ ss, (∀ c ∈ ss, Scalar c) → ∃ b,
    likeCompare decompose u_foldCase (cString ps) (cString ss) esc strip = .result b ∧
      (b = true ↔ Matches (SameFolded decompose strip) (tokens esc false ps) ss)

theorem buffer_of_length_le {l : List Nat} (h : l.length ≤ 8) :
    buffer l = l ++ List.replicate (8 - l.length) 0 := by
  rw [buffer, take_append, take_of_length_le h, take_replicate]
  congr 2
  omega

theorem takeWhile_buffer {l : List Nat} (h : l.length ≤ 8) (h0 : 0 ∉ l) :
    (buffer l).takeWhile (· != 0) = l := by
  have hl : ∀ c ∈ l, (c != 0) = true := by
    intro c hc
    rw [bne_iff_ne]
    intro hz
    exact h0 (hz ▸ hc)
  rw [buffer_of_length_le h, takeWhile_append_of_pos hl]
  simp

section Concrete

variable {decompose : Bool → Nat → Option (List Nat)} {u_foldCase : Nat → Nat} {ps : List Nat}
  {esc : Nat} {strip : Bool}

def foldKey (decompose : Bool → Nat → Option (List Nat)) (strip : Bool) (c : Nat) :
    Option (List Nat) :=
  (decompose strip c).map buffer

section

variable (ht : Decomposes decompose)
include ht

theorem foldKey_eq_iff (hs : Scalar s) (hc : Scalar c) :
    foldKey decompose strip s = foldKey decompose strip c ↔ SameFolded decompose strip s c := by
  obtain ⟨l, hl, hlen, h0⟩ := ht.scalar strip s hs
  obtain ⟨l', hl', hlen', h0'⟩ := ht.scalar strip c hc
  simp only [foldKey, SameFolded, hl, hl', map_some, some.injEq]
  constructor
  · intro h
    rw [← takeWhile_buffer hlen h0, h, takeWhile_buffer hlen' h0']
  · exact congrArg buffer

theorem foldKey_zero_iff (hc : Scalar c) :
    foldKey decompose strip c = foldKey decompose strip 0 ↔ Gone decompose strip c := by
  obtain ⟨l, hl, hlen, h0⟩ := ht.scalar strip c hc
  have hzero : buffer [0] = buffer [] := by decide
  simp only [foldKey, Gone, hl, ht.zero, map_some, some.injEq]
  constructor
  · intro h
    rw [← takeWhile_buffer hlen h0, h]
    decide
  · exact congrArg buffer

theorem foldCaseAccentEqual_eq (hs : s = 0 ∨ Scalar s) (hc : Scalar c) :
    foldCaseAccentEqual decompose u_foldCase s c strip =
      decide (foldKey decompose strip s = foldKey decompose strip c) := by
  have hdefined : ∃ l, decompose strip s = some l := by
    rcases hs with rfl | hs
    · exact ⟨_, ht.zero strip⟩
    · obtain ⟨l, hl, _⟩ := ht.scalar strip s hs
      exact ⟨l, hl⟩
  obtain ⟨l, hl⟩ := hdefined
  obtain ⟨l', hl', _⟩ := ht.scalar strip c hc
  simp only [foldCaseAccentEqual, foldKey, hl, hl', map_some, some.injEq]
  exact beq_eq_decide _ _

section

variable (hps : ∀ c ∈ ps, Scalar c)
include hps

theorem likeCompare_like {ss : List Nat} (hss : ∀ c ∈ ss, Scalar c) :
    likeCompare decompose u_foldCase (cString ps) (cString ss) esc strip =
      .ofOption (like (foldKey decompose strip) esc .normal ps (some ss)) := by
  have hsim : Simulates (foldKey decompose strip)
      (fun s c => foldCaseAccentEqual decompose u_foldCase s c strip) esc ps := by
    refine icuLikeCompare_like ?_ hps
    intro s c hs hc
    exact foldCaseAccentEqual_eq ht hs hc
  refine hsim.normal _ (some ss) (length_lt_cString hps) fun t h => ?_
  cases h
  exact hss

/-- The items meant are matched by keys as by decompositions. -/
theorem matches_foldKey_iff {ss : List Nat} (hss : ∀ c ∈ ss, Scalar c) :
    Matches (Same (foldKey decompose strip)) (tokens esc false ps) ss ↔
      Matches (SameFolded decompose strip) (tokens esc false ps) ss := by
  have hlit : ∀ c, .lit c ∈ tokens esc false ps → Scalar c := by
    intro c hc
    exact hps c (mem_lits_tokens (mem_filterMap.2 ⟨.lit c, hc, rfl⟩))
  constructor
  · exact fun h => h.imp fun s hs c hc => (foldKey_eq_iff ht (hss s hs) (hlit c hc)).1
  · exact fun h => h.imp fun s hs c hc => (foldKey_eq_iff ht (hss s hs) (hlit c hc)).2

theorem right_iff_likeRight :
    Right decompose u_foldCase ps esc strip ↔ LikeRight (foldKey decompose strip) esc Scalar ps := by
  refine forall₂_congr fun ss hss => ?_
  rw [likeCompare_like ht hps hss]
  refine exists_congr fun b => and_congr ?_ (iff_congr .rfl (matches_foldKey_iff ht hps hss).symm)
  cases like (foldKey decompose strip) esc .normal ps (some ss) with
  | none => exact iff_of_false nofun nofun
  | some r => simp [Outcome.ofOption]

end

end

/-- **`likeCompare` reads inside both strings and gives the meaning of the pattern on all texts exactly
    when no site of the pattern is bad**: something is left of every code point that may be compared
    with the terminator, no `?` behind a match-all is the escape character, and no escape character
    behind a match-all ends the pattern. -/
theorem likeCompare_iff (ht : Decomposes decompose) (hps : ∀ c ∈ ps, Scalar c) :
    Right decompose u_foldCase ps esc strip ↔
      ∀ site ∈ sites esc .normal false ps, site.Fine (Gone decompose strip) esc := by
  have ha : Scalar 97 := by decide
  have hb : Scalar 98 := by decide
  have ha0 : foldKey decompose strip 97 ≠ foldKey decompose strip 0 := by
    rw [Ne, foldKey_zero_iff ht ha, Gone, ht.letter strip 97 (.inl rfl)]
    decide
  have hab : foldKey decompose strip 97 ≠ foldKey decompose strip 98 := by
    rw [Ne, foldKey_eq_iff ht ha hb, SameFolded, ht.letter strip 97 (.inl rfl),
      ht.letter strip 98 (.inr rfl)]
    decide
  rw [right_iff_likeRight ht hps, likeRight_iff ha hb hps ha0 hab]
  refine forall₂_congr fun site hsite => ?_
  cases site with
  | direct c => exact not_congr (foldKey_zero_iff ht (hps c (mem_of_direct hsite)))
  | _ => exact .rfl

end Concrete

/-- A small table: letters of ASCII without case, and the acute accent as a mark. -/
def sampleTable (strip : Bool) (c : Nat) : Option (List Nat) :=
  if strip ∧ c = 0x301 then some [] else if 65 ≤ c ∧ c ≤ 90 then some [c + 32] else some [c]

theorem sampleTable_ok : Decomposes sampleTable where
  scalar := by
    intro strip c hc
    simp only [sampleTable]
    have h0 := hc.1
    split_ifs
    · exact ⟨[], rfl, by simp, by simp⟩
    · exact ⟨_, rfl, by simp, by simp⟩
    · exact ⟨_, rfl, by simp, by simpa using h0.ne⟩
  zero := by decide
  letter := by
    intro strip c hc
    rcases hc with rfl | rfl <;> cases strip <;> decide

/-- A mark right behind a match-all is searched, not compared with the terminator. -/
theorem likeCompare_iff_mark : Right sampleTable id [65, 42, 0x301] 92 true :=
  (likeCompare_iff sampleTable_ok (by decide)).2 (by decide)

/-- **A pattern of one mark moves out of the empty text, and a match-all behind it then accepts a text
    that is too short.** A match-all with an escape character at the end matches nothing, and `?` as
    escape character is a wildcard behind a match-all. -/
theorem likeCompare_overruns :
    likeCompare sampleTable id (cString [0x301]) (cString []) 92 true = .outside ∧
      (likeCompare sampleTable id (cString [101, 0x301, 42]) (cString [101]) 92 true = .result true ∧
        ¬Matches (SameFolded sampleTable true) (tokens 92 false [101, 0x301, 42]) [101]) ∧
      (likeCompare sampleTable id (cString [42, 92]) (cString [97]) 92 false = .result false ∧
        Matches (SameFolded sampleTable false) (tokens 92 false [42, 92]) [97]) ∧
      (likeCompare sampleTable id (cString [42, 63, 42]) (cString [97]) 63 false = .result true ∧
        ¬Matches (SameFolded sampleTable false) (tokens 63 false [42, 63, 42]) [97]) := by
  refine ⟨by decide, ⟨by decide, fun h => ?_⟩, ⟨by decide, ?_⟩, ⟨by decide, fun h => ?_⟩⟩
  · exact absurd (size_le h) (by decide)
  · exact .star [97] .nil
  have hcount := countP_lits_le (f := fun c => c == 42) (g := fun c => c == 42) ?_ h
  · exact absurd hcount (by decide)
  intro s c hsc hc
  obtain rfl : c = 42 := by simpa using hc
  by_contra hs
  have hsc : sampleTable false s = some [42] := hsc
  simp only [sampleTable] at hsc
  split_ifs at hsc <;> simp_all

end MegaSdk.Like
