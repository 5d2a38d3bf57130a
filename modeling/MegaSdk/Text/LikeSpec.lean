/-
  File:      MegaSdk/Text/LikeSpec.lean
  Subject:   WHAT A PATTERN OF `likeCompare` MEANS, and where the matcher does not say so.

  A pattern is read once as the items it stands for (`tokens`), and once as the items the matcher
  tries (`tried`). They differ where a `?` that is the escape character follows a match-all. A site
  is a place of the pattern where the matcher may go wrong:

  * a code point that is compared where the text may have ended: when nothing is left of it behind
    the folding, it is equal to the terminator, and the pointer into the text moves out of it;
  * a `?` behind a match-all;
  * an escape character behind a match-all at the end of the pattern: it stands for nothing, but it is
    tried at no empty rest of the text.

  * `like_tried` -- with no bad site of the first and the last kind the items of `tried` decide;
  * `like_overrun` -- a bad site of the first kind has a text that is left at its end and not refused;
  * `like_dangling` -- with one of the last kind nothing is accepted.
-/
import MegaSdk.Base.Glob
import MegaSdk.Text.Like

namespace MegaSdk.Like

open Base.Glob List

/-! ## 1. Items and sites -/

/-- What a code point of a pattern can be. -/
inductive Role
  | escape
  | all
  | one
  | ordinary
  deriving DecidableEq

def role (esc c : Nat) : Role :=
  if c = esc then .escape else if c = matchAll then .all else if c = matchOne then .one else .ordinary

/-- The role the matcher gives it behind a match-all: there the wildcards come first. -/
def roleInRun (esc c : Nat) : Role :=
  if c = matchAll then .all else if c = matchOne then .one else if c = esc then .escape else .ordinary

/-- The items a pattern stands for. An escaped code point is an ordinary one, and an escape character
    at the end stands for nothing. -/
def tokens (esc : Nat) : Bool → List Nat → List (Item Nat)
  | _, [] => []
  | true, c :: ps => .lit c :: tokens esc false ps
  | false, c :: ps =>
    match role esc c with
    | .escape => tokens esc true ps
    | .all => .star :: tokens esc false ps
    | .one => .one :: tokens esc false ps
    | .ordinary => .lit c :: tokens esc false ps

/-- The items the matcher tries. -/
def tried (esc : Nat) : Mode → List Nat → List (Item Nat)
  | _, [] => []
  | .escaped, c :: ps => .lit c :: tried esc .normal ps
  | .normal, c :: ps =>
    match role esc c with
    | .escape => tried esc .escaped ps
    | .all => .star :: tried esc .run ps
    | .one => .one :: tried esc .normal ps
    | .ordinary => .lit c :: tried esc .normal ps
  | .run, c :: ps =>
    match roleInRun esc c with
    | .escape => tried esc .escaped ps
    | .all => .star :: tried esc .run ps
    | .one => .one :: tried esc .run ps
    | .ordinary => .lit c :: tried esc .normal ps

/-- A place where the matcher may go wrong. -/
inductive Site
  | direct (c : Nat)
  | runOne
  | dangling
  deriving DecidableEq

/-- The site of an ordinary code point; there is none when the text has not ended there. -/
def direct (onText : Bool) (c : Nat) : List Site := if onText then [] else [.direct c]

/-- The sites of a pattern; `onText` when the text has not ended. -/
def sites (esc : Nat) : Mode → Bool → List Nat → List Site
  | .escaped, true, [] => [.dangling]
  | _, _, [] => []
  | .escaped, onText, c :: ps => direct onText c ++ sites esc .normal false ps
  | .normal, onText, c :: ps =>
    match role esc c with
    | .escape => sites esc .escaped onText ps
    | .all => sites esc .run onText ps
    | .one => sites esc .normal false ps
    | .ordinary => direct onText c ++ sites esc .normal false ps
  | .run, onText, c :: ps =>
    match roleInRun esc c with
    | .escape => sites esc .escaped true ps
    | .all => sites esc .run onText ps
    | .one => .runOne :: sites esc .run false ps
    | .ordinary => sites esc .normal false ps

/-- The matcher does not go wrong at a site; `gone` are the code points of which nothing is left. -/
def Site.Fine (gone : Nat → Prop) (esc : Nat) : Site → Prop
  | .direct c => ¬gone c
  | .runOne => esc ≠ matchOne
  | .dangling => False

instance (gone : Nat → Prop) [DecidablePred gone] (esc : Nat) : DecidablePred (Site.Fine gone esc)
  | .direct c => inferInstanceAs (Decidable (¬gone c))
  | .runOne => inferInstanceAs (Decidable (esc ≠ matchOne))
  | .dangling => inferInstanceAs (Decidable False)

/-- The star of a match-all that has been read. -/
def Mode.front : Mode → List (Item Nat)
  | .run => [.star]
  | _ => []

def Same {κ : Type*} (key : Nat → κ) (s c : Nat) : Prop := key s = key c

/-! ## 2. One round by roles -/

section Rounds

variable {κ : Type*} [DecidableEq κ] {key : Nat → κ} {esc c : Nat} {ps : List Nat}
  {k : Mode → Option (List Nat) → Option Bool} {text : Option (List Nat)}

theorem step_true : step key esc c true k text = compareOne key c (k .normal) text := by
  simp [step]

theorem step_false : step key esc c false k text =
    match role esc c with
    | .escape => k .escaped text
    | .all => k .run text
    | .one => skipOne (k .normal) text
    | .ordinary => compareOne key c (k .normal) text := by
  simp only [step, role]
  by_cases hesc : c = esc
  · simp [hesc]
  by_cases hall : c = matchAll
  · simp [hall, hall ▸ hesc]
  by_cases hone : c = matchOne
  · simp [hone, hone ▸ hesc]
  · simp [hesc, hall, hone]

theorem like_run_cons : like key esc .run (c :: ps) text =
    match roleInRun esc c with
    | .all => like key esc .run ps text
    | .one => skipOne (like key esc .run ps) text
    | _ => text.bind (search fun t => like key esc .normal (c :: ps) (some t)) := by
  simp only [like, roleInRun]
  by_cases hall : c = matchAll
  · simp [hall]
  by_cases hone : c = matchOne
  · simp [hone]
  by_cases hesc : c = esc
  · simp [hesc, hesc ▸ hall, hesc ▸ hone]
  · simp [hesc, hall, hone]

/-- Behind a match-all, what is no wildcard has its own role and is searched, and it is the same
    pattern as without the match-all, on a text that has not ended. -/
theorem run_rest (key : Nat → κ) (hall : roleInRun esc c ≠ .all) (hone : roleInRun esc c ≠ .one)
    (onText : Bool) (ps) : role esc c = roleInRun esc c ∧
      (∀ text, like key esc .run (c :: ps) text =
        text.bind (search fun t => like key esc .normal (c :: ps) (some t))) ∧
      tried esc .run (c :: ps) = tried esc .normal (c :: ps) ∧
      sites esc .run onText (c :: ps) = sites esc .normal true (c :: ps) := by
  have h1 : c ≠ matchAll := by
    intro h
    exact hall (by simp [roleInRun, h])
  have h2 : c ≠ matchOne := by
    intro h
    exact hone (by simp [roleInRun, h])
  have hrole : role esc c = roleInRun esc c := by
    simp [role, roleInRun, h1, h2]
  refine ⟨hrole, ?_⟩
  simp only [like_run_cons, tried, sites, hrole]
  cases hr : roleInRun esc c with
  | all => exact absurd hr hall
  | one => exact absurd hr hone
  | _ => simp [direct]

/-- **Induction over the code points of a pattern, by what the matcher does with them**: it takes
    nothing of the text, skips a code point, compares one, or searches. -/
theorem rounds (key : Nat → κ) (esc) {motive : Mode → Bool → List Nat → Prop}
    (nil : ∀ m onText, motive m onText [])
    (same : ∀ {m m' onText c ps}, (m = .run → m' = .run) →
      like key esc m (c :: ps) = like key esc m' ps →
      tried esc m (c :: ps) = m'.front ++ tried esc m' ps →
      sites esc m onText (c :: ps) = sites esc m' onText ps → motive m' onText ps →
      motive m onText (c :: ps))
    (any : ∀ {m onText c ps}, like key esc m (c :: ps) = skipOne (like key esc m ps) →
      tried esc m (c :: ps) = .one :: tried esc m ps →
      (∀ s, s ≠ .runOne → (s ∈ sites esc m onText (c :: ps) ↔ s ∈ sites esc m false ps)) →
      motive m false ps → motive m onText (c :: ps))
    (ordinary : ∀ {m onText c ps}, m.front = [] →
      like key esc m (c :: ps) = compareOne key c (like key esc .normal ps) →
      tried esc m (c :: ps) = .lit c :: tried esc .normal ps →
      sites esc m onText (c :: ps) = direct onText c ++ sites esc .normal false ps →
      motive .normal false ps → motive m onText (c :: ps))
    (searched : ∀ {onText c ps}, role esc c ≠ .all → role esc c ≠ .one →
      (∀ text, like key esc .run (c :: ps) text =
        text.bind (search fun t => like key esc .normal (c :: ps) (some t))) →
      tried esc .run (c :: ps) = tried esc .normal (c :: ps) →
      sites esc .run onText (c :: ps) = sites esc .normal true (c :: ps) →
      motive .normal true (c :: ps) → motive .run onText (c :: ps))
    (m : Mode) (onText : Bool) (ps) : motive m onText ps := by
  induction ps generalizing m onText with
  | nil => exact nil m onText
  | cons c ps ih =>
    have hnormal : ∀ onText, motive .normal onText (c :: ps) := by
      intro onText
      have hlike : like key esc .normal (c :: ps) = _ := funext fun _ => step_false
      cases hr : role esc c with
      | escape =>
        simp only [hr] at hlike
        exact same (by simp) hlike (by simp [tried, hr, Mode.front]) (by simp [sites, hr])
          (ih .escaped _)
      | all =>
        simp only [hr] at hlike
        exact same (by simp) hlike (by simp [tried, hr, Mode.front]) (by simp [sites, hr]) (ih .run _)
      | one =>
        simp only [hr] at hlike
        exact any hlike (by simp [tried, hr]) (by simp [sites, hr]) (ih ..)
      | ordinary =>
        simp only [hr] at hlike
        exact ordinary rfl hlike (by simp [tried, hr]) (by simp [sites, hr]) (ih ..)
    cases m with
    | normal => exact hnormal onText
    | escaped => exact ordinary rfl (funext fun _ => step_true) rfl (by simp [sites]) (ih ..)
    | run =>
      have hlike : like key esc .run (c :: ps) = _ := funext fun _ => like_run_cons
      by_cases hall : roleInRun esc c = .all
      · simp only [hall] at hlike
        exact same id hlike (by simp [tried, hall, Mode.front]) (by simp [sites, hall]) (ih ..)
      by_cases hone : roleInRun esc c = .one
      · simp only [hone] at hlike
        exact any hlike (by simp [tried, hone]) (by simp +contextual [sites, hone]) (ih ..)
      obtain ⟨hrole, hlike, htried, hsites⟩ := run_rest key hall hone onText ps
      exact searched (hrole ▸ hall) (hrole ▸ hone) hlike htried hsites
        (hnormal true)

end Rounds

/-! ## 3. The items tried decide -/

def Answers (r : Option Bool) (G : Prop) : Prop := ∃ b, r = some b ∧ (b = true ↔ G)

section Answers

variable {κ : Type*} {key : Nat → κ} {esc c : Nat} {ps T : List Nat} {p : List (Item Nat)}
  {k : Option (List Nat) → Option Bool}

theorem Answers.congr {r : Option Bool} {G H : Prop} (h : Answers r G) (hGH : G ↔ H) :
    Answers r H := by
  obtain ⟨b, hr, hb⟩ := h
  exact ⟨b, hr, hb.trans hGH⟩

theorem answers_false {G : Prop} (h : ¬G) : Answers (some false) G :=
  ⟨false, rfl, iff_of_false Bool.false_ne_true h⟩

theorem compareOne_answers [DecidableEq κ] (hzero : T = [] → key c ≠ key 0)
    (hk : ∀ t, Answers (k (some t)) (Matches (Same key) p t)) :
    Answers (compareOne key c k (some T)) (Matches (Same key) (.lit c :: p) T) := by
  have hlit : (.lit c : Item Nat) ≠ .star := nofun
  cases T with
  | nil =>
    rw [compareOne, if_neg (hzero rfl).symm]
    refine answers_false fun h => ?_
    exact absurd (matches_nil_right.1 h (.lit c) mem_cons_self) hlit
  | cons s t =>
    rw [compareOne, matches_item_cons hlit]
    split_ifs with hs
    · exact (hk t).congr (and_iff_right hs).symm
    · exact answers_false fun h => hs h.1

theorem skipOne_answers (m : Mode)
    (hk : ∀ t, Answers (k (some t)) (Matches (Same key) (m.front ++ p) t)) :
    Answers (skipOne k (some T)) (Matches (Same key) (m.front ++ .one :: p) T) := by
  cases T with
  | nil => exact answers_false fun h => nomatch matches_nil_right.1 h .one (by simp)
  | cons s t =>
    refine (hk t).congr ?_
    cases m with
    | run => exact matches_star_one.symm
    | _ => exact ((matches_item_cons (i := .one) nofun).trans (and_iff_right trivial)).symm

theorem matches_front {m m' : Mode} (hm : m = .run → m' = .run) :
    Matches (Same key) (m.front ++ (m'.front ++ p)) T ↔ Matches (Same key) (m'.front ++ p) T := by
  cases m with
  | run =>
    rw [hm rfl]
    exact matches_star_star
  | _ => exact .rfl

/-- A pattern that needs a text is found where it is tried at every rest with a code point. -/
theorem search_answers {f : List Nat → Option Bool} (hempty : ¬Matches (Same key) p [])
    (hf : ∀ t, t ≠ [] → Answers (f t) (Matches (Same key) p t)) :
    Answers (search f T) (Matches (Same key) (.star :: p) T) := by
  induction T with
  | nil => exact answers_false fun h => hempty (matches_star_nil.1 h)
  | cons s t ih =>
    obtain ⟨b, hr, hb⟩ := hf (s :: t) (cons_ne_nil s t)
    rw [search, hr]
    cases b with
    | true => exact ⟨true, rfl, iff_of_true rfl (.star [] (hb.1 rfl))⟩
    | false =>
      refine ih.congr (.trans ?_ matches_star_cons.symm)
      exact (or_iff_right fun h => absurd (hb.2 h) Bool.false_ne_true).symm

/-- What is no wildcard needs a text, unless it is an escape character at the end. -/
theorem tried_needs_text (hall : role esc c ≠ .all) (hone : role esc c ≠ .one)
    (hdangling : .dangling ∉ sites esc .normal true (c :: ps)) :
    ¬Matches (Same key) (tried esc .normal (c :: ps)) [] := by
  intro h
  have hstar := matches_nil_right.1 h
  simp only [tried, sites] at hstar hdangling
  cases hr : role esc c with
  | all => exact hall hr
  | one => exact hone hr
  | ordinary =>
    rw [hr] at hstar
    exact nomatch hstar (.lit c) mem_cons_self
  | escape =>
    rw [hr] at hstar hdangling
    cases ps with
    | nil => exact hdangling mem_cons_self
    | cons d ps => exact nomatch hstar (.lit d) mem_cons_self

theorem mem_direct {onText : Bool} : .direct c ∈ direct onText c ↔ onText = false := by
  cases onText <;> simp [direct]

/-- **The matcher decides whether the items it tries match**, when every code point that is compared
    at the end of a text differs from the terminator and no escape character dangles. -/
theorem like_tried [DecidableEq κ] (m : Mode) (onText : Bool) (T) (hT : onText = true → T ≠ [])
    (hdirect : ∀ c, .direct c ∈ sites esc m onText ps → key c ≠ key 0)
    (hdangling : .dangling ∉ sites esc m onText ps) :
    Answers (like key esc m ps (some T)) (Matches (Same key) (m.front ++ tried esc m ps) T) := by
  induction m, onText, ps using rounds key esc generalizing T with
  | nil m =>
    cases m with
    | normal | escaped => exact ⟨_, rfl, by simp [Mode.front, tried, matches_nil_left]⟩
    | run =>
      refine ⟨true, rfl, iff_of_true rfl ?_⟩
      exact matches_star.2 ⟨T, [], (append_nil T).symm, .nil⟩
  | same hm hlike htried hsites ih =>
    rw [hsites] at hdirect hdangling
    rw [hlike, htried]
    exact (ih T hT hdirect hdangling).congr (matches_front hm).symm
  | @any m _ _ _ hlike htried hsites ih =>
    rw [hlike, htried]
    exact skipOne_answers m fun t => ih t nofun (fun d hd => hdirect d ((hsites (.direct d) nofun).2 hd))
      fun h => hdangling ((hsites .dangling nofun).2 h)
  | @ordinary _ _ c _ hm hlike htried hsites ih =>
    rw [hsites] at hdirect hdangling
    rw [hlike, htried, hm]
    refine compareOne_answers (fun hnil => ?_) fun t => ?_
    · refine hdirect c (mem_append_left _ (mem_direct.2 ?_))
      exact Bool.eq_false_iff.2 fun h => hT h hnil
    exact ih t nofun (fun d hd => hdirect d (mem_append_right _ hd))
      fun h => hdangling (mem_append_right _ h)
  | searched hall hone hlike htried hsites ih =>
    rw [hsites] at hdirect hdangling
    rw [hlike, htried]
    exact search_answers (tried_needs_text hall hone hdangling)
      fun t ht => ih t (fun _ => ht) hdirect hdangling

end Answers

/-! ## 4. Behind the end of the text -/

section Overrun

variable {κ : Type*} [DecidableEq κ] {key : Nat → κ} {esc c : Nat} {ps : List Nat}

/-- With the terminator consumed, the matcher reads outside or says that the text matches. -/
theorem like_none (m : Mode) : like key esc m ps none ≠ some false := by
  induction m, true, ps using rounds key esc with
  | nil m => cases m <;> exact nofun
  | same _ hlike _ _ ih => exact hlike ▸ ih
  | any hlike | ordinary _ hlike | searched _ _ hlike =>
    rw [hlike]
    exact nofun

def goneB (key : Nat → κ) (c : Nat) : Bool := decide (key c = key 0)

/-- A text that ends where the pattern still has a code point of which nothing is left: it is not
    refused, and too short. -/
structure Overrun (key : Nat → κ) (esc x : Nat) (m : Mode) (onText : Bool) (ps T : List Nat) : Prop where
  made : ∀ s ∈ T, s = x ∨ s ∈ ps
  onText : onText = true → T ≠ []
  passes : like key esc m ps (some T) ≠ some false
  short : T.countP (goneB key) < (lits (tried esc m ps)).countP (goneB key)

theorem lits_front (m : Mode) (p : List (Item Nat)) : lits (m.front ++ p) = lits p := by
  cases m <;> rfl

theorem lits_lit (c) (p : List (Item Nat)) : lits (.lit c :: p) = c :: lits p := rfl

/-- **A code point of which nothing is left overruns a text.** -/
theorem like_overrun {x : Nat} (hx : key x ≠ key 0) {d : Nat} (hd : key d = key 0) (m : Mode)
    (onText : Bool) (hmem : .direct d ∈ sites esc m onText ps) :
    ∃ T, Overrun key esc x m onText ps T := by
  -- what the text is made of, in the rest of the pattern and in the pattern
  have hmade : ∀ {c ps} {T : List Nat}, (∀ s ∈ T, s = x ∨ s ∈ ps) → ∀ s ∈ T, s = x ∨ s ∈ c :: ps :=
    fun h s hs => (h s hs).imp_right (mem_cons_of_mem _)
  induction m, onText, ps using rounds key esc with
  | nil m onText => cases m <;> cases onText <;> simp [sites] at hmem
  | same _ hlike htried hsites ih =>
    obtain ⟨T, h⟩ := ih (hsites ▸ hmem)
    exact ⟨T, hmade h.made, h.onText, hlike ▸ h.passes, by rw [htried, lits_front]; exact h.short⟩
  | any hlike htried hsites ih =>
    -- the wildcard takes `x`
    obtain ⟨T, h⟩ := ih ((hsites (.direct d) nofun).1 hmem)
    refine ⟨x :: T, forall_mem_cons.2 ⟨.inl rfl, hmade h.made⟩, fun _ => cons_ne_nil x T,
      hlike ▸ h.passes, ?_⟩
    rw [htried, countP_cons_of_neg (by simpa [goneB] using hx)]
    exact h.short
  | @ordinary _ onText c _ _ hlike htried hsites ih =>
    rw [hsites] at hmem
    rcases mem_append.1 hmem with hhere | hrest
    · -- the text ends here
      cases onText with
      | true => simp [direct] at hhere
      | false =>
        obtain rfl : d = c := by simpa [direct] using hhere
        refine ⟨[], forall_mem_nil _, nofun, ?_, ?_⟩
        · rw [hlike, compareOne, if_pos hd.symm]
          exact like_none .normal
        · rw [htried, lits_lit, countP_cons_of_pos (by simpa [goneB] using hd)]
          exact Nat.succ_pos _
    -- the code point takes itself
    obtain ⟨T, h⟩ := ih hrest
    refine ⟨c :: T, forall_mem_cons.2 ⟨.inr mem_cons_self, hmade h.made⟩,
      fun _ => cons_ne_nil c T, ?_, ?_⟩
    · rw [hlike, compareOne, if_pos rfl]
      exact h.passes
    · rw [htried, lits_lit, countP_cons, countP_cons]
      exact Nat.add_lt_add_right h.short _
  | searched _ _ hlike htried hsites ih =>
    obtain ⟨T, h⟩ := ih (hsites ▸ hmem)
    refine ⟨T, h.made, fun _ => h.onText rfl, ?_, htried ▸ h.short⟩
    -- the search begins with the whole text
    obtain ⟨s, t, rfl⟩ := exists_cons_of_ne_nil (h.onText rfl)
    rw [hlike, Option.bind_some, search]
    intro hfalse
    split at hfalse
    · exact h.passes ‹_›
    · exact h.passes hfalse

end Overrun

/-! ## 5. An escape character that dangles -/

section Dangling

variable {κ : Type*} [DecidableEq κ] {key : Nat → κ} {esc c : Nat} {ps : List Nat}
  {k : Option (List Nat) → Option Bool}

theorem compareOne_ne_true (hk : ∀ text, k text ≠ some true) (text : Option (List Nat)) :
    compareOne key c k text ≠ some true := by
  rcases text with _ | _ | ⟨s, t⟩
  · simp [compareOne]
  all_goals
    rw [compareOne]
    split
    · exact hk _
    · simp

theorem skipOne_ne_true (hk : ∀ text, k text ≠ some true) (text : Option (List Nat)) :
    skipOne k text ≠ some true := by
  match text with
  | none => exact nofun
  | some [] => exact nofun
  | some (s :: t) => exact hk (some t)

theorem search_ne_true {f : List Nat → Option Bool} (hf : ∀ t, t ≠ [] → f t ≠ some true)
    (T : List Nat) : search f T ≠ some true := by
  induction T with
  | nil => exact nofun
  | cons s t ih =>
    rw [search]
    split
    · exact ih
    · exact hf (s :: t) (cons_ne_nil s t)

/-- **Behind a match-all an escape character at the end is found nowhere.** -/
theorem like_dangling (m : Mode) (onText : Bool) (hmem : .dangling ∈ sites esc m onText ps)
    (text : Option (List Nat)) (htext : onText = true → text ≠ some []) :
    like key esc m ps text ≠ some true := by
  induction m, onText, ps using rounds key esc generalizing text with
  | nil m onText =>
    cases m with
    | normal | run => simp [sites] at hmem
    | escaped =>
      cases onText with
      | false => simp [sites] at hmem
      | true =>
        match text with
        | none => exact nofun
        | some [] => exact absurd rfl (htext rfl)
        | some (s :: t) => exact nofun
  | same _ hlike _ hsites ih => exact hlike ▸ ih (hsites ▸ hmem) text htext
  | any hlike _ hsites ih =>
    rw [hlike]
    exact skipOne_ne_true (fun text => ih ((hsites .dangling nofun).1 hmem) text nofun) text
  | @ordinary _ onText c _ _ hlike _ hsites ih =>
    have hrest := (mem_append.1 (hsites ▸ hmem)).resolve_left (by cases onText <;> simp [direct])
    rw [hlike]
    exact compareOne_ne_true (fun text => ih hrest text nofun) text
  | searched _ _ hlike _ hsites ih =>
    rw [hlike]
    cases text with
    | none => exact nofun
    | some T =>
      exact search_ne_true (fun t ht => ih (hsites ▸ hmem) (some t) fun _ h => ht (Option.some.inj h)) T

end Dangling

end MegaSdk.Like
