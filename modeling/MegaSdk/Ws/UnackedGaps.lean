/-
  File:      MegaSdk/Ws/UnackedGaps.lean
  Subject:   THE CHUNKS THAT A RECOVERY SENDS AGAIN: `collectUnackedGapChunks`
             (ws_upload_file.cpp), against the lattice of chunks.

  * `collectUnackedGapChunks` -- the code: what `[0, mHeadPos)` has outside the acked intervals, cut
    at the chunk boundaries;
  * `Coalesced`, `coalesced_markRangeAcked` -- the acked intervals are in order and apart, and hold
    exactly the bytes that were acked;
  * `collectUnackedGapChunks_eq` -- so the code collects exactly the chunks of the lattice up to the
    head position that were not acked in this attempt;
  * **`collectUnackedGapChunks_iff`** -- which is what is missing exactly when the chunks of the
    prefix that was confirmed before a resume have all been acked again: the prefix is counted in
    `mBytesConfirmed` but in no interval.
-/
import MegaSdk.Ws.Transfer

namespace MegaSdk.Ws

open List

/-! ## 1. The code -/

def resendChunk (fileno : Nat) (r : Nat × Nat) : WsChunk := { pos := r.1, len := r.2, fileno := fileno }

/-- `appendRange`; every chunk has a byte, so `g1 - g0` rounds are enough. -/
def appendRange (fileno : Nat) : Nat → Nat → Nat → List WsChunk
  | 0, _, _ => []
  | k + 1, g0, g1 =>
    if g0 < g1 then
      let len := min (chunkSizeAtPosition g0) (g1 - g0)
      -- never advance by 0
      if len = 0 then []
      else resendChunk fileno (g0, len) :: appendRange fileno k (g0 + len) g1
    else []

/-- The loop of `collectUnackedGapChunks` over the intervals, and what is behind the last. -/
def collectFrom (fileno mHeadPos : Nat) : Nat → List (Nat × Nat) → List WsChunk
  | cursor, [] =>
    if cursor < mHeadPos then appendRange fileno (mHeadPos - cursor) cursor mHeadPos else []
  | cursor, iv :: l =>
    if cursor ≥ mHeadPos then []
    else
      (if iv.1 > cursor then
        appendRange fileno (min iv.1 mHeadPos - cursor) cursor (min iv.1 mHeadPos) else []) ++
      collectFrom fileno mHeadPos (if iv.2 > cursor then iv.2 else cursor) l

/-- `collectUnackedGapChunks`: what it appends. -/
def WsUploadFile.collectUnackedGapChunks (f : WsUploadFile) (fileno : Nat) : List WsChunk :=
  collectFrom fileno f.mHeadPos 0 f.mAckedIntervals

/-! ## 2. The acked intervals -/

variable {r : Nat × Nat}

/-- Intervals that are not empty, in order, and do not touch. -/
structure Coalesced (l : List (Nat × Nat)) : Prop where
  nonempty : ∀ a ∈ l, a.1 < a.2
  apart : l.Pairwise fun a b => a.2 < b.1

theorem Coalesced.nil : Coalesced [] := ⟨nofun, .nil⟩

theorem coalesced_cons {iv : Nat × Nat} {l : List (Nat × Nat)} :
    Coalesced (iv :: l) ↔ iv.1 < iv.2 ∧ (∀ a ∈ l, iv.2 < a.1) ∧ Coalesced l := by
  constructor
  · intro ⟨h1, h2⟩
    obtain ⟨h3, h4⟩ := pairwise_cons.1 h2
    exact ⟨h1 iv mem_cons_self, h3, fun a ha => h1 a (mem_cons_of_mem _ ha), h4⟩
  intro ⟨h1, h2, h3, h4⟩
  refine ⟨fun a ha => ?_, pairwise_cons.2 ⟨h2, h4⟩⟩
  rcases mem_cons.1 ha with rfl | ha
  · exact h1
  · exact h3 a ha

section Mark

variable {iv ins : Nat × Nat} {l : List (Nat × Nat)}

theorem ends_mergeForward {P Q : Nat → Prop} (h : ∀ a ∈ l, P a.1 ∧ Q a.2) (h1 : P iv.1)
    (h2 : Q iv.2) : ∀ a ∈ mergeForward iv l, P a.1 ∧ Q a.2 := by
  induction l generalizing iv with
  | nil =>
    intro a ha
    rw [mem_singleton.1 ha]
    exact ⟨h1, h2⟩
  | cons next l ih =>
    rw [mergeForward]
    obtain ⟨hnext, hl⟩ := forall_mem_cons.1 h
    split
    · refine ih hl h1 ?_
      rcases le_total iv.2 next.2 with hle | hle
      · rw [max_eq_right hle]
        exact hnext.2
      · rwa [max_eq_left hle]
    · exact forall_mem_cons.2 ⟨⟨h1, h2⟩, h⟩

theorem ends_insertAckedFrom {P Q : Nat → Prop} (h1 : P ins.1) (h2 : Q ins.2) :
    ∀ {l : List (Nat × Nat)} {prev : Option (Nat × Nat)},
      (∀ a ∈ prev.toList ++ l, P a.1 ∧ Q a.2) → ∀ a ∈ insertAckedFrom ins prev l, P a.1 ∧ Q a.2 := by
  have hplace : ∀ {l : List (Nat × Nat)} {prev : Option (Nat × Nat)},
      (∀ a ∈ prev.toList ++ l, P a.1 ∧ Q a.2) → ∀ a ∈ insertAcked ins prev l, P a.1 ∧ Q a.2 := by
    intro l prev h
    cases prev with
    | none => exact ends_mergeForward h h1 h2
    | some p =>
      obtain ⟨hp, hl⟩ := forall_mem_cons.1 h
      rw [insertAcked]
      split
      · refine ends_mergeForward hl hp.1 ?_
        rcases le_total p.2 ins.2 with hle | hle
        · rwa [max_eq_right hle]
        · rw [max_eq_left hle]
          exact hp.2
      · exact forall_mem_cons.2 ⟨hp, ends_mergeForward hl h1 h2⟩
  intro l
  induction l with
  | nil => exact hplace
  | cons iv l ih =>
    intro prev h
    rw [insertAckedFrom]
    split
    · intro a ha
      rcases mem_append.1 ha with ha | ha
      · exact h a (mem_append_left _ ha)
      · exact @ih (some iv) (fun b hb => h b (mem_append_right _ hb)) a ha
    · exact hplace h

theorem coalesced_mergeForward (hiv : iv.1 < iv.2) (hl : Coalesced l) (hle : ∀ a ∈ l, iv.1 ≤ a.1) :
    Coalesced (mergeForward iv l) ∧
      ∀ b, InIntervals (mergeForward iv l) b ↔ (iv.1 ≤ b ∧ b < iv.2) ∨ InIntervals l b := by
  induction l generalizing iv with
  | nil => exact ⟨coalesced_cons.2 ⟨hiv, nofun, .nil⟩, fun b => by
      simp [mergeForward]⟩
  | cons next l ih =>
    obtain ⟨hne, hapart, hrest⟩ := coalesced_cons.1 hl
    have hnext := hle next mem_cons_self
    rw [mergeForward]
    split_ifs with hreach
    · obtain ⟨h1, h2⟩ := @ih (iv.1, max iv.2 next.2) (by simp only; omega) hrest
        fun a ha => hle a (mem_cons_of_mem _ ha)
      refine ⟨h1, fun b => ?_⟩
      rw [h2 b, inIntervals_cons, ← or_assoc]
      refine or_congr ?_ .rfl
      omega
    refine ⟨coalesced_cons.2 ⟨hiv, fun a ha => ?_, hl⟩, fun b => inIntervals_cons ..⟩
    rcases mem_cons.1 ha with rfl | ha
    · omega
    · have := hapart a ha
      omega

theorem coalesced_insertAcked {prev : Option (Nat × Nat)} (hins : ins.1 < ins.2)
    (hl : Coalesced (prev.toList ++ l)) (hprev : ∀ p ∈ prev, p.1 < ins.1)
    (hle : ∀ a ∈ l, ins.1 ≤ a.1) :
    Coalesced (insertAcked ins prev l) ∧
      ∀ b, InIntervals (insertAcked ins prev l) b ↔
        (ins.1 ≤ b ∧ b < ins.2) ∨ InIntervals (prev.toList ++ l) b := by
  cases prev with
  | none => exact coalesced_mergeForward hins hl hle
  | some p =>
    have hp := hprev p rfl
    rw [Option.toList_some, singleton_append] at hl ⊢
    obtain ⟨hne, hapart, hrest⟩ := coalesced_cons.1 hl
    rw [insertAcked]
    split_ifs with htouch
    · have hiv : (p.1, max p.2 ins.2).1 < (p.1, max p.2 ins.2).2 := by
        omega
      obtain ⟨h1, h2⟩ := coalesced_mergeForward hiv hrest fun a ha =>
        hp.le.trans (hle a ha)
      refine ⟨h1, fun b => ?_⟩
      rw [h2 b, inIntervals_cons, ← or_assoc]
      refine or_congr ?_ .rfl
      omega
    · obtain ⟨h1, h2⟩ := coalesced_mergeForward hins hrest hle
      have hlow := ends_mergeForward (Q := fun _ => True)
        (fun a ha => ⟨hapart a ha, trivial⟩) (not_le.1 htouch) trivial
      refine ⟨coalesced_cons.2 ⟨hne, fun a ha => (hlow a ha).1, h1⟩, fun b => ?_⟩
      rw [inIntervals_cons, h2 b, inIntervals_cons]
      exact or_left_comm

theorem coalesced_insertAckedFrom (hins : ins.1 < ins.2) :
    ∀ {l : List (Nat × Nat)} {prev : Option (Nat × Nat)}, Coalesced (prev.toList ++ l) →
      (∀ p ∈ prev, p.1 < ins.1) →
      Coalesced (insertAckedFrom ins prev l) ∧
        ∀ b, InIntervals (insertAckedFrom ins prev l) b ↔
          (ins.1 ≤ b ∧ b < ins.2) ∨ InIntervals (prev.toList ++ l) b := by
  intro l
  induction l with
  | nil =>
    intro prev hl hprev
    exact coalesced_insertAcked hins hl hprev nofun
  | cons iv l ih =>
    intro prev hl hprev
    rw [insertAckedFrom]
    split_ifs with hlt
    · have hrest : Coalesced (iv :: l) := by
        cases prev with
        | none => exact hl
        | some p => exact (coalesced_cons.1 hl).2.2
      obtain ⟨h1, h2⟩ := @ih (some iv) hrest fun p hp => by
        cases hp
        exact hlt
      cases prev with
      | none => exact ⟨h1, h2⟩
      | some p =>
        obtain ⟨hne, hapart, -⟩ := coalesced_cons.1 hl
        have hfirst := hapart iv mem_cons_self
        have hlow := @ends_insertAckedFrom ins (fun x => p.2 < x) (fun _ => True) (by omega)
          trivial l (some iv) fun a ha => ⟨hapart a ha, trivial⟩
        refine ⟨coalesced_cons.2 ⟨hne, fun a ha => (hlow a ha).1, h1⟩, fun b => ?_⟩
        rw [Option.toList_some, singleton_append, inIntervals_cons, h2 b,
          singleton_append, inIntervals_cons p]
        exact or_left_comm
    refine coalesced_insertAcked hins hl hprev fun a ha => ?_
    rcases mem_cons.1 ha with rfl | ha
    · omega
    have hrest : Coalesced (iv :: l) := by
      cases prev with
      | none => exact hl
      | some p => exact (coalesced_cons.1 hl).2.2
    obtain ⟨hne, hapart, -⟩ := coalesced_cons.1 hrest
    have := hapart a ha
    omega

/-- **The acked intervals hold exactly what was acked**, and stay in order and apart. -/
theorem coalesced_markRangeAcked (begin_ end_ : Nat) (hl : Coalesced l) :
    Coalesced (markRangeAcked begin_ end_ l) ∧
      ∀ b, InIntervals (markRangeAcked begin_ end_ l) b ↔
        (begin_ ≤ b ∧ b < end_) ∨ InIntervals l b := by
  unfold markRangeAcked
  split
  · refine ⟨hl, fun b => ⟨.inr, fun h => h.resolve_left fun hb => ?_⟩⟩
    omega
  · rename_i hlt
    exact @coalesced_insertAckedFrom (begin_, end_) (not_le.1 hlt) l none hl nofun

/-- The intervals after the ranges `acked` have been acked, in any order. -/
def markAll (acked : List (Nat × Nat)) : List (Nat × Nat) :=
  acked.foldl (fun l r => markRangeAcked r.1 (r.1 + r.2) l) []

section

variable (acked : List (Nat × Nat))

theorem markAll_append (r) :
    markAll (acked ++ [r]) = markRangeAcked r.1 (r.1 + r.2) (markAll acked) := by
  simp [markAll]

theorem coalesced_markAll : Coalesced (markAll acked) ∧
    ∀ b, InIntervals (markAll acked) b ↔ ∃ r ∈ acked, Covers r b := by
  induction acked using List.reverseRecOn with
  | nil => exact ⟨.nil, fun b => by simp [markAll]⟩
  | append_singleton acked r ih =>
    rw [markAll_append]
    obtain ⟨h1, h2⟩ := coalesced_markRangeAcked r.1 (r.1 + r.2) ih.1
    refine ⟨h1, fun b => ?_⟩
    rw [h2 b, ih.2 b]
    simp only [mem_append, mem_singleton, or_and_right, exists_or, exists_eq_left]
    exact or_comm

theorem coveredByOne_of_cover {b e : Nat} (hbe : b < e) (hl : Coalesced l)
    (h : ∀ x, b ≤ x → x < e → InIntervals l x) : coveredByOne b e l := by
  induction l with
  | nil => exact absurd (h b le_rfl hbe) (inIntervals_nil b)
  | cons iv l ih =>
    obtain ⟨hne, hapart, hrest⟩ := coalesced_cons.1 hl
    -- what `iv` does not reach lies in `l`, so behind a gap
    have hlater : ∀ x, b ≤ x → x < e → ¬ (iv.1 ≤ x ∧ x < iv.2) → InIntervals l x ∧ iv.2 < x := by
      intro x hb he hx
      obtain ⟨a, ha, hax⟩ := ((inIntervals_cons ..).1 (h x hb he)).resolve_left hx
      exact ⟨⟨a, ha, hax⟩, (hapart a ha).trans_le hax.1⟩
    rw [coveredByOne]
    split_ifs with h1 h2
    · rfl
    · have := (hlater b le_rfl hbe (by omega)).2
      omega
    · refine ih hrest fun x hb he => (hlater x hb he fun hx => ?_).1
      have := (hlater iv.2 (by omega) (by omega) (by omega)).2
      omega

/-- **A range is fully acked exactly when each of its bytes was**, whatever ranges were. -/
theorem rangeFullyAcked_iff (b e) : rangeFullyAcked b e (markAll acked) ↔
    ∀ x, b ≤ x → x < e → ∃ r ∈ acked, Covers r x := by
  obtain ⟨hc, hin⟩ := coalesced_markAll acked
  simp only [← hin]
  refine ⟨fun h x hb he => inIntervals_of_rangeFullyAcked h ⟨hb, he⟩, fun h => ?_⟩
  rw [rangeFullyAcked]
  split_ifs with hle
  · rfl
  · exact coveredByOne_of_cover (not_le.1 hle) hc h

theorem ends_markAll {P Q : Nat → Prop}
    (h : ∀ r ∈ acked, P r.1 ∧ Q (r.1 + r.2)) : ∀ a ∈ markAll acked, P a.1 ∧ Q a.2 := by
  induction acked using List.reverseRecOn with
  | nil => exact nofun
  | append_singleton acked r ih =>
    have hr := h r (by simp)
    have hrest := ih fun x hx => h x (mem_append_left _ hx)
    rw [markAll_append, markRangeAcked]
    split
    · exact hrest
    · exact @ends_insertAckedFrom (r.1, r.1 + r.2) P Q hr.1 hr.2 (markAll acked) none hrest

end

end Mark

/-! ## 3. The lattice -/

variable {size mHeadPos fileno g0 g1 : Nat}

/-- What `appendRange` appends are the chunks of a file that ends at `g1`. -/
theorem appendRange_eq (fileno) : ∀ (k g0 g1 : Nat),
    appendRange fileno k g0 g1 = (fileChunksFrom g1 k g0).map (resendChunk fileno)
  | 0, _, _ => rfl
  | k + 1, g0, g1 => by
      rw [appendRange, fileChunksFrom]
      by_cases h : g0 < g1
      · have hlen : min (chunkSizeAtPosition g0) (g1 - g0) = wsFreshChunkAdvance g0 g1 := by
          unfold wsFreshChunkAdvance
          omega
        have hpos := wsFreshChunkAdvance_pos h
        simp only [if_pos h, if_neg h.not_ge, hlen]
        rw [if_neg (by omega), appendRange_eq, map_cons]
      · rw [if_neg h, if_pos (not_lt.1 h)]
        rfl

theorem advance_eq {p : Nat} (hp : ∃ e, IsChunk p e) (h1 : AtChunk size g1) (hlt : p < g1)
    (hle : g1 ≤ size) : wsFreshChunkAdvance p g1 = wsFreshChunkAdvance p size := by
  obtain ⟨e, he⟩ := hp
  rcases h1 with rfl | ⟨e1, he1⟩
  · rfl
  have hstart := he.le_of_lt he1 (by exact_mod_cast hlt)
  have hadv := advance_of_isChunk he hlt
  have hadv' := advance_of_isChunk he (lt_of_lt_of_le hlt hle)
  omega

/-- A chunk that begins before a boundary ends there at the latest. -/
theorem end_le_of_lt (hr : r ∈ fileChunks size) (h1 : AtChunk size g1) (hlt : r.1 < g1)
    (hle : g1 ≤ size) : r.1 + r.2 ≤ g1 := by
  obtain ⟨hchunk, -, hlen⟩ := mem_fileChunks.1 hr
  rw [hlen, ← advance_eq hchunk h1 hlt hle]
  exact wsFreshChunkAdvance_le hlt.le

theorem mem_chunksBetween (h0 : AtChunk size g0) (h1 : AtChunk size g1) (hlt : g0 < g1)
    (hle : g1 ≤ size) :
    r ∈ fileChunksFrom g1 (g1 - g0) g0 ↔ r ∈ fileChunks size ∧ g0 ≤ r.1 ∧ r.1 < g1 := by
  have hchunk := h0.resolve_left (by omega)
  rw [mem_fileChunksFrom (.inr hchunk) (by omega), mem_fileChunks]
  constructor
  · intro ⟨hge, hr, hr1, hlen⟩
    exact ⟨⟨hr, by omega, hlen.trans (advance_eq hr h1 hr1 hle)⟩, hge, hr1⟩
  · intro ⟨⟨hr, _, hlen⟩, hge, hr1⟩
    exact ⟨hge, hr, hr1, hlen.trans (advance_eq hr h1 hr1 hle).symm⟩

/-- A boundary of the lattice, up to the head position. -/
def Boundary (size mHeadPos p : Nat) : Prop := AtChunk size p ∧ p ≤ mHeadPos

/-- **What the loop collects**: the chunks from the cursor up to the head position that are in no
    interval, in order. -/
theorem collectFrom_spec (fileno) (hhead : AtChunk size mHeadPos) (hsize : mHeadPos ≤ size) :
    ∀ {l : List (Nat × Nat)} {cursor : Nat}, Coalesced l →
      (∀ a ∈ l, Boundary size mHeadPos a.1 ∧ Boundary size mHeadPos a.2) → (∀ a ∈ l, cursor ≤ a.1) →
      Boundary size mHeadPos cursor →
      ∃ rs : List (Nat × Nat), collectFrom fileno mHeadPos cursor l = rs.map (resendChunk fileno) ∧
        (rs.Pairwise fun a b => a.1 < b.1) ∧
        ∀ r, r ∈ rs ↔ r ∈ fileChunks size ∧ cursor ≤ r.1 ∧ r.1 < mHeadPos ∧ ¬ InIntervals l r.1 := by
  intro l
  induction l with
  | nil =>
    intro cursor _ _ _ hcur
    rw [collectFrom]
    split_ifs with hlt
    · refine ⟨_, appendRange_eq .., pairwise_fileChunksFrom.2, fun r => ?_⟩
      rw [mem_chunksBetween hcur.1 hhead hlt hsize]
      simp
    refine ⟨[], rfl, .nil, fun r => ?_⟩
    simp only [not_mem_nil, false_iff]
    omega
  | cons iv l ih =>
    intro cursor hl hends hle hcur
    obtain ⟨hne, hapart, hrest⟩ := coalesced_cons.1 hl
    obtain ⟨⟨hb1, hb2⟩, hendsl⟩ := forall_mem_cons.1 hends
    have hle1 := hle iv mem_cons_self
    rw [collectFrom]
    split
    · rename_i hge
      refine ⟨[], rfl, .nil, fun r => ?_⟩
      simp only [not_mem_nil, false_iff]
      omega
    rw [if_pos (show iv.2 > cursor by omega), min_eq_left hb1.2]
    obtain ⟨rs, hrs, hsorted, hmem⟩ := ih hrest hendsl (fun a ha => (hapart a ha).le) hb2
    -- the intervals behind `iv` begin behind it
    have hout : ∀ p, p < iv.1 → ¬ InIntervals l p := fun p hp ⟨a, ha, h1, h2⟩ => by
      have := hapart a ha
      omega
    by_cases hgap : iv.1 > cursor
    · rw [if_pos hgap, appendRange_eq, hrs, ← map_append]
      have hfirst : ∀ r, r ∈ fileChunksFrom iv.1 (iv.1 - cursor) cursor ↔
          r ∈ fileChunks size ∧ cursor ≤ r.1 ∧ r.1 < iv.1 := fun r =>
        mem_chunksBetween hcur.1 hb1.1 hgap (hb1.2.trans hsize)
      refine ⟨_, rfl, pairwise_append.2 ⟨pairwise_fileChunksFrom.2, hsorted,
        fun a ha b hb => ?_⟩, fun r => ?_⟩
      · have h1 := (hfirst a).1 ha
        have h2 := (hmem b).1 hb
        omega
      have := hb1.2
      have hr := hout r.1
      rw [mem_append, hfirst, hmem, inIntervals_cons]
      constructor
      · rintro (⟨h1, h2, h3⟩ | ⟨h1, h2, h3, h4⟩)
        · exact ⟨h1, h2, by omega, fun h => h.elim (fun h => by omega) (hr h3)⟩
        · exact ⟨h1, by omega, h3, fun h => h.elim (fun h => by omega) h4⟩
      rintro ⟨h1, h2, h3, h4⟩
      rw [not_or] at h4
      rcases lt_or_ge r.1 iv.1 with hlt | hge'
      · exact .inl ⟨h1, h2, hlt⟩
      · exact .inr ⟨h1, by omega, h3, h4.2⟩
    -- the interval begins at the cursor
    rw [if_neg hgap, hrs]
    refine ⟨rs, rfl, hsorted, fun r => ?_⟩
    rw [hmem, inIntervals_cons, not_or]
    constructor
    · rintro ⟨h1, h2, h3, h4⟩
      exact ⟨h1, by omega, h3, by omega, h4⟩
    · rintro ⟨h1, h2, h3, h4, h5⟩
      exact ⟨h1, by omega, h3, h5⟩

theorem eq_of_sorted {l l' : List (Nat × Nat)} (h : l.Pairwise fun a b => a.1 < b.1)
    (h' : l'.Pairwise fun a b => a.1 < b.1) (hmem : ∀ r, r ∈ l ↔ r ∈ l') : l = l' := by
  refine List.Perm.eq_of_pairwise (fun a b _ _ h1 h2 => absurd h1 h2.le.not_gt) h h' ?_
  refine (perm_ext_iff_of_nodup (h.imp ?_) (h'.imp ?_)).2 hmem <;>
  · rintro a b hlt rfl
    exact lt_irrefl _ hlt

/-! ## 4. What is collected, and what is missing -/

/-- The chunks of the file that are sent, not in `acked` and not in the first `confirmed` bytes. -/
def missingChunks (f : WsUploadFile) (acked : List (Nat × Nat)) (confirmed : Nat) :
    List (Nat × Nat) :=
  (fileChunks f.mSize).filter fun r =>
    r.1 + r.2 ≤ f.mHeadPos ∧ r ∉ acked ∧ ¬ r.1 + r.2 ≤ confirmed

section Collect

variable {f : WsUploadFile} {acked : List (Nat × Nat)}

/-- An upload of which the chunks `acked` have been acked in this attempt: the head position is at a
    chunk of the lattice or at the end of the file. -/
structure AckedChunks (f : WsUploadFile) (acked : List (Nat × Nat)) : Prop where
  head : AtChunk f.mSize f.mHeadPos ∧ f.mHeadPos ≤ f.mSize
  intervals : f.mAckedIntervals = markAll acked
  chunks : ∀ r ∈ acked, r ∈ fileChunks f.mSize ∧ r.1 + r.2 ≤ f.mHeadPos

/-- **`collectUnackedGapChunks`** collects the chunks up to the head position that were not acked in
    this attempt, each once and as they were sent. -/
theorem collectUnackedGapChunks_eq (h : AckedChunks f acked) (fileno) :
    f.collectUnackedGapChunks fileno = (missingChunks f acked 0).map (resendChunk fileno) := by
  obtain ⟨⟨hhead, hsize⟩, hiv, hchunks⟩ := h
  obtain ⟨hco, hin⟩ := coalesced_markAll acked
  have hends : ∀ a ∈ markAll acked, Boundary f.mSize f.mHeadPos a.1 ∧ Boundary f.mSize f.mHeadPos a.2 :=
    ends_markAll acked fun r hr => by
      obtain ⟨hr1, hr2⟩ := hchunks r hr
      obtain ⟨hchunk, hlt, hlen⟩ := mem_fileChunks.1 hr1
      refine ⟨⟨.inr hchunk, by omega⟩, ?_, hr2⟩
      rw [hlen]
      exact AtChunk.advance (.inr hchunk) hlt
  obtain ⟨rs, hrs, hsorted, hmem⟩ := collectFrom_spec fileno hhead hsize hco hends
    (fun a _ => Nat.zero_le _) ⟨atChunk_zero _, Nat.zero_le _⟩
  have hcollect : f.collectUnackedGapChunks fileno = rs.map (resendChunk fileno) := by
    unfold WsUploadFile.collectUnackedGapChunks
    rw [hiv, hrs]
  rw [hcollect]
  congr 1
  refine eq_of_sorted hsorted ((pairwise_fileChunks _).filter _) fun r => ?_
  rw [hmem, missingChunks, mem_filter, hin]
  refine and_congr_right fun hr => ?_
  have hpos := fileChunks_len_pos hr
  -- a chunk that shares its first byte with an acked one is that one
  have hacked : (∃ x ∈ acked, Covers x r.1) ↔ r ∈ acked := by
    constructor
    · intro ⟨x, hx, hc⟩
      have hxr := fileChunks_unique (hchunks x hx).1 hr hc ⟨le_rfl, by omega⟩
      exact hxr ▸ hx
    · exact fun hx => ⟨r, hx, le_rfl, by omega⟩
  rw [hacked, decide_eq_true_eq]
  constructor
  · intro ⟨_, h2, h3⟩
    exact ⟨end_le_of_lt hr hhead h2 hsize, h3, by omega⟩
  · intro ⟨h1, h2, _⟩
    exact ⟨Nat.zero_le _, by omega, h2⟩

theorem resendChunk_injective (fileno) : Function.Injective (resendChunk fileno) := by
  intro a b h
  have h1 : a.1 = b.1 := congrArg WsChunk.pos h
  have h2 : a.2 = b.2 := congrArg WsChunk.len h
  exact Prod.ext h1 h2

/-- **`collectUnackedGapChunks` collects what is missing exactly when every chunk of the prefix that
    was confirmed before the attempt has been acked in it.** Without a resume there is no such
    prefix. -/
theorem collectUnackedGapChunks_iff (h : AckedChunks f acked)
    (hcarry : f.attempt.carry ≤ f.mHeadPos) (fileno : Nat) :
    f.collectUnackedGapChunks fileno =
        (missingChunks f acked f.attempt.carry).map (resendChunk fileno) ↔
      ∀ r ∈ fileChunks f.mSize, r.1 + r.2 ≤ f.attempt.carry → r ∈ acked := by
  rw [collectUnackedGapChunks_eq h]
  constructor
  · intro heq r hr hle
    have hlists := (resendChunk_injective fileno).list_map heq
    by_contra hnot
    have hpos := fileChunks_len_pos hr
    have hin : r ∈ missingChunks f acked 0 := by
      rw [missingChunks, mem_filter, decide_eq_true_eq]
      exact ⟨hr, by omega, hnot, by omega⟩
    rw [hlists, missingChunks, mem_filter, decide_eq_true_eq] at hin
    exact hin.2.2.2 hle
  · intro hall
    congr 1
    refine filter_congr fun r hr => decide_eq_decide.2 ?_
    have hpos := fileChunks_len_pos hr
    refine and_congr_right fun _ => and_congr_right fun hnot => ?_
    exact iff_of_true (by omega) fun hle => hnot (hall r hr hle)

end Collect

/-- An upload of three chunks, resumed behind the first. -/
def resumedUpload : WsUploadFile :=
  Pool.NewUpload.file
    { size := 786432, hasSessionUrl := true, pos := 131072, progresscompleted := 131072 } 0

/-- When the second chunk was handed out and acked, the first one is collected all the same, though
    it is counted already. -/
theorem collectUnackedGapChunks_resumed :
    ({ resumedUpload with
        mHeadPos := 786432, mAckedIntervals := markAll [(131072, 262144)] } :
          WsUploadFile).collectUnackedGapChunks 7 =
      [{ pos := 0, len := 131072, fileno := 7 }, { pos := 393216, len := 393216, fileno := 7 }] ∧
    resumedUpload.mBytesConfirmed = 131072 := by
  decide +kernel

/-- An upload of two chunks that was not resumed, of which the first was acked. -/
def freshUpload : WsUploadFile :=
  { mSize := 393216, mHeadPos := 393216, mAckedIntervals := markAll [(0, 131072)] }

theorem collectUnackedGapChunks_fresh :
    freshUpload.collectUnackedGapChunks 7 = [{ pos := 131072, len := 262144, fileno := 7 }] ∧
    freshUpload.collectUnackedGapChunks 7 =
      (missingChunks freshUpload [(0, 131072)] 0).map (resendChunk 7) := by
  refine ⟨by decide +kernel, (collectUnackedGapChunks_iff ⟨⟨.inl rfl, le_rfl⟩, rfl, fun r hr => ?_⟩
    (Nat.zero_le _) 7).2 fun r hr hle => ?_⟩
  · rw [mem_singleton.1 hr]
    exact ⟨mem_fileChunks.2 ⟨⟨131072, by simp [isChunk_iff]⟩, by decide, by decide⟩, by decide⟩
  have hpos := fileChunks_len_pos hr
  have hcarry : freshUpload.attempt.carry = 0 := rfl
  omega

end MegaSdk.Ws
