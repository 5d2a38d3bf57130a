/-
  File:      MegaSdk/Raid/Runs.lean
  Subject:   EVERY RUN OF RaidBufferManager DELIVERS THE FILE, from the resume position on.

  * `Allowed` -- what the six connections supply: the next stretch of a part, null for the unused
    one; `Intended` -- how the callers do it: pieces of at most 2^28 bytes, and none after the end;
  * **`delivered_of_run`** -- in every run of such calls the outputs are the file from the resume
    position to the point reached, and no call stops at an assertion;
  * `delivered_twice` -- after the last, incomplete line `raidpartspos` still points before it:
    when connections are switched then and the line is submitted again, it is delivered again.
-/
import MegaSdk.Base.Loop
import MegaSdk.Raid.Combine

namespace MegaSdk.Raid

open Base RaidBufferManager Function Option

variable {c : Nat} {ec : Part → Nat} {st : Part → Bool} {a : Nat → Option FilePiece}
  {s' : RaidBufferManager}

/-! ## 1. Calls -/

def RaidBufferManager.outputBytes (s : RaidBufferManager) : List UInt8 :=
  s.delivered.flatMap FilePiece.bytes

/-- The bytes of a piece are those of the part; null pieces are for the unused connection. -/
def Supplies (file : List UInt8) (s : RaidBufferManager) (c : Part) (piece : FilePiece) : Prop :=
  match piece.buf with
  | .null _ => c.val = s.unusedRaidConnection
  | .data b => b = slice (partByte file c) piece.pos b.length

instance (file : List UInt8) (s : RaidBufferManager) (c : Part) (piece : FilePiece) :
    Decidable (Supplies file s c piece) := by
  unfold Supplies
  cases piece.buf <;> infer_instance

/-- What is submitted is the next stretch of the part; `combineRaidParts` is called when the slot
for its output is free. -/
def Allowed (file : List UInt8) (s : RaidBufferManager) : Op → Prop
  | .submitBuffer c piece =>
    piece.pos = s.contiguouspos c ∧ piece.endPos ≤ s.transferSize c ∧
      (piece.buf.datalen % RAIDSECTOR = 0 ∨ piece.endPos = s.transferSize c) ∧
      Supplies file s c piece
  | .combineRaidParts c => s.asyncoutputbuffers c = none
  | _ => True

/-- What is submitted has bytes, not too many, and not everything is delivered yet. -/
def Intended (s : RaidBufferManager) : Op → Prop
  | .submitBuffer _ piece =>
    0 < piece.buf.datalen ∧ piece.buf.datalen ≤ 0x10000000 ∧
      s.startfilepos + s.outputBytes.length < s.deliverlimitpos
  | _ => True

instance (file : List UInt8) (s : RaidBufferManager) : DecidablePred (Allowed file s)
  | .submitBuffer _ _ => inferInstanceAs (Decidable (_ ∧ _))
  | .combineRaidParts _ => inferInstanceAs (Decidable (_ = _))
  | .bufferWriteCompleted _ => isTrue trivial
  | .tryRaidHttpGetErrorRecovery _ _ => isTrue trivial
  | .detectSlowestRaidConnection _ => isTrue trivial
  | .setUnusedRaidConnection _ => isTrue trivial

instance (s : RaidBufferManager) : DecidablePred (Intended s)
  | .submitBuffer _ _ => inferInstanceAs (Decidable (_ ∧ _))
  | .combineRaidParts _ => isTrue trivial
  | .bufferWriteCompleted _ => isTrue trivial
  | .tryRaidHttpGetErrorRecovery _ _ => isTrue trivial
  | .detectSlowestRaidConnection _ => isTrue trivial
  | .setUnusedRaidConnection _ => isTrue trivial

/-- One call among those that `P` admits. -/
def StepOf (P : RaidBufferManager → Op → Prop) (kind : Manager) (s s' : RaidBufferManager) : Prop :=
  ∃ op, P s op ∧ exec kind s op = some s'

def execAll (P : RaidBufferManager → Op → Prop) [∀ s, DecidablePred (P s)] (kind : Manager) :
    RaidBufferManager → List Op → Option RaidBufferManager
  | s, [] => some s
  | s, op :: ops => if P s op then (exec kind s op).bind fun s' => execAll P kind s' ops else none

theorem run_of_execAll (P : RaidBufferManager → Op → Prop) [∀ s, DecidablePred (P s)]
    (kind : Manager) : ∀ (ops : List Op) {s s' : RaidBufferManager},
    execAll P kind s ops = some s' → Relation.ReflTransGen (StepOf P kind) s s'
  | [], _, _, h => by
      cases h
      exact .refl
  | op :: ops, s, s', h => by
      rw [execAll] at h
      split at h
      · rename_i hp
        obtain ⟨s₁, h1, h2⟩ := Option.bind_eq_some_iff.1 h
        exact .head ⟨op, hp, h1⟩ (run_of_execAll P kind ops h2)
      · cases h

/-! ## 2. What never changes -/

section Frame

variable {s s' : RaidBufferManager}

/-- The start and the delivery limit are those of `setIsRaid`. -/
def SameRange (s s' : RaidBufferManager) : Prop :=
  s'.startfilepos = s.startfilepos ∧ s'.deliverlimitpos = s.deliverlimitpos

theorem output_sameRange (s) (c pos : Nat) (b : List UInt8) : SameRange s (s.output c pos b) := by
  unfold output
  dsimp only
  split <;> exact ⟨rfl, rfl⟩

theorem finish_sameRange {atEnd : Bool} {rest mac pos : Nat} {b : List UInt8}
    (h : s.finish atEnd rest mac c pos b = some s') : SameRange s s' := by
  unfold finish at h
  split at h
  · split at h
    · obtain ⟨last, -, h2⟩ := bind_eq_some_iff.1 h
      cases h2
      exact output_sameRange (s.rollInputBuffers RAIDSECTOR) c pos _
    · cases h
  split at h
  · obtain ⟨⟨t, b'⟩, h1, h2⟩ := bind_eq_some_iff.1 h
    unfold holdBack at h1
    dsimp only at h1
    split at h1
    · cases h1
      cases h2
      exact output_sameRange _ c pos _
    · cases h1
  · cases h
    exact output_sameRange s c pos b

theorem combine_sameRange {kind : Manager} (h : s.combineRaidParts kind c = some s') :
    SameRange s s' := by
  unfold combineRaidParts at h
  split at h
  · split at h
    · obtain ⟨l, -, h2⟩ := bind_eq_some_iff.1 h
      obtain ⟨ls, -, h3⟩ := bind_eq_some_iff.1 h2
      exact finish_sameRange (s := s.combined s.partslen) h3
    · cases h
      exact ⟨rfl, rfl⟩
  · cases h

end Frame

/-! ## 3. Pieces and switches -/

section Steps

variable {file : List UInt8} {kind : Manager} {s : RaidBufferManager}

theorem Running.requeue (h : Running file kind s) {q : Part → List FilePiece} {u : Nat}
    {rp : Part → Nat}
    (hq : ∀ i, Chain (partByte file i) (i.val = u) (s.transferSize i) s.raidpartspos (q i)) :
    Running file kind { s with
      raidinputparts := q
      unusedRaidConnection := u
      raidrequestpartpos := rp
      raidHttpGetErrorCount := ec
      connectionStarted := st
      asyncoutputbuffers := a } :=
  ⟨{ h with chains := hq }, h.leftover, h.delivered, h.wasted, h.hold⟩

theorem Finished.requeue (h : Finished file s) {q : Part → List FilePiece} {u : Nat}
    {rp : Part → Nat} (hq : ∀ i, q i = []) :
    Finished file { s with
      raidinputparts := q
      unusedRaidConnection := u
      raidrequestpartpos := rp
      raidHttpGetErrorCount := ec
      connectionStarted := st
      asyncoutputbuffers := a } :=
  { h with queues := hq }

theorem contiguouspos_eq (s : RaidBufferManager) (c : Part) :
    s.contiguouspos c = endOf s.raidpartspos (s.raidinputparts c) := by
  rw [endOf_eq]
  rfl

theorem Running.submit (h : Running file kind s) {c : Part} {piece : FilePiece}
    (ha : Allowed file s (.submitBuffer c piece)) (hi : Intended s (.submitBuffer c piece)) :
    ∃ s', s.submitBuffer c piece = some s' ∧ Running file kind s' ∧ SameRange s s' := by
  obtain ⟨hpos, hend, hal, hsup⟩ := ha
  obtain ⟨h0, hsmall, -⟩ := hi
  have hg : Genuine (partByte file c) (c.val = s.unusedRaidConnection) (s.transferSize c) piece := by
    refine ⟨fun b hb => ?_, fun n hn => ?_, h0, hend, hal, hsmall⟩
    · unfold Supplies at hsup
      rwa [hb] at hsup
    unfold Supplies at hsup
    rwa [hn] at hsup
  unfold submitBuffer
  rw [if_pos ⟨hal, hpos⟩]
  refine ⟨_, rfl, h.requeue fun i => ?_, rfl, rfl⟩
  by_cases hc : i = c
  · subst hc
    rw [update_self]
    exact (h.chains i).append hg (hpos.trans (contiguouspos_eq s i))
  · rw [update_of_ne hc]
    exact h.chains i

/-- What a change of connections does: queues are dropped, that of the old unused connection at
least when another one takes its place, counters may change, and nothing else. -/
def Switches (s s' : RaidBufferManager) : Prop :=
  ∃ q u rp ec st a, s' = { s with
      raidinputparts := q
      unusedRaidConnection := u
      raidrequestpartpos := rp
      raidHttpGetErrorCount := ec
      connectionStarted := st
      asyncoutputbuffers := a } ∧
    ∀ i, q i = [] ∨ q i = s.raidinputparts i ∧ (i.val = s.unusedRaidConnection → i.val = u)

theorem Switches.sameRange (h : Switches s s') : SameRange s s' := by
  obtain ⟨q, u, -, -, -, a, rfl, -⟩ := h
  exact ⟨rfl, rfl⟩

theorem Running.switch (h : Running file kind s) (hs : Switches s s') : Running file kind s' := by
  obtain ⟨q, u, -, -, -, a, rfl, hq⟩ := hs
  refine h.requeue fun i => ?_
  rcases hq i with hi | ⟨hi, hu⟩
  · rw [hi]
    trivial
  · rw [hi]
    exact (h.chains i).mono hu

theorem Finished.switch (h : Finished file s) (hs : Switches s s') : Finished file s' := by
  obtain ⟨q, u, -, -, -, a, rfl, hq⟩ := hs
  refine h.requeue fun i => ?_
  rcases hq i with hi | ⟨hi, -⟩
  · exact hi
  · rw [hi, h.queues i]

section

variable (s : RaidBufferManager)

theorem switches_clear (ec : Part → Nat) (c : Nat) :
    Switches s { { s with raidHttpGetErrorCount := ec }.clearUnused.clearPart c with
      unusedRaidConnection := c } := by
  by_cases hu : s.unusedRaidConnection < RAIDPARTS
  · have e : { s with raidHttpGetErrorCount := ec }.clearUnused =
        { s with raidHttpGetErrorCount := ec }.clearPart s.unusedRaidConnection := if_pos hu
    rw [e]
    refine ⟨_, _, _, _, _, _, rfl, fun i => ?_⟩
    simp only [clearPart]
    by_cases h1 : i.val = c
    · exact .inl (if_pos h1)
    by_cases h2 : i.val = s.unusedRaidConnection
    · exact .inl (by rw [if_neg h1, if_pos h2])
    · exact .inr ⟨by rw [if_neg h1, if_neg h2], fun h => absurd h h2⟩
  have e : { s with raidHttpGetErrorCount := ec }.clearUnused =
      { s with raidHttpGetErrorCount := ec } := if_neg hu
  rw [e]
  refine ⟨_, _, _, _, _, _, rfl, fun i => ?_⟩
  have hlt := i.isLt
  by_cases h1 : i.val = c
  · exact .inl (if_pos h1)
  · exact .inr ⟨if_neg h1, fun h => absurd (h ▸ hlt) hu⟩

theorem switches_counters :
    Switches s { s with
      raidHttpGetErrorCount := ec
      connectionStarted := st
      asyncoutputbuffers := a } :=
  ⟨_, _, _, _, _, _, rfl, fun _ => .inr ⟨rfl, id⟩⟩

theorem switches_errorRecovery (c : Part) (inc : Bool) :
    Switches s (s.tryRaidHttpGetErrorRecovery c inc).1 := by
  cases inc with
  | true =>
    simp only [tryRaidHttpGetErrorRecovery, if_true]
    split
    · exact switches_clear s _ c
    · exact switches_counters s
  | false =>
    simp only [tryRaidHttpGetErrorRecovery, Bool.false_eq_true, if_false]
    split
    · exact switches_clear s s.raidHttpGetErrorCount c
    · exact switches_counters s

theorem switches_detectSlowest (c : Part) : Switches s (s.detectSlowestRaidConnection c).1 := by
  unfold detectSlowestRaidConnection
  split
  · rename_i hu
    dsimp only
    split
    · refine ⟨_, _, _, _, _, _, rfl, fun i => .inr ⟨rfl, fun h => ?_⟩⟩
      have hlt := i.isLt
      rw [h, hu] at hlt
      exact absurd hlt (by decide)
    · exact switches_counters s
  · exact switches_counters s

theorem switches_setUnused (c) : Switches s (s.setUnusedRaidConnection c).1 := by
  unfold setUnusedRaidConnection
  split
  · exact switches_clear s s.raidHttpGetErrorCount c
  · exact switches_counters s

end

end Steps

/-! ## 4. Runs -/

section Runs

variable {file : List UInt8} {kind : Manager} {s s' : RaidBufferManager}

/-- The invariant of a run. -/
structure Going (file : List UInt8) (kind : Manager) (resumepos readtopos : Nat)
    (s : RaidBufferManager) : Prop where
  start : s.startfilepos = resumepos
  limit : s.deliverlimitpos = readtopos
  state : Running file kind s ∨ Finished file s

variable {resumepos readtopos : Nat}

/-- **The start**, where the resume position is a boundary at which the manager would cut. -/
theorem going_setIsRaid (h1 : resumepos ≤ readtopos) (h2 : readtopos ≤ file.length)
    (hb : kind.calcOutputChunkPos resumepos = resumepos) (unused : Nat) :
    Going file kind resumepos readtopos (setIsRaid resumepos readtopos file.length unused) := by
  -- the lines begin before `resumepos` and end behind `readtopos`
  let part := resumepos / 5 - resumepos / 5 % 16
  have hpart : part = resumepos / 5 - resumepos / 5 % 16 := rfl
  let top := min (readtopos + 80 - 1 - (readtopos + 80 - 1) % 80) file.length
  have htop : top = min (readtopos + 80 - 1 - (readtopos + 80 - 1) % 80) file.length := rfl
  refine ⟨rfl, rfl, .inl ⟨⟨?_, ?_, ?_, ?_, ?_, fun _ => trivial⟩, rfl, ?_, ?_, ?_⟩⟩
  · show part % 16 = 0
    omega
  · show part * 5 = resumepos - (resumepos - part * 5) + 0
    omega
  · show resumepos - (resumepos - part * 5) + 0 ≤ top
    omega
  · show top % 80 = 0 ∧ top ≤ file.length ∨ top = file.length
    omega
  · show resumepos ≤ readtopos ∧ readtopos ≤ top
    omega
  · show resumepos = max resumepos (min (resumepos - (resumepos - part * 5)) readtopos)
    omega
  · show resumepos - part * 5 = resumepos - (resumepos - (resumepos - part * 5))
    omega
  intro p hp _
  have hp' : resumepos - (resumepos - part * 5) + 0 + 80 ≤ p := hp
  have hm := calcOutputChunkPos_mono kind (p := resumepos) (q := p) (by omega)
  show resumepos - (resumepos - part * 5) ≤ _
  omega

section

variable (h : Going file kind resumepos readtopos s)
include h

theorem Going.of_sameRange (hr : SameRange s s')
    (hs : Running file kind s' ∨ Finished file s') : Going file kind resumepos readtopos s' :=
  ⟨hr.1.trans h.start, hr.2.trans h.limit, hs⟩

theorem Going.stretch :
    ∃ e, Stretch file resumepos s.delivered e ∧ e ≤ readtopos ∧
      min s.outputfilepos readtopos ≤ e := by
  obtain ⟨rfl, rfl, h | h⟩ := h
  · have hl := h.limit
    refine ⟨_, h.delivered, ?_, ?_⟩
    · unfold reached
      omega
    · unfold reached
      omega
  · exact ⟨_, h.delivered, le_rfl, by omega⟩

theorem Going.submit {c : Part} {piece : FilePiece}
    (ha : Allowed file s (.submitBuffer c piece)) (hi : Intended s (.submitBuffer c piece)) :
    ∃ s', s.submitBuffer c piece = some s' ∧ Going file kind resumepos readtopos s' := by
  rcases h.state with hr | hf
  · obtain ⟨s', he, hr', hs⟩ := hr.submit ha hi
    exact ⟨s', he, h.of_sameRange hs (.inl hr')⟩
  · -- everything is delivered
    obtain ⟨-, hb⟩ := hf.delivered.bytes
    have hlt := hi.2.2
    unfold outputBytes at hlt
    rw [hb, length_slice] at hlt
    omega

theorem Going.combine (ha : s.asyncoutputbuffers c = none) :
    ∃ s', s.combineRaidParts kind c = some s' ∧ Going file kind resumepos readtopos s' := by
  rcases h.state with hr | hf
  · obtain ⟨s', he, hs⟩ := hr.combine ha
    exact ⟨s', he, h.of_sameRange (combine_sameRange he) hs⟩
  · exact ⟨s, hf.combine ha, h⟩

theorem Going.switch (hs : Switches s s') : Going file kind resumepos readtopos s' :=
  h.of_sameRange hs.sameRange (h.state.imp (·.switch hs) (·.switch hs))

theorem Going.exec {op : Op} (ha : Allowed file s op) (hi : Intended s op) :
    ∃ s', exec kind s op = some s' ∧ Going file kind resumepos readtopos s' := by
  cases op with
  | submitBuffer c piece => exact h.submit ha hi
  | combineRaidParts c => exact h.combine ha
  | bufferWriteCompleted c => exact ⟨_, rfl, h.switch (switches_counters s)⟩
  | tryRaidHttpGetErrorRecovery c inc => exact ⟨_, rfl, h.switch (switches_errorRecovery ..)⟩
  | detectSlowestRaidConnection c => exact ⟨_, rfl, h.switch (switches_detectSlowest s c)⟩
  | setUnusedRaidConnection c => exact ⟨_, rfl, h.switch (switches_setUnused s c)⟩

end

/-- **The outputs of every run** concatenate to the file from the resume position to the point
reached: each at its own position, all that was combined and is not held back, nothing past the
limit; and every further call goes through. -/
theorem delivered_of_run (file : List UInt8) (kind : Manager) (resumepos readtopos unused : Nat)
    (h1 : resumepos ≤ readtopos) (h2 : readtopos ≤ file.length)
    (hb : kind.calcOutputChunkPos resumepos = resumepos) (s : RaidBufferManager)
    (hrun : Relation.ReflTransGen (StepOf (fun s op => Allowed file s op ∧ Intended s op) kind)
      (setIsRaid resumepos readtopos file.length unused) s) :
    s.outputBytes = (file.drop resumepos).take s.outputBytes.length ∧
      resumepos + s.outputBytes.length ≤ readtopos ∧
      min s.outputfilepos readtopos ≤ resumepos + s.outputBytes.length ∧
      s.raidpartspos * 5 = s.outputfilepos + s.leftoverchunk.buf.datalen ∧
      (∀ pre r post, s.delivered = pre ++ r :: post →
        r.pos = resumepos + (pre.flatMap FilePiece.bytes).length) ∧
      ∀ op, Allowed file s op → Intended s op → (exec kind s op).isSome := by
  have hg : Going file kind resumepos readtopos s := by
    refine run_inv (Going file kind resumepos readtopos) (fun t t' ht hst => ?_)
      (going_setIsRaid h1 h2 hb unused) hrun
    obtain ⟨op, ⟨ha, hi⟩, he⟩ := hst
    obtain ⟨t'', he', hg⟩ := ht.exec ha hi
    rw [he] at he'
    cases he'
    exact hg
  obtain ⟨e, hd, hle, hge⟩ := hg.stretch
  obtain ⟨-, hbytes⟩ := hd.bytes
  have hout : s.outputBytes = slice (fileByte file) resumepos (e - resumepos) := hbytes
  have hlen : s.outputBytes.length = e - resumepos := by rw [hout, length_slice]
  refine ⟨?_, by omega, by omega, ?_, ?_, ?_⟩
  · rw [hlen, hout]
    exact slice_getD file 0 (by omega)
  · rcases hg.state with h | h
    · exact h.pos
    · exact h.pos
  · intro pre r post he
    rw [he] at hd
    exact hd.pos_eq
  intro op ha hi
  obtain ⟨s', he, -⟩ := hg.exec ha hi
  rw [he]
  rfl

def tenBytes : List UInt8 := [1, 2, 3, 4, 5, 6, 7, 8, 9, 10]

/-- The file is read from the parity alone. -/
theorem delivered_of_run_ten : ∃ s, Relation.ReflTransGen
    (StepOf (fun s op => Allowed tenBytes s op ∧ Intended s op) .directRead)
    (setIsRaid 0 10 10 1) s ∧ s.outputBytes = tenBytes ∧
    s.outputBytes = (tenBytes.drop 0).take s.outputBytes.length := by
  have hex : ∃ s, execAll (fun s op => Allowed tenBytes s op ∧ Intended s op) .directRead
      (setIsRaid 0 10 10 1) [.submitBuffer 0 ⟨0, .data tenBytes⟩, .submitBuffer 1 ⟨0, .null 10⟩,
        .combineRaidParts 0] = some s ∧ s.outputBytes = tenBytes := ⟨_, rfl, by decide⟩
  obtain ⟨s, he, ho⟩ := hex
  have hr := run_of_execAll _ _ _ he
  exact ⟨s, hr, ho, (delivered_of_run tenBytes .directRead 0 10 1 (by decide) (by decide) rfl s
    hr).1⟩

/-- **The last line twice**: it was combined from the parity; then the connections 0 and 1 are
switched and the line is submitted again. -/
theorem delivered_twice : ∃ s, Relation.ReflTransGen (StepOf (Allowed tenBytes) .directRead)
    (setIsRaid 0 10 10 1) s ∧ s.deliverlimitpos = 10 ∧ s.outputBytes = tenBytes ++ tenBytes := by
  have hex : ∃ s, execAll (Allowed tenBytes) .directRead
      (setIsRaid 0 10 10 1) [.submitBuffer 0 ⟨0, .data tenBytes⟩, .submitBuffer 1 ⟨0, .null 10⟩,
        .combineRaidParts 0, .bufferWriteCompleted 0, .tryRaidHttpGetErrorRecovery 0 true,
        .submitBuffer 0 ⟨0, .null 10⟩, .submitBuffer 1 ⟨0, .data tenBytes⟩,
        .combineRaidParts 0] = some s ∧ s.deliverlimitpos = 10 ∧
      s.outputBytes = tenBytes ++ tenBytes := ⟨_, rfl, rfl, by decide⟩
  obtain ⟨s, he, ho⟩ := hex
  exact ⟨s, run_of_execAll _ _ _ he, ho⟩

end Runs

end MegaSdk.Raid
