/-
  File:      MegaSdk/Raid/Lines.lean
  Subject:   WHAT THE COMBINING LOOPS WRITE, given true part data with at most one part missing.

  * `Genuine`, `Chain` -- a queue holds consecutive stretches of its part, null where it may;
  * `outputSector_eq`, `outputLines_eq` -- the lines written are a stretch of the file, whichever
    part is null;
  * `combineLast_eq` -- so is the last line, where the parts end at different offsets.
-/
import MegaSdk.Raid.Buffers

namespace MegaSdk.Raid

open Base RaidBufferManager List Option

/-! ## 1. Queues -/

/-- A piece of the sequence `src` that ends at `last` at the latest; null only where `nulls`. -/
structure Genuine (src : Nat → UInt8) (nulls : Prop) (last : Nat) (r : FilePiece) : Prop where
  bytes : ∀ b, r.buf = .data b → b = slice src r.pos b.length
  null : ∀ n, r.buf = .null n → nulls
  nonempty : 0 < r.buf.datalen
  within : r.endPos ≤ last
  aligned : r.buf.datalen % 16 = 0 ∨ r.endPos = last
  small : r.buf.datalen ≤ 0x10000000

/-- A queue of such pieces, one after the other from `p` on. -/
def Chain (src : Nat → UInt8) (nulls : Prop) (last : Nat) : Nat → List FilePiece → Prop
  | _, [] => True
  | p, r :: q => r.pos = p ∧ Genuine src nulls last r ∧ Chain src nulls last r.endPos q

section Chain

variable {src : Nat → UInt8} {nulls : Prop} {last p d : Nat} {q : List FilePiece} {r : FilePiece}

theorem Chain.mono {nulls' : Prop} (h : nulls → nulls') : ∀ {q : List FilePiece} {p : Nat},
    Chain src nulls last p q → Chain src nulls' last p q
  | [], _, _ => trivial
  | _ :: _, _, ⟨hp, hg, hq⟩ =>
    ⟨hp, { hg with null := fun n hn => h (hg.null n hn) }, hq.mono h⟩

def endOf : Nat → List FilePiece → Nat
  | p, [] => p
  | _, r :: q => endOf r.endPos q

theorem endOf_eq : ∀ (q : List FilePiece) (p : Nat), endOf p q = (match q.getLast? with
      | none => p
      | some r => r.endPos)
  | [], _ => rfl
  | [_], _ => rfl
  | r :: r' :: q, p => by
      rw [getLast?_cons_cons, endOf, endOf_eq (r' :: q)]
      cases h : (r' :: q).getLast? with
      | none => simp at h
      | some x => rfl

theorem Chain.append (hg : Genuine src nulls last r) : ∀ {q : List FilePiece} {p : Nat},
    Chain src nulls last p q → r.pos = endOf p q → Chain src nulls last p (q ++ [r])
  | [], _, _, hr => ⟨hr, hg, trivial⟩
  | _ :: _, _, ⟨hp, hg', hq⟩, hr => ⟨hp, hg', hq.append hg hr⟩

theorem datalen_skip (d) (b : Buf) : (b.skip d).datalen = b.datalen - d := by
  cases b with
  | null n => rfl
  | data b => exact length_drop

theorem Genuine.skip (hg : Genuine src nulls last r) (hd : d % 16 = 0)
    (hl : d < r.buf.datalen) : Genuine src nulls last ⟨r.pos + d, r.buf.skip d⟩ where
  bytes b hb := by
    cases hr : r.buf with
    | null n =>
      rw [hr] at hb
      cases hb
    | data b' =>
      rw [hr] at hb
      cases hb
      rw [hg.bytes b' hr, drop_slice, length_slice]
  null n hn := by
    cases hr : r.buf with
    | null n' => exact hg.null n' hr
    | data b =>
      rw [hr] at hn
      cases hn
  nonempty := by
    rw [datalen_skip]
    omega
  within := by
    have h := hg.within
    simp only [FilePiece.endPos, datalen_skip] at h ⊢
    omega
  aligned := by
    have h := hg.aligned
    simp only [FilePiece.endPos, datalen_skip] at h ⊢
    omega
  small := by
    have h := hg.small
    rw [datalen_skip]
    omega

theorem Chain.roll (hd : d % 16 = 0) : ∀ {q : List FilePiece},
    Chain src nulls last p q → (∀ r ∈ q.head?, d ≤ r.buf.datalen) →
    Chain src nulls last (p + d) (rollQueue d q)
  | [], _, _ => trivial
  | r :: q, ⟨hp, hg, hq⟩, hl => by
      have hd' : d ≤ r.buf.datalen := hl r rfl
      show Chain src nulls last (p + d) (if r.buf.datalen ≤ d then q else _)
      split
      · have e : p + d = r.endPos := by
          unfold FilePiece.endPos
          omega
        rwa [e]
      have hend : (⟨r.pos + d, r.buf.skip d⟩ : FilePiece).endPos = r.endPos := by
        simp only [FilePiece.endPos, datalen_skip]
        omega
      refine ⟨by rw [hp], hg.skip hd (by omega), ?_⟩
      rwa [hend]

theorem Chain.eq_nil (hp : last ≤ p) : ∀ {q : List FilePiece}, Chain src nulls last p q → q = []
  | [], _ => rfl
  | r :: q, ⟨hr, hg, _⟩ => by
      have h1 := hg.within
      have h2 := hg.nonempty
      unfold FilePiece.endPos at h1
      omega

end Chain

/-! ## 2. Full lines -/

/-- The buffers of the six parts from the offset `p` on, at least `m` bytes each, those of the part
`unused` possibly missing. -/
structure Buffers (file : List UInt8) (unused p m : Nat) (bufs : Part → Option (List UInt8)) :
    Prop where
  bytes : ∀ i b, bufs i = some b → b = slice (partByte file i) p b.length ∧ m ≤ b.length
  missing : ∀ i, bufs i = none → i.val = unused

section Lines

variable {file : List UInt8} {unused p m o : Nat} {bufs : Part → Option (List UInt8)} {j : Part}

theorem sector_slice (f : Nat → UInt8) {n : Nat} (h : o + 16 ≤ n) :
    sector (slice f p n) o = some (slice f (p + o) 16) := by
  unfold sector RAIDSECTOR
  rw [if_pos (by rwa [length_slice]), drop_slice, take_slice, min_eq_left (by omega)]

/-- The loop of `recoverSectorFromParity` over the parts `is`, all of them there. -/
theorem foldlM_xor (h : Buffers file unused p m bufs) (ho : o + 16 ≤ m) :
    ∀ (is : List Part) (f : Nat → UInt8), (∀ i ∈ is, bufs i ≠ none) →
    (is.filterMap bufs).foldlM fun dest b => do return xorBytes dest (← sector b o)
        (slice f (p + o) 16) =
      some (slice (fun k => xorParts file k is (f k)) (p + o) 16)
  | [], f, _ => rfl
  | i :: is, f, hi => by
      obtain ⟨b, hb⟩ := Option.ne_none_iff_exists'.1 (hi i (mem_cons_self ..))
      obtain ⟨hs, hl⟩ := h.bytes i b hb
      have hsec : sector b o = some (slice (partByte file i) (p + o) 16) := by
        rw [hs]
        exact sector_slice _ (by omega)
      rw [filterMap_cons_some hb, foldlM_cons, hsec]
      simp only [bind_eq_bind, bind_some, xorBytes, zipWith_slice]
      exact foldlM_xor h ho is _ fun i' hi' => hi i' (mem_cons_of_mem _ hi')

theorem filterMap_others (hj : bufs j = none) (is : List Part) :
    is.filterMap bufs = (is.filter (· ≠ j)).filterMap bufs := by
  induction is with
  | nil => rfl
  | cons i is ih =>
    by_cases hi : i = j
    · subst hi
      rw [filterMap_cons_none hj, ih, filter_cons_of_neg (by simp)]
    · rw [filter_cons_of_pos (by simpa using hi), filterMap_cons, filterMap_cons, ih]

/-- **A sector of the output** is that of its part, copied or recovered. -/
theorem outputSector_eq (h : Buffers file unused p m bufs) (ho : o + 16 ≤ m)
    (hj : j ≠ 0) : outputSector bufs o j = some (slice (partByte file j) (p + o) 16) := by
  unfold outputSector
  cases hb : bufs j with
  | some b =>
    obtain ⟨hs, hl⟩ := h.bytes j b hb
    rw [hs]
    exact sector_slice _ (by omega)
  | none =>
    have others : ∀ i ∈ countdown.filter (· ≠ j), bufs i ≠ none := fun i hi hn => by
      have e : i = j := Fin.ext ((h.missing i hn).trans (h.missing j hb).symm)
      simp [e] at hi
    unfold recoverSectorFromParity
    rw [filterMap_others hb]
    -- the first of the others is copied, the rest added to it
    cases hc : countdown.filter (· ≠ j) with
    | nil => exact absurd hc (by fin_cases j <;> decide)
    | cons i is =>
      rw [hc] at others
      obtain ⟨b, hbi⟩ := ne_none_iff_exists'.1 (others i (mem_cons_self ..))
      obtain ⟨hs, hl⟩ := h.bytes i b hbi
      have hsec : sector b o = some (slice (partByte file i) (p + o) 16) := by
        rw [hs]
        exact sector_slice _ (by omega)
      rw [filterMap_cons_some hbi]
      simp only [hsec]
      refine (foldlM_xor h ho is _ fun i' hi' => others i' (mem_cons_of_mem _ hi')).trans ?_
      refine congrArg some (slice_congr fun k _ => ?_)
      rw [← xorParts_others file _ hj, hc]
      simp [xorParts]

theorem slice_partByte (hj : j ≠ 0) {q n : Nat} (hq : q % 16 = 0) (hn : n ≤ 16) :
    slice (partByte file j) q n = slice (fileByte file) (5 * q + 16 * (j.val - 1)) n := by
  rw [← slice_dataByte file hq hn]
  exact slice_congr fun k _ => if_neg hj

theorem outputLine_eq (h : Buffers file unused p m bufs) (hp : (p + o) % 16 = 0)
    (ho : o + 16 ≤ m) : outputLine bufs o = some (slice (fileByte file) (5 * (p + o)) 80) := by
  have sec : ∀ j : Part, j ≠ 0 → outputSector bufs o j =
      some (slice (fileByte file) (5 * (p + o) + 16 * (j.val - 1)) 16) := fun j hj => by
    rw [outputSector_eq h ho hj, slice_partByte hj hp (le_refl 16)]
  unfold outputLine
  simp only [sec 1 (by decide), sec 2 (by decide), sec 3 (by decide), sec 4 (by decide),
    sec 5 (by decide)]
  rfl

/-- **The lines of the output** are a stretch of the file. -/
theorem outputLines_eq (h : Buffers file unused p m bufs) : ∀ (n o : Nat), (p + o) % 16 = 0 →
    o + 16 * n ≤ m →
    outputLines bufs n o = some (slice (fileByte file) (5 * (p + o)) (80 * n))
  | 0, o, _, _ => rfl
  | n + 1, o, hp, ho => by
      have ih := outputLines_eq h n (o + 16) (by omega) (by omega)
      unfold outputLines
      rw [outputLine_eq h hp (by omega)]
      simp only [Option.bind_eq_bind, Option.bind_some, RAIDSECTOR, ih, Option.pure_def]
      rw [show 80 * (n + 1) = 80 + 80 * n by omega, slice_add,
        show 5 * (p + (o + 16)) = 5 * (p + o) + 80 by omega]

end Lines

/-! ## 3. The last line -/

theorem xorInto_slice : ∀ (n m p : Nat) (f g : Nat → UInt8),
    (∀ k, p + m ≤ k → k < p + n → g k = 0) →
    xorInto (slice f p n) (slice g p m) = slice (fun k => f k ^^^ g k) p n
  | 0, m, p, f, g, _ => by cases m <;> rfl
  | n + 1, 0, p, f, g, h => by
      show slice f p (n + 1) = _
      refine slice_congr fun k hk => ?_
      rw [h (p + k) (by omega) (by omega), UInt8.xor_zero]
  | n + 1, m + 1, p, f, g, h => by
      show (f p ^^^ g p) :: xorInto (slice f (p + 1) n) (slice g (p + 1) m) = _
      rw [xorInto_slice n m (p + 1) f g fun k h1 h2 => h k (by omega) (by omega)]
      rfl

/-- All that is left are the sectors of the last line: every queue has the rest of its part. -/
def AtLastLine (file : List UInt8) (s : RaidBufferManager) : Prop :=
  ∀ i : Part, (s.raidinputparts i = [] ∧
      raidPartSize i file.length = 16 * (file.length / 80)) ∨
    ∃ r q, s.raidinputparts i = r :: q ∧ r.pos = 16 * (file.length / 80) ∧
      Genuine (partByte file i) (i.val = s.unusedRaidConnection) (raidPartSize i file.length) r ∧
      r.endPos = raidPartSize i file.length

section LastLine

variable {file : List UInt8} {s : RaidBufferManager} {i : Part}

theorem recoverLast_fold (h : AtLastLine file s) (hi : i.val = s.unusedRaidConnection)
    (hin : s.inputbufs i = none) {n : Nat} (hn : n ≤ 16) : ∀ (is : List Part) (f : Nat → UInt8),
    is.foldl s.xorFront (slice f (16 * (file.length / 80)) n) =
      slice (fun k => xorParts file k (is.filter (· ≠ i)) (f k)) (16 * (file.length / 80)) n
  | [], f => rfl
  | j :: is, f => by
      have ih := recoverLast_fold h hi hin hn is
      have skip : ∀ {j : Part} (dest : List UInt8), s.inputbufs j = none →
          s.xorFront dest j = dest := fun dest hj => by
        unfold xorFront
        rw [hj]
      rw [foldl_cons]
      by_cases hj : j = i
      · rw [hj, skip _ hin, filter_cons_of_neg (by simp)]
        exact ih f
      rw [filter_cons_of_pos (by simpa using hj)]
      have past : ∀ k, raidPartSize j file.length ≤ k → k < 16 * (file.length / 80) + n →
          partByte file j k = 0 := fun k h1 h2 => partByte_past h1 (by omega)
      rcases h j with ⟨he, hsz⟩ | ⟨r, q, he, hp, hg, hend⟩
      · -- nothing of this part is left: it counts as zero
        have hnone : s.inputbufs j = none := by
          unfold inputbufs
          rw [he]
        rw [skip _ hnone]
        refine (ih f).trans (slice_congr fun k hk => ?_)
        simp only [xorParts, foldl_cons]
        rw [past _ (by omega) (by omega), UInt8.xor_zero]
      cases hb : r.buf with
      | null m => exact absurd (Fin.ext ((hg.null m hb).trans hi.symm)) hj
      | data b =>
        have hbuf : s.inputbufs j = some b := by
          unfold inputbufs
          rw [he]
          simp [hb, Buf.datastart]
        have hs := hg.bytes b hb
        rw [hp] at hs
        have hlen : 16 * (file.length / 80) + b.length = raidPartSize j file.length := by
          rw [← hend, FilePiece.endPos, hb, hp]
          rfl
        have hadd : s.xorFront (slice f (16 * (file.length / 80)) n) j =
            slice (fun k => f k ^^^ partByte file j k) (16 * (file.length / 80)) n := by
          unfold xorFront
          rw [hbuf]
          show xorInto _ b = _
          rw [hs, xorInto_slice _ _ _ _ _ fun k h1 h2 => past k (by omega) h2]
        rw [hadd]
        exact ih _

/-- **A sector of the last line**, copied or recovered. -/
theorem lastSector_eq (h : AtLastLine file s) (hi : i ≠ 0) {r : FilePiece}
    {q : List FilePiece} (he : s.raidinputparts i = r :: q) :
    s.lastSector r r.buf.datalen =
      slice (partByte file i) (16 * (file.length / 80)) r.buf.datalen := by
  obtain ⟨he', -⟩ | ⟨r', q', he', hp, hg, hend⟩ := h i
  · rw [he] at he'
    cases he'
  rw [he] at he'
  cases he'
  have hn : r.buf.datalen ≤ 16 := by
    have e := hend
    rw [raidPartSize_eq] at e
    unfold FilePiece.endPos at e
    omega
  unfold lastSector
  cases hb : r.buf with
  | data b =>
    have hs := hg.bytes b hb
    rw [hp] at hs
    simp only [Buf.datalen, take_length]
    exact hs
  | null m =>
    have hnone : s.inputbufs i = none := by
      unfold inputbufs
      rw [he]
      simp [hb, Buf.datastart]
    have hzero : List.replicate m (0 : UInt8) =
        slice (fun _ => 0) (16 * (file.length / 80)) m := by
      simp [slice]
    rw [hb] at hn
    simp only [Buf.datalen] at hn ⊢
    rw [hzero, recoverLast_fold h (hg.null m hb) hnone hn]
    exact slice_congr fun k _ => xorParts_others file _ hi

theorem combineLastFrom_zero (s : RaidBufferManager) (is : List Part) :
    s.combineLastFrom is 0 = [] := by
  cases is <;> rfl

theorem combineLastFrom_step (h : AtLastLine file s) (hi : i ≠ 0) (is : List Part) :
    s.combineLastFrom (i :: is) (file.length % 80 - 16 * (i.val - 1)) =
      slice (fileByte file) (80 * (file.length / 80) + 16 * (i.val - 1))
          (min (file.length % 80 - 16 * (i.val - 1)) 16) ++
        s.combineLastFrom is (file.length % 80 - 16 * (i.val - 1) - 16) := by
  generalize hk : file.length % 80 - 16 * (i.val - 1) = k
  by_cases hz : k = 0
  · rw [hz]
    simp [combineLastFrom_zero]
  have hsz := raidPartSize_eq i.val file.length
  rcases h i with ⟨-, e⟩ | ⟨r, q, he, hp, -, hend⟩
  · omega
  have hlen : r.buf.datalen = min k 16 := by
    unfold FilePiece.endPos at hend
    omega
  have hsec := lastSector_eq h hi he
  have hmin : min k r.buf.datalen = r.buf.datalen := by
    omega
  rw [combineLastFrom, if_neg hz, he]
  simp only [hmin]
  rw [hsec, slice_partByte hi (by omega) (by omega)]
  congr 2 <;> omega

/-- **The last line of the output** is the end of the file. -/
theorem combineLast_eq (h : AtLastLine file s) :
    s.combineLastRaidLine (file.length % 80) =
      some (slice (fileByte file) (80 * (file.length / 80)) (file.length % 80)) := by
  have step : ∀ {i : Part} (is : List Part), i ≠ 0 →
      s.combineLastFrom is (file.length % 80 - 16 * (i.val - 1) - 16) =
        slice (fileByte file) (80 * (file.length / 80) + 16 * (i.val - 1) + 16)
          (file.length % 80 - 16 * (i.val - 1) - 16) →
      s.combineLastFrom (i :: is) (file.length % 80 - 16 * (i.val - 1)) =
        slice (fileByte file) (80 * (file.length / 80) + 16 * (i.val - 1))
          (file.length % 80 - 16 * (i.val - 1)) := fun is hi hrest => by
    rw [combineLastFrom_step h hi, hrest, slice_min_append]
  have h5 := step (i := 5) [] (by decide) (by
    have e : file.length % 80 - 16 * (5 - 1) - 16 = 0 := by omega
    show s.combineLastFrom [] _ = slice _ _ (file.length % 80 - 16 * (5 - 1) - 16)
    rw [e]
    rfl)
  have h4 := step (i := 4) [5] (by decide) h5
  have h3 := step (i := 3) [4, 5] (by decide) h4
  have h2 := step (i := 2) [3, 4, 5] (by decide) h3
  have h1 := step (i := 1) [2, 3, 4, 5] (by decide) h2
  unfold combineLastRaidLine
  have e : s.combineLastFrom [1, 2, 3, 4, 5] (file.length % 80) =
    slice (fileByte file) (80 * (file.length / 80)) (file.length % 80) := h1
  simp [e]

end LastLine

end MegaSdk.Raid
