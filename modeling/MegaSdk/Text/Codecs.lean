/-
  File:      MegaSdk/Text/Codecs.lean
  Subject:   `Base64` AND `Base32` (base64.cpp): bytes as text and back.

  Both encoders take the bytes in groups (3 bytes are 4 characters, 5 bytes are 8) and stop in the
  middle of the last one. Both decoders read a group of characters up to the first one outside the
  alphabet, and check before each byte of the group that the limit leaves room and that enough
  characters were read.

  * `decodeLoop` -- the decoder, with the alphabet and the bytes of a group as parameters;
  * `decodeLoop_eq_take` -- a limit cuts off what is written without one;
  * `Base64.atobString_iff`, `Base32.atob_btoa_iff` -- the round trips, up to the size at which an
    `int` overflows;
  * `codecs_exact` -- both together.
-/
import MegaSdk.Base.Bytes

namespace MegaSdk

open List

open Base (forall_byte byte_ext)

/-! ## 1. The decoder -/

section Decoder

variable (code : UInt8 → UInt8) (n : Nat) (bytes : (Nat → UInt8) → List (Nat × UInt8)) (blen : Int)
  {out : List UInt8} {k : Nat}

/-- The codes of one group and the text behind what was read. `*a++` reads the terminator at the end
    of the text; a code of 255 ends the group. -/
def readGroup : Nat → List UInt8 → List UInt8 × List UInt8
  | 0, a => ([], a)
  | k + 1, a =>
    if code (a.headD 0) == 255 then ([], a.tail)
    else (code (a.headD 0) :: (readGroup k a.tail).1, (readGroup k a.tail).2)

/-- Writes the bytes of a group of which `i` characters were read. Each byte comes with the number of
    characters it needs; the result says whether the group was written to its end. -/
def writeGroup (blen : Int) (i : Nat) : List (Nat × UInt8) → List UInt8 → List UInt8 × Bool
  | [], out => (out, true)
  | (need, b) :: rest, out =>
    if (out.length : Int) ≥ blen ∨ i < need then (out, false)
    else writeGroup blen i rest (out ++ [b])

/-- The loop of `atob`; `none` while it has not ended. A character that was not read counts as 255,
    the code that ended the group. -/
def decodeLoop (blen : Int) : Nat → List UInt8 → List UInt8 → Option (List UInt8)
  | 0, _, _ => none
  | k + 1, a, out =>
    let group := readGroup code n a
    let written := writeGroup blen group.1.length (bytes fun j => group.1.getD j 255) out
    if written.2 then decodeLoop blen k group.2 written.1 else some written.1

/-- `atob`. A round that goes on has read `n` characters of the text. -/
def decode (a : List UInt8) (blen : Int) : Option (List UInt8) :=
  decodeLoop code n bytes blen (a.length + 1) a []

/-! ## 2. What a limit does -/

def groupBytes (i : Nat) (l : List (Nat × UInt8)) : List UInt8 × Bool :=
  ((l.takeWhile fun x => decide (x.1 ≤ i)).map (·.2), l.all fun x => decide (x.1 ≤ i))

/-- What is written without a limit. -/
def decodeAll : Nat → List UInt8 → Option (List UInt8)
  | 0, _ => none
  | k + 1, a =>
    let group := readGroup code n a
    let written := groupBytes group.1.length (bytes fun j => group.1.getD j 255)
    if written.2 then (decodeAll k group.2).map (written.1 ++ ·) else some written.1

/-- `out` and as much of `d` as the limit leaves room for. -/
def cut (blen : Int) (out d : List UInt8) : List UInt8 := out ++ d.take (blen - out.length).toNat

theorem cut_nil (out) : cut blen out [] = out := by
  simp [cut]

theorem cut_of_le {blen : Int} (h : blen ≤ out.length) (d : List UInt8) : cut blen out d = out := by
  unfold cut
  rw [show (blen - out.length).toNat = 0 by omega, take_zero, append_nil]

theorem cut_cons {blen : Int} (h : ¬ blen ≤ out.length) (b : UInt8)
    (d : List UInt8) : cut blen out (b :: d) = cut blen (out ++ [b]) d := by
  unfold cut
  have hroom : (blen - out.length).toNat = (blen - (out ++ [b]).length).toNat + 1 := by
    rw [length_append, length_singleton]
    omega
  rw [hroom, take_succ_cons, append_assoc, singleton_append]

theorem cut_append (d₁ : List UInt8) : ∀ (out d₂ : List UInt8),
    cut blen (cut blen out d₁) d₂ = cut blen out (d₁ ++ d₂) := by
  induction d₁ with
  | nil =>
    intro out d₂
    rw [cut_nil, nil_append]
  | cons b d₁ ih =>
    intro out d₂
    by_cases h : blen ≤ out.length
    · rw [cut_of_le h, cut_of_le h, cut_of_le h]
    · rw [cut_cons h, ih, cons_append, cut_cons h]

/-- A group under a limit: its bytes as far as there is room, and it goes on only when all of them
    had room. -/
theorem writeGroup_eq (i : Nat) (l : List (Nat × UInt8)) : ∀ out : List UInt8,
    (writeGroup blen i l out).1 = cut blen out (groupBytes i l).1 ∧
      ((writeGroup blen i l out).2 = false →
        (groupBytes i l).2 = false ∨ blen ≤ (writeGroup blen i l out).1.length) ∧
      ((writeGroup blen i l out).2 = true → (groupBytes i l).2 = true) := by
  induction l with
  | nil =>
    intro out
    refine ⟨(cut_nil blen out).symm, fun h => ?_, fun _ => rfl⟩
    cases h
  | cons x l ih =>
    obtain ⟨need, b⟩ := x
    intro out
    by_cases hneed : need ≤ i
    · have hbytes : groupBytes i ((need, b) :: l) =
          (b :: (groupBytes i l).1, (groupBytes i l).2) := by
        simp [groupBytes, hneed]
      rw [hbytes]
      by_cases hroom : blen ≤ out.length
      · have hw : writeGroup blen i ((need, b) :: l) out = (out, false) :=
          if_pos (.inl hroom)
        rw [hw, cut_of_le hroom]
        exact ⟨rfl, fun _ => .inr hroom, nofun⟩
      have hw : writeGroup blen i ((need, b) :: l) out =
          writeGroup blen i l (out ++ [b]) := if_neg (by omega)
      rw [hw, cut_cons hroom]
      exact ih (out ++ [b])
    · have hbytes : groupBytes i ((need, b) :: l) = ([], false) := by
        simp [groupBytes, hneed]
      have hw : writeGroup blen i ((need, b) :: l) out = (out, false) :=
        if_pos (.inr (by omega))
      rw [hw, hbytes, cut_nil]
      exact ⟨rfl, fun _ => .inl rfl, nofun⟩

/-- **A limit cuts off what is written without one.** -/
theorem decodeLoop_eq_take {k : Nat} {a d : List UInt8} (out : List UInt8)
    (h : decodeAll code n bytes k a = some d) :
    decodeLoop code n bytes blen k a out = some (cut blen out d) := by
  induction k generalizing a d out with
  | zero => cases h
  | succ k ih =>
    unfold decodeAll at h
    unfold decodeLoop
    simp only at h ⊢
    generalize readGroup code n a = group at *
    obtain ⟨hbytes, hstop, hgo⟩ :=
      writeGroup_eq blen group.1.length (bytes fun j => group.1.getD j 255) out
    generalize writeGroup blen group.1.length (bytes fun j => group.1.getD j 255) out = w at *
    generalize groupBytes group.1.length (bytes fun j => group.1.getD j 255) = g at *
    obtain ⟨w, more⟩ := w
    obtain ⟨g, whole⟩ := g
    simp only at hbytes hstop hgo h ⊢
    cases more with
    | true =>
      rw [hgo rfl] at h
      obtain ⟨d', hd', rfl⟩ := Option.map_eq_some_iff.1 h
      rw [if_pos rfl, ih w hd', hbytes, cut_append]
    | false =>
      rw [if_neg Bool.false_ne_true]
      cases whole with
      | false =>
        cases h
        rw [hbytes]
      | true =>
        obtain ⟨-, _, rfl⟩ := Option.map_eq_some_iff.1 h
        have hfull : blen ≤ w.length := (hstop rfl).resolve_left Bool.noConfusion
        rw [← cut_append, ← hbytes, cut_of_le hfull]

variable {code n bytes}

/-- A whole group lies in the text, since the terminator has no code. -/
theorem readGroup_whole (hcode : code 0 = 255) : ∀ {k : Nat} {a : List UInt8},
    k ≤ (readGroup code k a).1.length → k ≤ a.length ∧ (readGroup code k a).2 = a.drop k
  | 0, _, _ => ⟨Nat.zero_le _, rfl⟩
  | k + 1, a, h => by
      unfold readGroup at h ⊢
      split_ifs at h with hc
      · cases h
      rw [if_neg hc]
      cases a with
      | nil => exact absurd (beq_iff_eq.2 hcode) hc
      | cons c a =>
        obtain ⟨hlen, hrest⟩ := readGroup_whole hcode (Nat.le_of_succ_le_succ h)
        exact ⟨Nat.succ_le_succ hlen, hrest⟩

/-- **The decoder ends**, when the last byte of a group needs all of its characters. -/
theorem decodeAll_ends (hcode : code 0 = 255) (hn : 0 < n)
    (hwhole : ∀ i c, (groupBytes i (bytes c)).2 = true → n ≤ i) : ∀ {k : Nat} {a : List UInt8},
    a.length < k → ∃ d, decodeAll code n bytes k a = some d
  | 0, _, h => absurd h (Nat.not_lt_zero _)
  | k + 1, a, h => by
      unfold decodeAll
      simp only
      split_ifs with hgroup
      · obtain ⟨hlen, hrest⟩ := readGroup_whole hcode (hwhole _ _ hgroup)
        have hshort : (readGroup code n a).2.length < k := by
          rw [hrest, length_drop]
          omega
        obtain ⟨d, hd⟩ := decodeAll_ends hcode hn hwhole hshort
        exact ⟨_, by rw [hd]; rfl⟩
      · exact ⟨_, rfl⟩

/-- The decoder returns for every text and limit, with at most as many bytes as the limit, and they
    are the beginning of what it writes with a larger limit. -/
def Limited (atob : List UInt8 → Int32 → Option (List UInt8)) : Prop :=
  ∀ (a : List UInt8) (blen blen' : Int32), blen ≤ blen' → ∃ out out',
    atob a blen = some out ∧ atob a blen' = some out' ∧
      (out.length : Int) ≤ max blen.toInt 0 ∧ out <+: out'

theorem limited_decode (hcode : code 0 = 255) (hn : 0 < n)
    (hwhole : ∀ i c, (groupBytes i (bytes c)).2 = true → n ≤ i) :
    Limited fun a blen => decode code n bytes a blen.toInt := by
  intro a blen blen' h
  have hle := Int32.le_iff_toInt_le.1 h
  obtain ⟨d, hd⟩ := decodeAll_ends hcode hn hwhole (Nat.lt_succ_self a.length)
  refine ⟨_, _, decodeLoop_eq_take code n bytes blen.toInt [] hd,
    decodeLoop_eq_take code n bytes blen'.toInt [] hd, ?_, ?_⟩
  · simp only [cut, nil_append, length_take]
    omega
  · simp only [cut]
    exact take_prefix_take_left (by omega)

theorem decode_eq {a d : List UInt8} {blen : Int}
    (hd : decodeAll code n bytes (a.length + 1) a = some d) (h : d.length ≤ blen) :
    decode code n bytes a blen = some d := by
  unfold decode
  rw [decodeLoop_eq_take code n bytes blen [] hd, cut, nil_append, length_nil,
    take_of_length_le (by omega)]

/-- What the characters `enc c` are read as. -/
structure Alphabet (code enc code' : UInt8 → UInt8) : Prop where
  coded : ∀ c, code (enc c) = code' c
  read : ∀ c, (code' c == 255) = false
  terminator : code 0 = 255

section

variable {enc code' : UInt8 → UInt8} (h : Alphabet code enc code')
include h

theorem readGroup_append (rest : List UInt8) :
    ∀ (l : List UInt8) {k : Nat}, l.length ≤ k → readGroup code k (l.map enc ++ rest) =
      (l.map code' ++ (readGroup code (k - l.length) rest).1,
        (readGroup code (k - l.length) rest).2)
  | [], _, _ => rfl
  | c :: l, k + 1, hk => by
      have ih := readGroup_append rest l (Nat.le_of_succ_le_succ hk)
      have hsub : k + 1 - (c :: l).length = k - l.length := Nat.add_sub_add_right k 1 l.length
      rw [hsub]
      simp only [map_cons, cons_append, readGroup, headD_cons, tail_cons, h.coded c,
        h.read c, ih, Bool.false_eq_true, if_false]

theorem readGroup_nil (k) : readGroup code k [] = ([], []) := by
  cases k with
  | zero => rfl
  | succ k => simp [readGroup, h.terminator]

/-- **Decoding one group of characters that were encoded**, a whole one or the last. -/
theorem Alphabet.group (n bytes k)
    (l rest bs : List UInt8) (more : Bool) (hlen : l.length ≤ n) (hrest : l.length = n ∨ rest = [])
    (hgroup : groupBytes l.length (bytes fun j => (l.map code').getD j 255) = (bs, more)) :
    decodeAll code n bytes (k + 1) (l.map enc ++ rest) =
      if more then (decodeAll code n bytes k rest).map (bs ++ ·) else some bs := by
  have hread : readGroup code n (l.map enc ++ rest) = (l.map code', rest) := by
    rw [readGroup_append h rest l hlen]
    rcases hrest with hfull | rfl
    · rw [hfull]
      simp [readGroup]
    · rw [readGroup_nil h, append_nil]
  rw [decodeAll]
  simp only [hread, length_map, hgroup]

end

end Decoder

/-! ## 3. Base64 -/

namespace Base64

def to64 (c : UInt8) : UInt8 :=
  let c := c &&& 63
  if c < 26 then c + 65
  else if c < 52 then c - 26 + 97
  else if c < 62 then c - 52 + 48
  else if c == 62 then 45
  else 95

def from64 (c : UInt8) : UInt8 :=
  if c ≥ 65 && c ≤ 90 then c - 65
  else if c ≥ 97 && c ≤ 122 then c - 97 + 26
  else if c ≥ 48 && c ≤ 57 then c - 48 + 52
  else if c == 45 || c == 43 then 62
  else if c == 95 || c == 47 then 63
  else 255

/-- `Base64::btoa`: three bytes are four characters, and the last group ends with the first byte that
    is missing. -/
def btoa : List UInt8 → List UInt8
  | [] => []
  | [b0] => [to64 (b0 >>> 2), to64 (b0 <<< 4 ||| (0 : UInt8) >>> 4)]
  | [b0, b1] => [to64 (b0 >>> 2), to64 (b0 <<< 4 ||| b1 >>> 4), to64 (b1 <<< 2 ||| (0 : UInt8) >>> 6)]
  | b0 :: b1 :: b2 :: b =>
    to64 (b0 >>> 2) :: to64 (b0 <<< 4 ||| b1 >>> 4) :: to64 (b1 <<< 2 ||| b2 >>> 6) ::
      to64 b2 :: btoa b

/-- The bytes of a group, with the number of characters each needs. The first is written when any
    character was read. -/
def groupOf (c : Nat → UInt8) : List (Nat × UInt8) :=
  [(1, c 0 <<< 2 ||| (c 1 &&& 0x30) >>> 4), (3, c 1 <<< 4 ||| (c 2 &&& 0x3c) >>> 2),
    (4, c 2 <<< 6 ||| c 3)]

def atob (a : List UInt8) (blen : Int32) : Option (List UInt8) :=
  decode from64 4 groupOf a blen.toInt

/-- `Base64::atob` of a string; the size of the output is computed in a `size_t` and passed as an
    `int`. -/
def atobString (a : List UInt8) : Option (List UInt8) :=
  atob a (.ofNat (a.length * 3 % 2 ^ 64 / 4 + 3))

theorem alphabet : Alphabet from64 to64 (· &&& 63) where
  coded := forall_byte (by decide +kernel)
  read := forall_byte (by decide +kernel)
  terminator := by decide

theorem whole_groupOf (i : Nat) (c : Nat → UInt8) (h : (groupBytes i (groupOf c)).2 = true) :
    4 ≤ i := by
  simp [groupBytes, groupOf] at h
  omega

theorem groupOf_codes (b0 b1 b2 : UInt8) :
    (b0 >>> 2 &&& 63) <<< 2 ||| ((b0 <<< 4 ||| b1 >>> 4) &&& 63 &&& 0x30) >>> 4 = b0 ∧
      ((b0 <<< 4 ||| b1 >>> 4) &&& 63) <<< 4 ||| ((b1 <<< 2 ||| b2 >>> 6) &&& 63 &&& 0x3c) >>> 2 =
        b1 ∧
      ((b1 <<< 2 ||| b2 >>> 6) &&& 63) <<< 6 ||| (b2 &&& 63) = b2 := by
  refine ⟨?_, ?_, ?_⟩ <;> refine byte_ext fun i hi => ?_ <;> interval_cases i <;> simp

/-- **What was encoded is decoded.** -/
theorem decodeAll_btoa : ∀ (x : List UInt8) {k : Nat}, (btoa x).length < k →
    decodeAll from64 4 groupOf k (btoa x) = some x
  | _, 0, h => absurd h (Nat.not_lt_zero _)
  | [], k + 1, _ => rfl
  | [b0], k + 1, _ => by
      obtain ⟨h0, _⟩ := groupOf_codes b0 0 0
      exact alphabet.group 4 groupOf k [b0 >>> 2, b0 <<< 4 ||| (0 : UInt8) >>> 4] [] [b0] false (by simp)
        (.inr rfl) (congrArg (fun b => ([b], false)) h0)
  | [b0, b1], k + 1, _ => by
      obtain ⟨h0, h1, _⟩ := groupOf_codes b0 b1 0
      exact alphabet.group 4 groupOf k
        [b0 >>> 2, b0 <<< 4 ||| b1 >>> 4, b1 <<< 2 ||| (0 : UInt8) >>> 6] [] [b0, b1] false
        (by simp) (.inr rfl) (congrArg₂ (fun b b' => ([b, b'], false)) h0 h1)
  | b0 :: b1 :: b2 :: x, k + 1, h => by
      obtain ⟨h0, h1, h2⟩ := groupOf_codes ..
      have hstep := alphabet.group 4 groupOf k
        [b0 >>> 2, b0 <<< 4 ||| b1 >>> 4, b1 <<< 2 ||| b2 >>> 6, b2] (btoa x) [b0, b1, b2] true
        (by simp) (.inl rfl) (congr (congrArg₂ (fun a b c => ([a, b, c], true)) h0 h1) h2)
      rw [decodeAll_btoa x (by simp only [btoa, length_cons] at h; omega)] at hstep
      exact hstep

/-- **The round trip**, with room for the bytes. -/
theorem atob_btoa (x : List UInt8) {blen : Int32} (h : x.length ≤ blen.toInt) :
    atob (btoa x) blen = some x :=
  decode_eq (decodeAll_btoa x (lt_add_one _)) h

theorem limited_atob : Limited atob := limited_decode (by decide) (by decide) whole_groupOf

theorem length_btoa : ∀ x, (btoa x).length = (4 * x.length + 2) / 3
  | [] => rfl
  | [_] => by simp [btoa]
  | [_, _] => by simp [btoa]
  | _ :: _ :: _ :: x => by
      simp only [btoa, length_cons, length_btoa x]
      omega

/-- **The round trip of the string overloads**: the output is three bytes larger than what was
    encoded, and its size fits into an `int`. -/
theorem atobString_iff (x : List UInt8) :
    atobString (btoa x) = some x ↔ x.length < 2 ^ 31 - 3 := by
  have hsize (h : x.length < 2 ^ 31) :
      (btoa x).length * 3 % 2 ^ 64 / 4 + 3 = x.length + 3 := by
    rw [Nat.mod_eq_of_lt] <;> rw [length_btoa] <;> omega
  constructor
  · intro h
    obtain ⟨out, -, hout, -, hle, -⟩ := limited_atob (btoa x) _ _ (Int32.le_refl _)
    cases hout.symm.trans h
    have hint := Int32.toInt_lt (.ofNat ((btoa x).length * 3 % 2 ^ 64 / 4 + 3))
    by_contra hlarge
    have hlt : x.length < 2 ^ 31 := by omega
    rw [hsize hlt, Int32.toInt_ofNat', Int32.size, Int.bmod_def] at hle
    split at hle <;> omega
  · intro h
    refine atob_btoa x ?_
    rw [hsize (by omega), Int32.toInt_ofNat_of_lt (by omega)]
    omega

end Base64

/-! ## 4. Base32 -/

namespace Base32

def to32 (c : UInt8) : UInt8 :=
  let c := c &&& 31
  if c < 26 then c + 97
  else c - 26 + 50

/-- `8` and `9` have codes, too, though `to32` never gives them. -/
def from32 (c : UInt8) : UInt8 :=
  if c ≥ 97 && c ≤ 122 then c - 97
  else if c ≥ 50 && c ≤ 57 then c - 50 + 26
  else 255

/-- The characters `btoa` writes: five bytes are eight of them. -/
def encode : List UInt8 → List UInt8
  | [] => []
  | [b0] => [to32 (b0 >>> 3), to32 (b0 <<< 2 ||| (0 : UInt8) >>> 6)]
  | [b0, b1] =>
    [to32 (b0 >>> 3), to32 (b0 <<< 2 ||| b1 >>> 6), to32 (b1 >>> 1),
      to32 (b1 <<< 4 ||| (0 : UInt8) >>> 4)]
  | [b0, b1, b2] =>
    [to32 (b0 >>> 3), to32 (b0 <<< 2 ||| b1 >>> 6), to32 (b1 >>> 1),
      to32 (b1 <<< 4 ||| b2 >>> 4), to32 (b2 <<< 1 ||| (0 : UInt8) >>> 7)]
  | [b0, b1, b2, b3] =>
    [to32 (b0 >>> 3), to32 (b0 <<< 2 ||| b1 >>> 6), to32 (b1 >>> 1),
      to32 (b1 <<< 4 ||| b2 >>> 4), to32 (b2 <<< 1 ||| b3 >>> 7), to32 (b3 >>> 2),
      to32 (b3 <<< 3 ||| (0 : UInt8) >>> 5)]
  | b0 :: b1 :: b2 :: b3 :: b4 :: b =>
    to32 (b0 >>> 3) :: to32 (b0 <<< 2 ||| b1 >>> 6) :: to32 (b1 >>> 1) ::
      to32 (b1 <<< 4 ||| b2 >>> 4) :: to32 (b2 <<< 1 ||| b3 >>> 7) :: to32 (b3 >>> 2) ::
      to32 (b3 <<< 3 ||| b4 >>> 5) :: to32 b4 :: encode b

/-- `Base32::btoa`. The bytes and the characters are counted in an `int` each: `none` where one
    overflows. -/
def btoa (b : List UInt8) : Option (List UInt8) :=
  if b.length < 2 ^ 31 ∧ (encode b).length < 2 ^ 31 then some (encode b) else none

def groupOf (c : Nat → UInt8) : List (Nat × UInt8) :=
  [(1, c 0 <<< 3 ||| (c 1 &&& 0x1C) >>> 2),
    (4, c 1 <<< 6 ||| c 2 <<< 1 ||| (c 3 &&& 0x10) >>> 4),
    (5, c 3 <<< 4 ||| (c 4 &&& 0x1E) >>> 1),
    (7, c 4 <<< 7 ||| c 5 <<< 2 ||| (c 6 &&& 0x18) >>> 3),
    (8, c 6 <<< 5 ||| c 7)]

def atob (a : List UInt8) (blen : Int32) : Option (List UInt8) :=
  decode from32 8 groupOf a blen.toInt

theorem alphabet : Alphabet from32 to32 (· &&& 31) where
  coded := forall_byte (by decide +kernel)
  read := forall_byte (by decide +kernel)
  terminator := by decide

theorem whole_groupOf (i : Nat) (c : Nat → UInt8) (h : (groupBytes i (groupOf c)).2 = true) :
    8 ≤ i := by
  simp [groupBytes, groupOf] at h
  omega

theorem groupOf_codes (b0 b1 b2 b3 b4 : UInt8) :
    (b0 >>> 3 &&& 31) <<< 3 ||| ((b0 <<< 2 ||| b1 >>> 6) &&& 31 &&& 0x1C) >>> 2 = b0 ∧
      ((b0 <<< 2 ||| b1 >>> 6) &&& 31) <<< 6 ||| (b1 >>> 1 &&& 31) <<< 1 |||
        ((b1 <<< 4 ||| b2 >>> 4) &&& 31 &&& 0x10) >>> 4 = b1 ∧
      ((b1 <<< 4 ||| b2 >>> 4) &&& 31) <<< 4 ||| ((b2 <<< 1 ||| b3 >>> 7) &&& 31 &&& 0x1E) >>> 1 =
        b2 ∧
      ((b2 <<< 1 ||| b3 >>> 7) &&& 31) <<< 7 ||| (b3 >>> 2 &&& 31) <<< 2 |||
        ((b3 <<< 3 ||| b4 >>> 5) &&& 31 &&& 0x18) >>> 3 = b3 ∧
      ((b3 <<< 3 ||| b4 >>> 5) &&& 31) <<< 5 ||| (b4 &&& 31) = b4 := by
  refine ⟨?_, ?_, ?_, ?_, ?_⟩ <;> refine byte_ext fun i hi => ?_ <;> interval_cases i <;> simp

/-- **What was encoded is decoded.** -/
theorem decodeAll_encode : ∀ (x : List UInt8) {k : Nat}, (encode x).length < k →
    decodeAll from32 8 groupOf k (encode x) = some x
  | _, 0, h => absurd h (Nat.not_lt_zero _)
  | [], k + 1, _ => rfl
  | [b0], k + 1, _ => by
      obtain ⟨h0, _⟩ := groupOf_codes b0 0 0 0 0
      exact alphabet.group 8 groupOf k [b0 >>> 3, b0 <<< 2 ||| (0 : UInt8) >>> 6] [] [b0] false (by simp)
        (.inr rfl) (congrArg (fun b => ([b], false)) h0)
  | [b0, b1], k + 1, _ => by
      obtain ⟨h0, h1, _⟩ := groupOf_codes b0 b1 0 0 0
      exact alphabet.group 8 groupOf k
        [b0 >>> 3, b0 <<< 2 ||| b1 >>> 6, b1 >>> 1, b1 <<< 4 ||| (0 : UInt8) >>> 4] [] [b0, b1] false
        (by simp) (.inr rfl) (congrArg₂ (fun a b => ([a, b], false)) h0 h1)
  | [b0, b1, b2], k + 1, _ => by
      obtain ⟨h0, h1, h2, _⟩ := groupOf_codes b0 b1 b2 0 0
      exact alphabet.group 8 groupOf k
        [b0 >>> 3, b0 <<< 2 ||| b1 >>> 6, b1 >>> 1, b1 <<< 4 ||| b2 >>> 4,
          b2 <<< 1 ||| (0 : UInt8) >>> 7] [] [b0, b1, b2] false
        (by simp) (.inr rfl) (congr (congrArg₂ (fun a b c => ([a, b, c], false)) h0 h1) h2)
  | [b0, b1, b2, b3], k + 1, _ => by
      obtain ⟨h0, h1, h2, h3, _⟩ := groupOf_codes b0 b1 b2 b3 0
      exact alphabet.group 8 groupOf k
        [b0 >>> 3, b0 <<< 2 ||| b1 >>> 6, b1 >>> 1, b1 <<< 4 ||| b2 >>> 4, b2 <<< 1 ||| b3 >>> 7,
          b3 >>> 2, b3 <<< 3 ||| (0 : UInt8) >>> 5] [] [b0, b1, b2, b3] false
        (by simp) (.inr rfl)
        (congr (congr (congrArg₂ (fun a b c d => ([a, b, c, d], false)) h0 h1) h2) h3)
  | b0 :: b1 :: b2 :: b3 :: b4 :: x, k + 1, h => by
      obtain ⟨h0, h1, h2, h3, h4⟩ := groupOf_codes ..
      have hstep := alphabet.group 8 groupOf k
        [b0 >>> 3, b0 <<< 2 ||| b1 >>> 6, b1 >>> 1, b1 <<< 4 ||| b2 >>> 4, b2 <<< 1 ||| b3 >>> 7,
          b3 >>> 2, b3 <<< 3 ||| b4 >>> 5, b4] (encode x) [b0, b1, b2, b3, b4] true
        (by simp) (.inl rfl)
        (congr (congr (congr (congrArg₂ (fun a b c d e => ([a, b, c, d, e], true)) h0 h1) h2) h3) h4)
      rw [decodeAll_encode x (by simp only [encode, length_cons] at h; omega)] at hstep
      exact hstep

theorem length_encode : ∀ x, (encode x).length = (8 * x.length + 4) / 5
  | [] => rfl
  | [_] => by simp [encode]
  | [_, _] => by simp [encode]
  | [_, _, _] => by simp [encode]
  | [_, _, _, _] => by simp [encode]
  | _ :: _ :: _ :: _ :: _ :: x => by
      simp only [encode, length_cons, length_encode x]
      omega

theorem btoa_eq_none_iff (x : List UInt8) : btoa x = none ↔ 1342177280 ≤ x.length := by
  rw [btoa, length_encode]
  split
  · simp only [reduceCtorEq, false_iff]
    omega
  · simp only [true_iff]
    omega

/-- **The round trip**, with room for the bytes: all characters are counted. -/
theorem atob_btoa_iff (x : List UInt8) {blen : Int32} (h : x.length ≤ blen.toInt) :
    (btoa x).bind (atob · blen) = some x ↔ x.length < 1342177280 := by
  have hnone := btoa_eq_none_iff x
  unfold btoa at hnone ⊢
  split
  · next hfit =>
    rw [if_pos hfit] at hnone
    have hdec : atob (encode x) blen = some x := decode_eq (decodeAll_encode x (lt_add_one _)) h
    simp only [Option.bind_some, hdec, true_iff]
    exact not_le.1 fun hle => absurd (hnone.2 hle) (Option.some_ne_none _)
  · next hfit =>
    rw [if_neg hfit] at hnone
    simp only [Option.bind_none, reduceCtorEq, false_iff, not_lt]
    exact hnone.1 rfl

theorem limited_atob : Limited atob := limited_decode (by decide) (by decide) whole_groupOf

end Base32

/-! ## 5. Both codecs -/

/-- **Both codecs are exact**: what was encoded comes back, with any limit that leaves room for it,
    as long as no `int` overflows, and a limit only cuts off. -/
theorem codecs_exact :
    (∀ x, Base64.atobString (Base64.btoa x) = some x ↔ x.length < 2 ^ 31 - 3) ∧
    (∀ (x : List UInt8) (blen : Int32), x.length ≤ blen.toInt →
      Base64.atob (Base64.btoa x) blen = some x ∧
      ((Base32.btoa x).bind (Base32.atob · blen) = some x ↔ x.length < 1342177280)) ∧
    Limited Base64.atob ∧ Limited Base32.atob := by
  refine ⟨Base64.atobString_iff, fun x blen h => ?_, Base64.limited_atob, Base32.limited_atob⟩
  exact ⟨Base64.atob_btoa x h, Base32.atob_btoa_iff x h⟩

/-- The text `SGk` is `Hi`; with room for one byte it is `H`. -/
theorem codecs_exact_hi : Base64.btoa [72, 105] = [83, 71, 107] ∧
    Base64.atob [83, 71, 107] 5 = some [72, 105] ∧
    (Base32.btoa [72, 105]).bind (Base32.atob · 5) = some [72, 105] ∧
      ∃ out', Base64.atob [83, 71, 107] 5 = some out' ∧ [72] <+: out' := by
  obtain ⟨-, hround, hlimit, _⟩ := codecs_exact
  obtain ⟨out, out', hout, hout', _, hpre⟩ := hlimit [83, 71, 107] 1 5 (by decide)
  have hone : Base64.atob [83, 71, 107] 1 = some [72] := by decide +kernel
  cases hone.symm.trans hout
  obtain ⟨h64, h32⟩ := hround [72, 105] 5 (by decide)
  exact ⟨by decide +kernel, h64, h32.2 (by decide), out', hout', hpre⟩

/-- A string that is three bytes short of 2 ^ 31 does not come back, and the characters of 1342177280
    bytes in Base32 are more than an `int` counts. -/
theorem codecs_overflow :
    Base64.atobString (Base64.btoa (replicate (2 ^ 31 - 3) 0)) ≠ some (replicate (2 ^ 31 - 3) 0) ∧
      Base32.btoa (replicate 1342177280 0) = none := by
  refine ⟨fun h => ?_, (Base32.btoa_eq_none_iff _).2 (by rw [length_replicate])⟩
  have hlt := (Base64.atobString_iff _).1 h
  rw [length_replicate] at hlt
  omega

end MegaSdk
