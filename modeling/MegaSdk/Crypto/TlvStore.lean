/-
  File:      MegaSdk/Crypto/TlvStore.lean
  Subject:   `TLVstore` (tlv.cpp): RECORDS OF TYPE, LENGTH AND VALUE IN A CONTAINER, and back.

  * `readRecords_container` -- the loop reads back records whose values fit their length field;
  * `containerToTLVrecords_large` -- a large container that starts with an empty type is taken
    as one record, whatever stands in it;
  * **`containerToTLVrecords_iff`** -- so a map comes back unless the record with the empty type is
    one of several, and they are large together.
-/
import MegaSdk.Base.OrdMap
import MegaSdk.Base.Bytes

namespace MegaSdk.Tlv

open Base List

/-! ## 1. The code -/

structure TlvType where
  bytes : List UInt8
deriving DecidableEq, Repr

theorem TlvType.toNat_injective :
    Function.Injective fun t : TlvType => t.bytes.map UInt8.toNat := by
  rintro ⟨a⟩ ⟨b⟩ h
  exact congrArg TlvType.mk (map_injective_iff.2 (fun _ _ => UInt8.toNat_inj.1) h)

/-- `std::string` compares byte by byte, without sign. -/
instance : LinearOrder TlvType :=
  LinearOrder.lift' (fun t => t.bytes.map UInt8.toNat) TlvType.toNat_injective

abbrev TlvMap := OrdMap TlvType (List UInt8)

def resize (s : List UInt8) (n : Nat) : List UInt8 := s.take n ++ List.replicate (n - s.length) 0

/-- One round of `tlvRecordsToContainer`: the result and the offset in it. -/
def appendRecord (s : List UInt8 × Nat) (e : TlvType × List UInt8) : List UInt8 × Nat :=
  let result := s.1 ++ e.1.bytes
  let offset := s.2 + (e.1.bytes.length + 1)
  let length := if e.2.length > 0xFFFF then 0xFFFF else e.2.length
  let result := (resize result (offset + 2)).set offset (UInt8.ofNat (length >>> 8))
  let result := result.set (offset + 1) (UInt8.ofNat (length &&& 0xFF))
  let offset := offset + 2
  (result ++ e.2, offset + e.2.length)

def tlvRecordsToContainer (m : TlvMap) : List UInt8 := (m.entries.foldl appendRecord ([], 0)).1

/-- One round of `containerToTLVrecords` over the bytes from `offset` on: type, value and the bytes
behind them. -/
def readRecord (rest : List UInt8) : Option (TlvType × List UInt8 × List UInt8) :=
  match rest.findIdx? (· == 0) with
  | none => none
  | some typelen =>
    if typelen + 3 > rest.length then none
    else
      let valuelen := (rest.getD (typelen + 1) 0).toNat <<< 8 ||| (rest.getD (typelen + 2) 0).toNat
      let rest' := rest.drop (typelen + 3)
      if valuelen > rest'.length then none
      else some (⟨rest.take typelen⟩, rest'.take valuelen, rest'.drop valuelen)

/-- `while (offset < datalen)`, in at most `n` rounds. -/
def readRecords : Nat → List UInt8 → TlvMap → Option TlvMap
  | _, [], m => some m
  | 0, _, _ => none
  | n + 1, rest, m =>
    match readRecord rest with
    | none => none
    | some (type, value, rest) => readRecords n rest (m.insert type value)

def containerToTLVrecords (data : List UInt8) : Option TlvMap :=
  if data.isEmpty then none
  else if data.length ≥ 1 + 2 + 0xFFFF ∧ data.headD 0 = 0 then
    some (OrdMap.empty.insert ⟨[]⟩ (data.drop 3))
  else readRecords data.length data OrdMap.empty

/-! ## 2. The container -/

def lengthField (n : Nat) : List UInt8 :=
  [UInt8.ofNat (min n 0xFFFF >>> 8), UInt8.ofNat (min n 0xFFFF &&& 0xFF)]

def recordBytes (e : TlvType × List UInt8) : List UInt8 :=
  e.1.bytes ++ 0 :: (lengthField e.2.length ++ e.2)

theorem appendRecord_eq (s : List UInt8) (e : TlvType × List UInt8) :
    appendRecord (s, s.length) e = (s ++ recordBytes e, (s ++ recordBytes e).length) := by
  have hmin : (if e.2.length > 0xFFFF then 0xFFFF else e.2.length) = min e.2.length 0xFFFF := by
    split <;> omega
  have hresize : resize (s ++ e.1.bytes) (s.length + (e.1.bytes.length + 1) + 2) =
      (s ++ e.1.bytes ++ [0]) ++ [0, 0] := by
    rw [resize, take_of_length_le (by simp; omega), length_append,
      show s.length + (e.1.bytes.length + 1) + 2 - (s.length + e.1.bytes.length) = 3 by omega]
    simp [List.replicate]
  have hlen : s.length + (e.1.bytes.length + 1) = (s ++ e.1.bytes ++ [0]).length := by
    simp
  unfold appendRecord
  simp only [hmin, hresize]
  rw [hlen, set_append_right _ _ le_rfl, set_append_right _ _ (by omega)]
  simp [recordBytes, lengthField]
  omega

theorem container_eq (m : TlvMap) : tlvRecordsToContainer m = m.entries.flatMap recordBytes := by
  have hall : ∀ (es : List (TlvType × List UInt8)) (s : List UInt8),
      (es.foldl appendRecord (s, s.length)).1 = s ++ es.flatMap recordBytes := fun es => by
    induction es with
    | nil => simp
    | cons e es ih =>
      intro s
      rw [foldl_cons, appendRecord_eq, ih, flatMap_cons, append_assoc]
  exact hall m.entries []

theorem length_recordBytes (e : TlvType × List UInt8) :
    (recordBytes e).length = e.1.bytes.length + 3 + e.2.length := by
  simp [recordBytes, lengthField]
  omega

/-! ## 3. Reading it -/

theorem findIdx?_nul {t : List UInt8} (h : 0 ∉ t) (p : List UInt8) :
    (t ++ 0 :: p).findIdx? (· == 0) = some t.length := by
  induction t with
  | nil => rfl
  | cons c t ih =>
    have hc : (c == 0) = false := beq_eq_false_iff_ne.2 fun hc => h (hc ▸ mem_cons_self)
    rw [cons_append, findIdx?_cons, hc, ih fun h0 => h (mem_cons_of_mem _ h0)]
    rfl

theorem lengthField_spec {n : Nat} (h : n ≤ 0xFFFF) :
    ∃ hi lo : UInt8, lengthField n = [hi, lo] ∧ hi.toNat <<< 8 ||| lo.toNat = n := by
  refine ⟨_, _, rfl, ?_⟩
  have hand : n &&& 0xFF = n % 256 := Nat.and_two_pow_sub_one_eq_mod n 8
  have hshift : n >>> 8 = n / 256 := Nat.shiftRight_eq_div_pow n 8
  rw [Nat.min_eq_left h, UInt8.toNat_ofNat', UInt8.toNat_ofNat',
    ← Nat.shiftLeft_add_eq_or_of_lt (by omega)]
  omega

theorem readRecord_record {e : TlvType × List UInt8} (hnul : 0 ∉ e.1.bytes)
    (hlen : e.2.length ≤ 0xFFFF) (p : List UInt8) :
    readRecord (recordBytes e ++ p) = some (e.1, e.2, p) := by
  obtain ⟨⟨t⟩, v⟩ := e
  obtain ⟨hi, lo, hfield, hval⟩ := lengthField_spec hlen
  have htext : recordBytes (⟨t⟩, v) ++ p = t ++ 0 :: hi :: lo :: (v ++ p) := by
    simp only [recordBytes, hfield]
    simp
  have hdrop : (t ++ 0 :: hi :: lo :: (v ++ p)).drop (t.length + 3) = v ++ p := by
    rw [← drop_drop, drop_left' rfl]
    rfl
  have hhi : (t ++ 0 :: hi :: lo :: (v ++ p)).getD (t.length + 1) 0 = hi := by
    simp
  have hlo : (t ++ 0 :: hi :: lo :: (v ++ p)).getD (t.length + 2) 0 = lo := by
    simp
  rw [htext, readRecord, findIdx?_nul hnul]
  simp only [hdrop, hhi, hlo]
  rw [hval, if_neg (by simp), if_neg (by simp), take_left' rfl, take_left' rfl,
    drop_left' rfl]

theorem readRecords_entries {es : List (TlvType × List UInt8)} {m : TlvMap}
    (hnul : ∀ e ∈ es, 0 ∉ e.1.bytes) (hlen : ∀ e ∈ es, e.2.length ≤ 0xFFFF) {n : Nat}
    (hn : es.length ≤ n) : readRecords n (es.flatMap recordBytes) m =
      some (es.foldl (fun m e => m.insert e.1 e.2) m) := by
  induction es generalizing m n with
  | nil => rw [flatMap_nil, readRecords, foldl_nil]
  | cons e es ih =>
    rw [length_cons] at hn
    obtain _ | n := n
    · omega
    have hread := readRecord_record (hnul e mem_cons_self) (hlen e mem_cons_self)
      (es.flatMap recordBytes)
    rw [flatMap_cons, readRecords]
    · rw [hread]
      exact ih (fun e he => hnul e (mem_cons_of_mem _ he))
        (fun e he => hlen e (mem_cons_of_mem _ he)) (by omega)
    intro h0
    rw [h0] at hread
    exact nomatch hread

theorem readRecords_container {m : TlvMap} (hnul : ∀ e ∈ m.entries, 0 ∉ e.1.bytes)
    (hlen : ∀ e ∈ m.entries, e.2.length ≤ 0xFFFF) :
    readRecords (tlvRecordsToContainer m).length (tlvRecordsToContainer m) OrdMap.empty =
      some m := by
  rw [container_eq]
  have hfuel : m.entries.length ≤ (m.entries.flatMap recordBytes).length :=
    length_le_flatMap (by simp [recordBytes])
  rw [readRecords_entries hnul hlen hfuel, OrdMap.foldl_insert_entries]

/-! ## 4. Round trips -/

/-- What `tlvRecordsToContainer` asserts: only a record that is alone and has the empty type is
larger than its length field can say. -/
def Asserted (m : TlvMap) : Prop :=
  ∀ e ∈ m.entries, e.2.length > 0xFFFF → e.1 = ⟨[]⟩ ∧ m.size = 1

def recordsSize (m : TlvMap) : Nat :=
  (m.entries.map fun e => e.1.bytes.length + 3 + e.2.length).sum

theorem length_container (m : TlvMap) : (tlvRecordsToContainer m).length = recordsSize m := by
  rw [container_eq, length_flatMap, recordsSize]
  simp [length_recordBytes]

theorem empty_lt {t : TlvType} (h : t ≠ ⟨[]⟩) : (⟨[]⟩ : TlvType) < t := by
  obtain ⟨bytes⟩ := t
  cases bytes with
  | nil => exact absurd rfl h
  | cons c bytes => exact nil_lt_cons _ _

theorem head_container_iff {e : TlvType × List UInt8} {es : List (TlvType × List UInt8)}
    (hsorted : (e :: es).Pairwise fun a b => a.1 < b.1) (hnul : ∀ a ∈ e :: es, 0 ∉ a.1.bytes) :
    ((e :: es).flatMap recordBytes).headD 0 = 0 ↔ ∃ v, (⟨[]⟩, v) ∈ e :: es := by
  obtain ⟨⟨t⟩, w⟩ := e
  cases t with
  | nil => exact ⟨fun _ => ⟨w, mem_cons_self⟩, fun _ => rfl⟩
  | cons c t =>
    have hc : c ≠ 0 := fun hc => hnul _ mem_cons_self (hc ▸ mem_cons_self)
    refine ⟨fun h => absurd h hc, ?_⟩
    rintro ⟨v, hv⟩
    rcases mem_cons.1 hv with hv | hv
    · exact nomatch hv
    · have hlt := (pairwise_cons.1 hsorted).1 _ hv
      exact absurd (empty_lt (by simp)) (not_lt_of_gt hlt)

/-- A large container that starts with an empty type is one record. -/
theorem containerToTLVrecords_large {m : TlvMap} (hsize : 65538 ≤ recordsSize m)
    (hnul : ∀ e ∈ m.entries, 0 ∉ e.1.bytes) (hempty : ∃ v, (⟨[]⟩, v) ∈ m.entries) :
    containerToTLVrecords (tlvRecordsToContainer m) =
      some (OrdMap.empty.insert ⟨[]⟩ ((tlvRecordsToContainer m).drop 3)) := by
  have hlen := length_container m
  have hne : (tlvRecordsToContainer m).isEmpty = false := by
    rw [isEmpty_eq_false_iff, ← length_pos_iff]
    omega
  have hhead : (tlvRecordsToContainer m).headD 0 = 0 := by
    rw [container_eq]
    obtain ⟨es, hsorted⟩ := m
    cases es with
    | nil => exact absurd hempty (by simp)
    | cons e es => exact (head_container_iff hsorted hnul).2 hempty
  unfold containerToTLVrecords
  rw [hne, if_neg Bool.false_ne_true, if_pos ⟨by omega, hhead⟩]

theorem containerToTLVrecords_small {m : TlvMap} (hne : m.entries ≠ [])
    (hnul : ∀ e ∈ m.entries, 0 ∉ e.1.bytes) (hassert : Asserted m)
    (h : recordsSize m < 65538 ∨ ¬∃ v, (⟨[]⟩, v) ∈ m.entries) :
    containerToTLVrecords (tlvRecordsToContainer m) = some m := by
  have hlen := length_container m
  have hrecord : ∀ e ∈ m.entries, e.1.bytes.length + 3 + e.2.length ≤ recordsSize m := fun e he =>
    le_sum_of_mem (mem_map.2 ⟨e, he, rfl⟩)
  -- a value that does not fit its length field makes a large container of the empty type
  have hfit : ∀ e ∈ m.entries, e.2.length ≤ 0xFFFF := fun e he => by
    refine not_lt.1 fun hbig => ?_
    rcases h with h | h
    · have := hrecord e he
      omega
    · exact h ⟨e.2, (hassert e he hbig).1 ▸ he⟩
  have hnotlarge : ¬((tlvRecordsToContainer m).length ≥ 1 + 2 + 0xFFFF ∧
      (tlvRecordsToContainer m).headD 0 = 0) := by
    rintro ⟨hlarge, hhead⟩
    rcases h with h | h
    · omega
    rw [container_eq] at hhead
    obtain ⟨es, hsorted⟩ := m
    cases es with
    | nil => exact hne rfl
    | cons e es => exact h ((head_container_iff hsorted hnul).1 hhead)
  have hpos : (tlvRecordsToContainer m).isEmpty = false := by
    obtain ⟨e, he⟩ := exists_mem_of_ne_nil _ hne
    have := hrecord e he
    rw [isEmpty_eq_false_iff, ← length_pos_iff]
    omega
  unfold containerToTLVrecords
  rw [hpos, if_neg hnotlarge]
  exact readRecords_container hnul hfit

/-- **A map of records comes back from its container** exactly when it has one record, or none with
the empty type, or its records take less than 65538 bytes. -/
theorem containerToTLVrecords_iff (m : TlvMap) (hne : m.entries ≠ [])
    (hnul : ∀ e ∈ m.entries, 0 ∉ e.1.bytes) (hassert : Asserted m) :
    containerToTLVrecords (tlvRecordsToContainer m) = some m ↔
      m.size = 1 ∨ (∀ e ∈ m.entries, e.1 ≠ ⟨[]⟩) ∨ recordsSize m < 65538 := by
  by_cases hlarge : 65538 ≤ recordsSize m ∧ ∃ v, (⟨[]⟩, v) ∈ m.entries
  · obtain ⟨hsize, v, hv⟩ := hlarge
    rw [containerToTLVrecords_large hsize hnul ⟨v, hv⟩]
    constructor
    · intro h
      rw [← Option.some.inj h]
      exact .inl rfl
    rintro (h1 | hno | hlt)
    · obtain ⟨e, he⟩ := length_eq_one_iff.1 h1
      rw [he, mem_singleton] at hv
      rw [container_eq]
      refine congrArg some (OrdMap.ext_entries ?_)
      rw [he, ← hv]
      simp
      rfl
    · exact absurd rfl (hno _ hv)
    · omega
  · have hsmall : recordsSize m < 65538 ∨ ¬∃ v, (⟨[]⟩, v) ∈ m.entries := by
      by_cases hsize : recordsSize m < 65538
      · exact .inl hsize
      · exact .inr fun hv => hlarge ⟨by omega, hv⟩
    refine iff_of_true (containerToTLVrecords_small hne hnul hassert hsmall) (.inr ?_)
    rcases hsmall with h | h
    · exact .inr h
    · exact .inl fun e he h0 => h ⟨e.2, h0 ▸ he⟩

/-- One record with the empty type and one with the type `a`. -/
def twoRecords (v w : List UInt8) : TlvMap := (OrdMap.empty.insert ⟨[]⟩ v).insert ⟨[97]⟩ w

theorem entries_twoRecords (v w : List UInt8) :
    (twoRecords v w).entries = [(⟨[]⟩, v), (⟨[97]⟩, w)] := by
  rfl

theorem containerToTLVrecords_iff_two :
    containerToTLVrecords (tlvRecordsToContainer (twoRecords [1] [0, 2])) =
      some (twoRecords [1] [0, 2]) := by
  refine (containerToTLVrecords_iff _ ?_ ?_ ?_).2 (.inr (.inr ?_))
  all_goals simp [Asserted, recordsSize, entries_twoRecords]

/-- Two records that are large together: the second comes back as a part of the first. -/
theorem containerToTLVrecords_merged :
    let m := twoRecords [] (List.replicate 65535 98)
    (∀ e ∈ m.entries, 0 ∉ e.1.bytes) ∧ Asserted m ∧
      containerToTLVrecords (tlvRecordsToContainer m) =
        some (OrdMap.empty.insert ⟨[]⟩ ((tlvRecordsToContainer m).drop 3)) ∧
      containerToTLVrecords (tlvRecordsToContainer m) ≠ some m := by
  have hall : ∀ w : List UInt8, w.length = 65535 →
      (∀ e ∈ (twoRecords [] w).entries, 0 ∉ e.1.bytes) ∧ Asserted (twoRecords [] w) ∧
        containerToTLVrecords (tlvRecordsToContainer (twoRecords [] w)) =
          some (OrdMap.empty.insert ⟨[]⟩ ((tlvRecordsToContainer (twoRecords [] w)).drop 3)) ∧
        containerToTLVrecords (tlvRecordsToContainer (twoRecords [] w)) ≠ some (twoRecords [] w) := by
    intro w hw
    have hent := entries_twoRecords [] w
    have hnul : ∀ e ∈ (twoRecords [] w).entries, 0 ∉ e.1.bytes := by simp [hent]
    have hlarge := containerToTLVrecords_large
      (by simp [recordsSize, hent, hw]) hnul ⟨[], by simp [hent]⟩
    refine ⟨hnul, by simp [Asserted, hent, hw], hlarge, fun h => ?_⟩
    rw [hlarge] at h
    have hsize := congrArg (fun m => m.entries.length) (Option.some.inj h)
    simp [hent, OrdMap.insertL, OrdMap.empty] at hsize
  exact hall _ length_replicate

end MegaSdk.Tlv
