/-
  File:      MegaSdk/Nodes/AttrMap.lean
  Subject:   `AttrMap` (attrmap.cpp): A NODE'S ATTRIBUTES, AS JSON AND IN BYTES.

  An attribute's name is packed into the bytes of a 64-bit number, first character first.

  * `getjson`, `fromjson` -- with the escaper of their own, and `getNameidSkipNull` of the scanner;
  * `fromjson_getjson` -- what comes back from JSON: every value up to what its length is as an `int`;
  * **`attrMap_roundTrip`** -- so a map comes back exactly when its values are shorter than `2^31`
    bytes, and from its bytes when they are not longer than two bytes can say.
-/
import MegaSdk.Base.OrdMap
import MegaSdk.Base.Bytes
import MegaSdk.Json.Escape

namespace MegaSdk.Nodes

open Base Json List OrdMap UInt8

variable {id n k : Nat} {e : Nat × List UInt8} {es : List (Nat × List UInt8)}
  {lead v name d : List UInt8} {p : Cursor}

/-! ## 1. The code -/

/-- `static_cast<nameid>(*ptr)` of a `char`: the sign is extended. -/
def nameidOfChar (c : UInt8) : Nat := if c < 0x80 then c.toNat else c.toNat + (2 ^ 64 - 256)

/-- `while (*ptr && *ptr != '"') id = (id << 8) + ...`. -/
def nameLoop : Nat → Cursor → Except Trap (Nat × Cursor)
  | _, [] => .error .overread
  | id, c :: ptr =>
    if c ≠ 0 ∧ c ≠ ch '"' then nameLoop ((id * 256 + nameidOfChar c) % 2 ^ 64) ptr
    else .ok (id, c :: ptr)

def nullText : List UInt8 := [ch 'n', ch 'u', ch 'l', ch 'l']

/-- `JSON::skipnullvalue()`: what it returns, and `pos` behind the call. -/
def skipnullvalue (pos : Cursor) : Except Trap (Bool × Cursor) := do
  let c ← deref pos
  if c = ch ',' then .ok (true, pos.tail)
  else if c = ch ']' ∨ c = ch '}' then .ok (true, pos)
  else if c = ch 'n' ∧ nullText.isPrefixOf pos then
    let d ← deref (pos.drop 4)
    if d = ch ',' then .ok (true, pos.drop 5)
    else if d = ch ']' ∨ d = ch '}' then .ok (true, pos.drop 4)
    else .ok (false, pos)
  else .ok (false, pos)

/-- The name at `pos`, and `pos` behind it and its colon; 0 where there is none. -/
def readName (pos : Cursor) : Except Trap (Nat × Cursor) := do
  let c ← deref pos
  let ptr := if c = ch ',' ∨ c = ch ':' then pos.tail else pos
  let c ← deref ptr
  if c = ch '"' then
    let (id, ptr) ← nameLoop 0 ptr.tail
    let pos := ptr.tail
    let c ← deref pos
    .ok (id, if c = ch ':' ∨ c = ch ',' then pos.tail else pos)
  else .ok (0, pos)

/-- `JSON::getNameidSkipNull(skipnullvalues)`: behind a value that is skipped it starts over. -/
def getNameidSkipNull : Nat → Bool → Cursor → Except Trap (Nat × Cursor)
  | 0, _, _ => .error .unended
  | n + 1, skipnullvalues, pos => do
      let (id, pos) ← readName pos
      if id ≠ 0 ∧ skipnullvalues = true then
        let (skippedNull, pos) ← skipnullvalue pos
        if skippedNull then getNameidSkipNull n true pos else .ok (id, pos)
      else .ok (id, pos)

/-- `JSON::getnameid()`. Every time it starts over `pos` has moved. -/
def getnameid (pos : Cursor) : Except Trap (Nat × Cursor) :=
  getNameidSkipNull (pos.length + 1) true pos

/-- `AttrMap`: names in the order of their numbers. -/
abbrev AttrMap := OrdMap Nat (List UInt8)

variable {m : AttrMap}

/-- The loop of `nameid2string`, over the bytes from the top: zeros are left out. -/
def nameidLoop (id : Nat) : Nat → List UInt8
  | 0 => []
  | k + 1 =>
    let c := UInt8.ofNat (id >>> (8 * k))
    if c ≠ 0 then c :: nameidLoop id k else nameidLoop id k

def nameid2string (id : Nat) : List UInt8 := nameidLoop id 8

def jsonEscape (c : UInt8) : List UInt8 :=
  ch '\\' ::
    (if c = ch '"' then [ch '"']
    else if c = ch '\\' then [ch '\\']
    else if c = 10 then [ch 'n']
    else if c = 13 then [ch 'r']
    else if c = 8 then [ch 'b']
    else if c = 12 then [ch 'f']
    else if c = 9 then [ch 't']
    else [ch 'u', ch '0', ch '0', hexDigit (c.toNat / 16), hexDigit (c.toNat % 16)])

/-- What the loop over a value stops at. -/
def isEscaped (c : UInt8) : Bool := c < 0x20 || c == ch '"' || c == ch '\\'

/-- The loop over a value; `run` is what lies between `pptr` and `ptr`. -/
def valueLoop : List UInt8 → List UInt8 → List UInt8
  | run, [] => run
  | run, c :: ptr =>
    if isEscaped c then run ++ jsonEscape c ++ valueLoop [] ptr else valueLoop (run ++ [c]) ptr

/-- `static_cast<int>(size)`. -/
def intSize (v : List UInt8) : Int := Int.bmod v.length (2 ^ 32)

/-- A value as `getjson` writes it: the loop counts down from its size as an `int`. -/
def jsonValue (v : List UInt8) : List UInt8 :=
  if intSize v < 0 then [] else valueLoop [] (v.take (intSize v).toNat)

def jsonEntry (s : List UInt8) (e : Nat × List UInt8) : List UInt8 :=
  s ++ (if s.length ≠ 0 then [ch ',', ch '"'] else [ch '"']) ++
    if e.1 ≠ 0 then nameid2string e.1 ++ [ch '"', ch ':', ch '"'] ++ jsonValue e.2 ++ [ch '"']
    else []

def getjson (m : AttrMap) : List UInt8 := m.entries.foldl jsonEntry []

/-- `map[name]`: the entry is made when there is none. -/
def touch (m : AttrMap) (name : Nat) : AttrMap :=
  if (m.get? name).isSome then m else m.insert name []

/-- The loop of `fromjson`, with at most `n` rounds. -/
def fromjsonLoop : Nat → Cursor → AttrMap → Except Trap AttrMap
  | 0, _, _ => .error .unended
  | n + 1, pos, m => do
      let (name, pos) ← getnameid pos
      if name = 0 then .ok m
      else
        let m := touch m name
        let (t, pos) ← storeobject pos
        match t with
        | none => .ok m
        | some t =>
          match unescape (t.length + 1) t with
          | none => .error .unended
          | some t => fromjsonLoop n pos (m.insert name t)

def fromjson (buf : Cursor) (m : AttrMap) : Except Trap AttrMap :=
  fromjsonLoop (buf.length + 1) buf m

def serializeEntry (e : Nat × List UInt8) : List UInt8 :=
  let name := nameid2string e.1
  let l := UInt8.ofNat name.length
  if l ≠ 0 then
    l :: (name.take l.toNat ++ leBytes 2 e.2.length ++ e.2.take (e.2.length % 2 ^ 16))
  else []

def serialize (m : AttrMap) : List UInt8 := m.entries.flatMap serializeEntry ++ [0]

/-- The loop of `unserialize`: the pointer it returns, and the map. -/
def unserializeLoop : Nat → List UInt8 → AttrMap → Option (List UInt8) × AttrMap
  | n + 1, l :: ptr, m =>
    if l = 0 then (some ptr, m)
    else if l.toNat + 2 > ptr.length then (none, m)
    else
      let id := (ptr.take l.toNat).foldl (fun id b => (id * 256 + b.toNat) % 2 ^ 64) 0
      let ll := leNat ((ptr.drop l.toNat).take 2)
      let ptr := ptr.drop (l.toNat + 2)
      if ll > ptr.length then (none, m)
      else unserializeLoop n (ptr.drop ll) (m.insert id (ptr.take ll))
  | _, ptr, m => (some ptr, m)

/-- `AttrMap::unserialize`. Every round takes at least three bytes. -/
def unserialize (ptr : List UInt8) (m : AttrMap) : Option (List UInt8) × AttrMap :=
  unserializeLoop ptr.length ptr m

/-! ## 2. Names -/

def isNameChar (c : UInt8) : Bool := 0x20 ≤ c && c ≤ 0x7E && c != ch '"' && c != ch '\\'

/-- The number of a name: one to eight printable characters without quote and backslash. -/
def GoodName (id : Nat) : Prop :=
  ∃ name : List UInt8, name ≠ [] ∧ name.length ≤ 8 ∧ (∀ c ∈ name, isNameChar c = true) ∧
    id = beNat name

theorem isNameChar_spec {c : UInt8} (h : isNameChar c = true) : c ≠ 0 ∧ c ≠ ch '"' ∧ c < 0x80 := by
  simp only [isNameChar, Bool.and_eq_true, bne_iff_ne, decide_eq_true_eq] at h
  refine ⟨?_, h.1.2, UInt8.lt_of_le_of_lt h.1.1.2 (by decide)⟩
  rintro rfl
  exact absurd h.1.1.1 (by decide)

theorem nameidLoop_succ (id k) : nameidLoop id (k + 1) =
    (if UInt8.ofNat (id >>> (8 * k)) ≠ 0 then [UInt8.ofNat (id >>> (8 * k))] else []) ++
      nameidLoop id k := by
  rw [nameidLoop]
  split <;> rfl

theorem nameidLoop_zero (k) : nameidLoop 0 k = [] := by
  induction k with
  | zero => rfl
  | succ k ih =>
    rw [nameidLoop_succ, ih]
    simp

theorem nameidLoop_snoc (id k) (b : UInt8) :
    nameidLoop (id * 256 + b.toNat) (k + 1) = nameidLoop id k ++ (if b ≠ 0 then [b] else []) := by
  have hb := b.toNat_lt
  induction k with
  | zero =>
    have h0 : UInt8.ofNat ((id * 256 + b.toNat) >>> (8 * 0)) = b := by
      refine UInt8.toNat_inj.1 ?_
      rw [UInt8.toNat_ofNat']
      omega
    simp [nameidLoop]
  | succ k ih =>
    have hs : (id * 256 + b.toNat) >>> (8 * (k + 1)) = id >>> (8 * k) := by
      rw [show 8 * (k + 1) = 8 + 8 * k by omega, Nat.shiftRight_add]
      congr 1
      omega
    rw [nameidLoop_succ, hs, ih, nameidLoop_succ, append_assoc]

/-- **The name of a number** is the characters it is made of. -/
theorem nameidLoop_beNat (name) (h0 : ∀ c ∈ name, c ≠ 0)
    (hk : name.length ≤ k) : nameidLoop (beNat name) k = name := by
  induction name using List.reverseRecOn generalizing k with
  | nil => exact nameidLoop_zero k
  | append_singleton name b ih =>
    rw [length_append, length_singleton] at hk
    obtain _ | k := k
    · omega
    have hb : b ≠ 0 := h0 b (by simp)
    rw [beNat_concat, nameidLoop_snoc, ih (fun c hc => h0 c (mem_append_left _ hc)) (by omega),
      if_pos hb]

theorem GoodName.spec (h : GoodName id) :
    ∃ name : List UInt8, nameid2string id = name ∧ name ≠ [] ∧ name.length ≤ 8 ∧
      (∀ c ∈ name, isNameChar c = true) ∧ id = beNat name ∧ id ≠ 0 ∧ id < 2 ^ 64 := by
  obtain ⟨name, hne, hlen, hall, rfl⟩ := h
  have hstr := nameidLoop_beNat name (fun c hc => (isNameChar_spec (hall c hc)).1) hlen
  refine ⟨name, hstr, hne, hlen, hall, rfl, fun hz => ?_, ?_⟩
  · rw [hz] at hstr
    exact hne hstr.symm
  calc beNat name < 256 ^ name.length := beNat_lt name
    _ ≤ 256 ^ 8 := Nat.pow_le_pow_right (by decide) hlen
    _ = 2 ^ 64 := by decide

theorem beNat_step (b : UInt8) (h : d.length + 1 ≤ 8) :
    (beNat d * 256 + b.toNat) % 2 ^ 64 = beNat (d ++ [b]) := by
  rw [← beNat_concat]
  refine Nat.mod_eq_of_lt ?_
  calc beNat (d ++ [b]) < 256 ^ (d ++ [b]).length := beNat_lt _
    _ ≤ 256 ^ 8 := Nat.pow_le_pow_right (by decide) (by simpa using h)
    _ = 2 ^ 64 := by decide

theorem nameLoop_name (p name d) (h : d.length + name.length ≤ 8)
    (hall : ∀ c ∈ name, isNameChar c = true) :
    nameLoop (beNat d) (name ++ ch '"' :: p) = .ok (beNat (d ++ name), ch '"' :: p) := by
  induction name generalizing d with
  | nil => simp [nameLoop]
  | cons c name ih =>
    obtain ⟨h0, hq, hlow⟩ := isNameChar_spec (hall c mem_cons_self)
    rw [length_cons] at h
    rw [cons_append, nameLoop, if_pos ⟨h0, hq⟩, nameidOfChar, if_pos hlow,
      beNat_step c (by omega), ih (d ++ [c]) (by simp; omega)
        fun b hb => hall b (mem_cons_of_mem _ hb), append_assoc]
    rfl

/-! ## 3. Values -/

theorem valueLoop_eq (run v : List UInt8) :
    valueLoop run v = run ++ v.flatMap fun c => if isEscaped c then jsonEscape c else [c] := by
  induction v generalizing run with
  | nil => simp [valueLoop]
  | cons c v ih =>
    rw [valueLoop, flatMap_cons]
    split
    · rw [ih]
      simp
    · rw [ih]
      simp

/-- The escaper of `getjson` writes a byte as itself or as its escape. -/
theorem esc_jsonByte (c : UInt8) {s e : List UInt8} (h : Esc s e) :
    Esc (c :: s) ((if isEscaped c then jsonEscape c else [c]) ++ e) := by
  unfold jsonEscape
  split
  · rename_i hesc
    iterate 7
      split
      · subst_vars
        exact .short rfl h
    rename_i hq hb h10 h13 h8 h12 h9
    have hw : isWide c = true := by
      simp only [isEscaped, Bool.or_eq_true, beq_iff_eq, decide_eq_true_eq] at hesc
      simp only [isWide, Bool.and_eq_true, bne_iff_ne, decide_eq_true_eq]
      rcases hesc with (hlt | h) | h
      · exact ⟨⟨⟨⟨⟨hlt, h8⟩, h9⟩, h10⟩, h12⟩, h13⟩
      · exact absurd h hq
      · exact absurd h hb
    have hlt := isWide_lt hw
    have hu : unicodeEscape c.toNat =
        [ch '\\', ch 'u', ch '0', ch '0', hexDigit (c.toNat / 16), hexDigit (c.toNat % 16)] := by
      rw [unicodeEscape, show c.toNat / 4096 % 16 = 0 by omega,
        show c.toNat / 256 % 16 = 0 by omega, show c.toNat / 16 % 16 = c.toNat / 16 by omega]
      rfl
    have hr := Esc.unicode hw h
    rwa [hu] at hr
  · rename_i hesc
    simp only [isEscaped, Bool.or_eq_true, beq_iff_eq, not_or] at hesc
    refine .raw ?_ hesc.1.2 hesc.2 h
    rintro rfl
    exact hesc.1.1 (by decide)

def cut (v : List UInt8) : List UInt8 := v.take (intSize v).toNat

section

variable (v : List UInt8)

theorem esc_jsonValue : Esc (cut v) (jsonValue v) := by
  have hall : ∀ w : List UInt8, Esc w (valueLoop [] w) := fun w => by
    rw [valueLoop_eq]
    induction w with
    | nil => exact .nil
    | cons c w ih => exact esc_jsonByte c ih
  unfold jsonValue cut
  split
  · rename_i hneg
    rw [show (intSize v).toNat = 0 by omega]
    exact .nil
  · exact hall _

theorem intSize_lt : (intSize v).toNat < 2 ^ 31 := by
  have : intSize v < 2 ^ 31 := by
    unfold intSize
    have := Int.bmod_lt (x := (v.length : Int)) (m := 2 ^ 32) (by decide)
    simpa using this
  omega

theorem length_cut_lt : (cut v).length < 2 ^ 31 := by
  have := intSize_lt v
  have := length_take_le (intSize v).toNat v
  unfold cut
  omega

theorem cut_eq_iff : cut v = v ↔ v.length < 2 ^ 31 := by
  constructor
  · intro h
    rw [← h]
    exact length_cut_lt v
  intro h
  have hs : intSize v = v.length := by
    exact Int.bmod_eq_of_le (by omega) (by omega)
  unfold cut
  rw [hs, Int.toNat_natCast, take_length]

end

/-! ## 4. JSON and back -/

/-- A name and a value as they stand in JSON, from behind the first quote on. -/
def pairText (name v : List UInt8) : List UInt8 :=
  name ++ [ch '"', ch ':', ch '"'] ++ v ++ [ch '"']

def entryText (e : Nat × List UInt8) : List UInt8 :=
  ch '"' :: pairText (nameid2string e.1) (jsonValue e.2)

theorem jsonEntry_eq (s : List UInt8) (he : e.1 ≠ 0) :
    jsonEntry s e = s ++ (if s.length ≠ 0 then [ch ',', ch '"'] else [ch '"']) ++
      pairText (nameid2string e.1) (jsonValue e.2) := by
  unfold jsonEntry
  rw [if_pos he]
  rfl

theorem foldl_jsonEntry (h : ∀ e ∈ es, e.1 ≠ 0) {s : List UInt8} (hs : s ≠ []) :
    es.foldl jsonEntry s = s ++ es.flatMap fun e => ch ',' :: entryText e := by
  induction es generalizing s with
  | nil => simp
  | cons e es ih =>
    have hstep : jsonEntry s e = s ++ ch ',' :: entryText e := by
      rw [jsonEntry_eq s (h e mem_cons_self), if_pos (length_pos_iff.2 hs).ne',
        append_assoc]
      rfl
    rw [foldl_cons, hstep, ih (fun e he => h e (mem_cons_of_mem _ he)) (by simp),
      flatMap_cons, append_assoc]

theorem getjson_cons (he : e.1 ≠ 0) (h : ∀ e ∈ es, e.1 ≠ 0) :
    (e :: es).foldl jsonEntry [] = entryText e ++ es.flatMap fun e => ch ',' :: entryText e := by
  have hstep : jsonEntry [] e = entryText e := by
    rw [jsonEntry_eq [] he]
    rfl
  rw [foldl_cons, hstep, foldl_jsonEntry h (by simp [entryText])]

theorem readName_quoted (hlead : lead = [] ∨ lead = [ch ',']) {c : UInt8}
    (hloop : nameLoop 0 (name ++ ch '"' :: ch ':' :: c :: p) =
      .ok (id, ch '"' :: ch ':' :: c :: p)) :
    readName (lead ++ ch '"' :: (name ++ ch '"' :: ch ':' :: c :: p)) = .ok (id, c :: p) := by
  unfold readName
  rcases hlead with rfl | rfl
  · simp only [nil_append, deref, bind, Except.bind]
    rw [if_neg (by decide)]
    simp [hloop]
  · simp only [deref, bind, Except.bind]
    simp [hloop]

/-- **Reading a name** in front of a value in quotes, with or without a comma before it. -/
theorem getnameid_pair (hlead : lead = [] ∨ lead = [ch ',']) (hid : GoodName id) (v p : Cursor) :
    getnameid (lead ++ ch '"' :: (pairText (nameid2string id) v ++ p)) =
      .ok (id, ch '"' :: (v ++ ch '"' :: p)) := by
  obtain ⟨name, hname, -, hlen, hall, hbe, hne, -⟩ := hid.spec
  have hloop := nameLoop_name (ch ':' :: ch '"' :: (v ++ ch '"' :: p)) name []
    (by simpa using hlen) hall
  rw [nil_append, ← hbe] at hloop
  have htext : pairText (nameid2string id) v ++ p =
      name ++ ch '"' :: ch ':' :: ch '"' :: (v ++ ch '"' :: p) := by
    rw [hname, pairText]
    simp
  have hskip : skipnullvalue (ch '"' :: (v ++ ch '"' :: p)) =
      .ok (false, ch '"' :: (v ++ ch '"' :: p)) := rfl
  unfold getnameid
  rw [htext, getNameidSkipNull, readName_quoted hlead hloop]
  show (if id ≠ 0 ∧ true = true then _ else _) = _
  rw [if_pos ⟨hne, rfl⟩]
  rfl

theorem insert_touch (m) (name : Nat) (t : List UInt8) :
    (touch m name).insert name t = m.insert name t := by
  unfold touch
  split
  · rfl
  refine ext_entries (entries_eq_of_mem_iff (sorted _) fun e => ?_)
  simp only [mem_entries_insert]
  refine or_congr_right ⟨fun ⟨h, hne⟩ => ?_, fun h => ⟨.inr h, h.2⟩⟩
  exact h.resolve_left fun he => hne (by rw [he])

/-- One round of `fromjson` over an attribute whose value is written as the escaped text `e`. -/
theorem fromjsonLoop_pair (hlead : lead = [] ∨ lead = [ch ',']) (hid : GoodName id) {e : List UInt8}
    (hesc : Esc v e) (hlen : v.length ≤ 2 ^ 32 - 5) (h0 : (0 : UInt8) ∈ p) (m) :
    fromjsonLoop (n + 1) (lead ++ ch '"' :: (pairText (nameid2string id) e ++ p)) m =
      fromjsonLoop n p (m.insert id v) := by
  obtain ⟨-, -, -, -, -, -, hne, -⟩ := hid.spec
  have hstore := storeobject_quoted hesc.quoted h0
  have hback := hesc.unescape hlen
  rw [fromjsonLoop, getnameid_pair hlead hid]
  show (if id = 0 then _ else _) = _
  rw [if_neg hne, hstore]
  simp only [bind, Except.bind, hback, insert_touch]

/-- One round of `fromjson` over an attribute as `getjson` writes it. -/
theorem fromjsonLoop_entry (hlead : lead = [] ∨ lead = [ch ',']) (he : GoodName e.1)
    (h0 : (0 : UInt8) ∈ p) (m) :
    fromjsonLoop (n + 1) (lead ++ (entryText e ++ p)) m =
      fromjsonLoop n p (m.insert e.1 (cut e.2)) := by
  have hlen : (cut e.2).length ≤ 2 ^ 32 - 5 := by
    have := length_cut_lt e.2
    omega
  exact fromjsonLoop_pair hlead he (esc_jsonValue e.2) hlen h0 m

theorem fromjsonLoop_entries (hgood : ∀ e ∈ es, GoodName e.1) (hn : es.length < n) :
    fromjsonLoop n (es.flatMap (fun e => ch ',' :: entryText e) ++ [0]) m =
      .ok (es.foldl (fun m e => m.insert e.1 (cut e.2)) m) := by
  induction es generalizing m n with
  | nil =>
    obtain _ | n := n
    · omega
    rfl
  | cons e es ih =>
    obtain _ | n := n
    · omega
    have hround := fromjsonLoop_entry (n := n) (.inr rfl) (hgood e mem_cons_self)
      (p := es.flatMap (fun e => ch ',' :: entryText e) ++ [0]) (by simp) m
    rw [flatMap_cons, append_assoc]
    exact hround.trans (ih (fun e he => hgood e (mem_cons_of_mem _ he)) (by simpa using hn))

/-- **What `fromjson` reads from `getjson`**: every attribute, with its value as far as it was
written. -/
theorem fromjson_getjson (m : AttrMap) (hm : ∀ e ∈ m.entries, GoodName e.1) :
    ∃ m', fromjson (getjson m ++ [0]) OrdMap.empty = .ok m' ∧
      m'.entries = m.entries.map fun e => (e.1, cut e.2) := by
  have hne : ∀ e ∈ m.entries, e.1 ≠ 0 := fun e he => by
    obtain ⟨-, -, -, -, -, -, hne, -⟩ := (hm e he).spec
    exact hne
  have hent := entries_foldl_insert (m := empty)
    (m.entries.map fun e => (e.1, cut e.2)) (pairwise_map.2 m.sorted)
  simp only [foldl_map] at hent
  refine ⟨_, ?_, hent⟩
  obtain ⟨es, hsorted⟩ := m
  unfold fromjson getjson
  cases es with
  | nil => rfl
  | cons e es =>
    have hrest : ∀ e ∈ es, e.1 ≠ 0 := fun e he => hne e (mem_cons_of_mem _ he)
    have hfuel : es.length ≤ (es.flatMap fun e => ch ',' :: entryText e).length :=
      length_le_flatMap (by simp)
    rw [getjson_cons (hne e mem_cons_self) hrest, append_assoc]
    have hround := fun n => fromjsonLoop_entry (n := n) (.inl rfl) (hm e mem_cons_self)
      (p := es.flatMap (fun e => ch ',' :: entryText e) ++ [0]) (by simp) empty
    have hall := fromjsonLoop_entries (m := empty.insert e.1 (cut e.2))
      (n := (entryText e ++ (es.flatMap (fun e => ch ',' :: entryText e) ++ [0])).length)
      (fun e he => hm e (mem_cons_of_mem _ he)) (by
        rw [length_append, length_append, length_singleton]
        omega)
    rw [foldl_cons]
    exact (hround _).trans hall

/-! ## 5. Bytes and back -/

theorem foldl_nameid (name d) (h : d.length + name.length ≤ 8) :
    name.foldl (fun id b => (id * 256 + b.toNat) % 2 ^ 64) (beNat d) = beNat (d ++ name) := by
  induction name generalizing d with
  | nil => simp
  | cons c name ih =>
    rw [length_cons] at h
    rw [foldl_cons, beNat_step c (by omega), ih (d ++ [c]) (by simp; omega),
      append_assoc]
    rfl

theorem serializeEntry_eq (hname : nameid2string id = name) (hne : name ≠ [])
    (hlen : name.length ≤ 8) (hv : v.length ≤ 65535) :
    serializeEntry (id, v) = UInt8.ofNat name.length :: (name ++ (leBytes 2 v.length ++ v)) ∧
      UInt8.ofNat name.length ≠ 0 ∧ (UInt8.ofNat name.length).toNat = name.length := by
  have hpos := length_pos_iff.2 hne
  have hl : (ofNat name.length).toNat = name.length := by
    rw [toNat_ofNat']
    omega
  have hl0 : ofNat name.length ≠ 0 := fun h0 => by
    rw [h0] at hl
    exact hpos.ne hl
  refine ⟨?_, hl0, hl⟩
  unfold serializeEntry
  simp only [hname]
  rw [if_pos hl0, hl, take_length, take_of_length_le (by omega), append_assoc]

theorem unserializeLoop_entry (hid : GoodName id) (hv : v.length ≤ 65535) (p : List UInt8)
    (m : AttrMap) :
    unserializeLoop (n + 1) (serializeEntry (id, v) ++ p) m =
      unserializeLoop n p (m.insert id v) := by
  obtain ⟨name, hname, hne, hlen, -, hbe, -, -⟩ := hid.spec
  obtain ⟨hser, hl0, hl⟩ := serializeEntry_eq hname hne hlen hv
  have hll := leNat_leBytes 2 v.length (by omega)
  have hfold := foldl_nameid name [] (by simpa using hlen)
  rw [beNat_nil, nil_append, ← hbe] at hfold
  let tail := leBytes 2 v.length ++ (v ++ p)
  have hname2 : name ++ (leBytes 2 v.length ++ v) ++ p = name ++ tail := by simp [tail]
  have htake : (name ++ tail).take name.length = name := take_left' rfl
  have hrest : (name ++ tail).drop name.length = leBytes 2 v.length ++ (v ++ p) :=
    drop_left' rfl
  have hdrop : (name ++ tail).drop (name.length + 2) = v ++ p := by
    rw [← drop_drop, hrest, drop_left' (length_leBytes 2 _)]
  rw [hser, cons_append, hname2, unserializeLoop]
  simp only [hl, hdrop, htake, hrest, take_left' (length_leBytes 2 _), hll, hfold]
  have hroom : ¬name.length + 2 > (name ++ tail).length := by
    rw [length_append, length_append, length_leBytes]
    omega
  rw [if_neg hl0, if_neg hroom, if_neg (by rw [length_append]; omega), drop_left' rfl,
    take_left' rfl]

theorem unserializeLoop_entries (hgood : ∀ e ∈ es, GoodName e.1)
    (hlen : ∀ e ∈ es, e.2.length ≤ 65535) (hn : es.length < n) (tail : List UInt8) :
    unserializeLoop n (es.flatMap serializeEntry ++ 0 :: tail) m =
      (some tail, es.foldl (fun m e => m.insert e.1 e.2) m) := by
  induction es generalizing m n with
  | nil =>
    obtain _ | n := n
    · omega
    rfl
  | cons e es ih =>
    obtain _ | n := n
    · omega
    rw [flatMap_cons, append_assoc,
      unserializeLoop_entry (hgood e mem_cons_self) (hlen e mem_cons_self)]
    exact ih (fun e he => hgood e (mem_cons_of_mem _ he))
      (fun e he => hlen e (mem_cons_of_mem _ he)) (by simpa using hn)

theorem serializeEntry_ne_nil (he : GoodName e.1) (hv : e.2.length ≤ 65535) :
    serializeEntry e ≠ [] := by
  obtain ⟨name, hname, hne, hlen, -⟩ := he.spec
  rw [(serializeEntry_eq hname hne hlen hv).1]
  exact cons_ne_nil _ _

/-- **`unserialize` reads back what `serialize` wrote**, and stops where it stopped. -/
theorem unserialize_serialize (m) (hm : ∀ e ∈ m.entries, GoodName e.1)
    (hv : ∀ e ∈ m.entries, e.2.length ≤ 65535) (tail : List UInt8) :
    unserialize (serialize m ++ tail) OrdMap.empty = (some tail, m) := by
  have hfuel := length_le_flatMap (f := serializeEntry) fun e he =>
    serializeEntry_ne_nil (hm e he) (hv e he)
  have hall := unserializeLoop_entries (m := empty) (n := (serialize m ++ tail).length) hm hv
    (by
      rw [serialize, length_append, length_append, length_singleton]
      omega) tail
  rw [foldl_insert_entries] at hall
  rw [unserialize, ← hall]
  simp [serialize]

/-! ## 6. Round trips -/

/-- **An attribute map comes back** from its JSON exactly when its values are shorter than `2^31`
bytes, and from its bytes, with all of them taken, when its values have at most 65535 bytes. -/
theorem attrMap_roundTrip (m : AttrMap) (hm : ∀ e ∈ m.entries, GoodName e.1) :
    (fromjson (getjson m ++ [0]) OrdMap.empty = .ok m ↔ ∀ e ∈ m.entries, e.2.length < 2 ^ 31) ∧
      ((∀ e ∈ m.entries, e.2.length ≤ 65535) → ∀ tail,
        unserialize (serialize m ++ tail) OrdMap.empty = (some tail, m)) := by
  refine ⟨?_, unserialize_serialize m hm⟩
  obtain ⟨m', hm', hent⟩ := fromjson_getjson m hm
  have heq : fromjson (getjson m ++ [0]) empty = .ok m ↔ m' = m := by
    rw [hm', Except.ok.injEq]
  rw [heq]
  constructor
  · intro h e he
    rw [← h, hent] at he
    obtain ⟨a, -, ha⟩ := mem_map.1 he
    have hcut : e.2 = cut a.2 := by rw [← ha]
    rw [hcut]
    exact length_cut_lt a.2
  intro h
  refine ext_entries (hent.trans ?_)
  calc m.entries.map (fun e => (e.1, cut e.2)) = m.entries.map id :=
        map_congr_left fun e he => by rw [(cut_eq_iff e.2).2 (h e he)]; rfl
    _ = m.entries := map_id _

theorem goodName_n : GoodName 110 :=
  ⟨[ch 'n'], by decide, by decide, fun c hc => by rw [mem_singleton.1 hc]; decide, rfl⟩

/-- A map with the name `n`, whose value is quote, backslash and a control byte. -/
theorem attrMap_roundTrip_controls :
    let m : AttrMap := OrdMap.empty.insert 110 [34, 92, 7]
    fromjson (getjson m ++ [0]) empty = .ok m ∧
      unserialize (serialize m ++ [1, 2]) empty = (some [1, 2], m) := by
  have hm : ∀ e ∈ (empty.insert 110 [34, 92, 7] : AttrMap).entries, GoodName e.1 :=
    fun e he => by
      rw [mem_singleton.1 he]
      exact goodName_n
  refine ⟨(attrMap_roundTrip _ hm).1.2 ?_, (attrMap_roundTrip _ hm).2 ?_ _⟩
  · decide
  · decide

/-- A value of `2^31` bytes: its size is negative as an `int`, and `getjson` writes an empty
value. -/
theorem fromjson_getjson_huge :
    let m : AttrMap := OrdMap.empty.insert 110 (List.replicate (2 ^ 31) 97)
    GoodName 110 ∧
      fromjson (getjson m ++ [0]) empty = .ok (empty.insert 110 []) ∧
      (empty.insert 110 [] : AttrMap) ≠ m := by
  have hcut : ∀ v : List UInt8, v.length = 2 ^ 31 → cut v = [] := fun v hv => by
    unfold cut intSize
    rw [hv, show (Int.bmod ((2 ^ 31 : Nat) : Int) (2 ^ 32)).toNat = 0 by decide, take_zero]
  have hall : ∀ v : List UInt8, v.length = 2 ^ 31 →
      fromjson (getjson (empty.insert 110 v) ++ [0]) empty =
        .ok (empty.insert 110 []) ∧ (empty.insert 110 [] : AttrMap) ≠
          empty.insert 110 v := fun v hv => by
    obtain ⟨m', hm', hent⟩ := fromjson_getjson (empty.insert 110 v) fun e he => by
      rw [mem_singleton.1 he]
      exact goodName_n
    refine ⟨?_, fun h => ?_⟩
    · rw [hm']
      refine congrArg Except.ok (ext_entries (hent.trans ?_))
      show [(110, cut v)] = [(110, [])]
      rw [hcut v hv]
    have h0 : ([] : List UInt8) = v := by
      have := congrArg entries h
      simpa [insertL, empty] using this
    rw [← h0] at hv
    exact absurd hv (by decide)
  exact ⟨goodName_n, hall _ length_replicate⟩

end MegaSdk.Nodes
