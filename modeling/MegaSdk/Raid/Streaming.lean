/-
  File:      MegaSdk/Raid/Streaming.lean
  Subject:   `DirectReadBufferManager::finalize` (raid.cpp): decrypting the pieces of a stream.

  A piece begins and ends anywhere. The bytes up to the next block boundary are copied into a scratch
  block at their place in it and decrypted there; the rest is decrypted in the buffer, over the spare
  block behind it. `none` stands for a copy of a negative length and for bytes outside the buffer.

  * `stream` -- the key stream applied from any position on, the meaning of a decrypted stretch;
  * `finalize_eq` -- a piece shorter than 2^31 bytes is decrypted as the stretch it is;
  * `finalize_pieces` -- so the pieces of a range make up the range of the decrypted file, wherever
    they are cut;
  * `finalize_long` -- a longer piece is not: its length is kept in an `int`.
-/
import MegaSdk.Crypto.SymmCipher

namespace MegaSdk.DirectRead

open Base List

/-! ## 1. The code -/

/-- A piece of the stream: its position in the file, its bytes, and the spare bytes behind them. -/
structure Piece where
  pos : Nat
  data : List UInt8
  spare : List UInt8

/-- `int(n)` for a `size_t`. -/
def toInt (n : Nat) : Int :=
  if n % 2 ^ 32 < 2 ^ 31 then (n % 2 ^ 32 : Nat) else (n % 2 ^ 32 : Nat) - 2 ^ 32

/-- `l`, the bytes of a piece of length `t` that are left of its first block. -/
def headBytes (r : Nat) (t : Int) : Int := if (BLOCKSIZE - r : Int) > t then t else BLOCKSIZE - r

/-- `(len + BLOCKSIZE - 1) & ~(BLOCKSIZE - 1)` on `unsigned`. -/
def paddedLen (len : Nat) : Nat := (len + (BLOCKSIZE - 1)) % 2 ^ 32 / BLOCKSIZE * BLOCKSIZE

section Code

variable (E : Block → Block) (ctriv : UInt64)

/-- `ctr_crypt(mem + off, len, pos, ctriv, NULL, false)`. -/
def ctrCryptAt (mem : List UInt8) (off len pos : Nat) : Option (List UInt8) :=
  if off + paddedLen len ≤ mem.length then
    some (mem.take off ++ ctrProcess E ctriv pos ((mem.drop off).take (paddedLen len)) ++
      mem.drop (off + paddedLen len))
  else none

/-- `memcpy(mem + off, bytes, l)`. -/
def overwrite (mem : List UInt8) (off : Nat) (bytes : List UInt8) : List UInt8 :=
  mem.take off ++ bytes ++ mem.drop (off + bytes.length)

/-- The part up to the next block boundary: the buffer behind it, and its length `l`. -/
def finalizeHead (scratch : Block) (fp : Piece) (t : Int) : Option (List UInt8 × Int) :=
  let mem := fp.data ++ fp.spare
  let r := fp.pos % BLOCKSIZE
  if r = 0 then some (mem, 0)
  else
    let l := headBytes r t
    if l < 0 ∨ mem.length < l then none
    else
      match ctrCryptAt E ctriv (overwrite (List.ofFn scratch) r (mem.take l.toNat)) 0 BLOCKSIZE
          (fp.pos - r) with
      | none => none
      | some buf => some (overwrite mem 0 ((buf.drop r).take l.toNat), l)

/-- `finalize(fp)`: what the bytes of the piece are behind it. -/
def finalize (scratch : Block) (fp : Piece) : Option (List UInt8) :=
  let t := toInt fp.data.length
  match finalizeHead E ctriv scratch fp t with
  | none => none
  | some (mem, l) =>
    if t > l then
      (ctrCryptAt E ctriv mem l.toNat (t - l).toNat (fp.pos + l.toNat)).map
        (·.take fp.data.length)
    else some (mem.take fp.data.length)

end Code

/-! ## 2. The key stream from any position on -/

section Stream

variable {E : Block → Block} {ctriv : UInt64} (q : Nat) {data : List UInt8} {n : Nat}

/-- The byte of the key stream at a position of the file. -/
def keyByte (E : Block → Block) (ctriv : UInt64) (q : Nat) : UInt8 :=
  E (ctrBlock ctriv (q / 16)) (Fin.ofNat 16 q)

/-- A stretch of the file from `q` on, decrypted. -/
def stream (E : Block → Block) (ctriv : UInt64) (q : Nat) (data : List UInt8) : List UInt8 :=
  data.mapIdx fun k b => b ^^^ keyByte E ctriv (q + k)

@[simp] theorem length_stream (data) : (stream E ctriv q data).length = data.length := by
  simp [stream]

@[simp] theorem stream_nil : stream E ctriv q [] = [] := rfl

theorem stream_append (a b : List UInt8) :
    stream E ctriv q (a ++ b) = stream E ctriv q a ++ stream E ctriv (q + a.length) b := by
  simp only [stream, mapIdx_append]
  congr 1
  refine mapIdx_eq_mapIdx_iff.2 fun k hk => ?_
  rw [add_assoc, add_comm k]

theorem take_stream (n data) : (stream E ctriv q data).take n = stream E ctriv q (data.take n) := by
  conv_lhs => rw [← take_append_drop n data, stream_append]
  rcases le_total n data.length with h | h
  · exact take_left' (by rw [length_stream, length_take, min_eq_left h])
  · rw [drop_of_length_le h, stream_nil, append_nil,
      take_of_length_le (by rw [length_stream, length_take]; omega)]

theorem drop_stream (n data) :
    (stream E ctriv q data).drop n = stream E ctriv (q + n) (data.drop n) := by
  rcases le_total n data.length with h | h
  · have hlen : (data.take n).length = n := length_take_of_le h
    conv_lhs => rw [← take_append_drop n data, stream_append, hlen]
    exact drop_left' (by rw [length_stream, hlen])
  · rw [drop_of_length_le h, drop_of_length_le (by rwa [length_stream]), stream_nil]

theorem ctrProcess_eq_stream {pos : Nat} (h : pos % 16 = 0) (data) :
    ctrProcess E ctriv pos data = stream E ctriv pos data := by
  refine mapIdx_eq_mapIdx_iff.2 fun k _ => ?_
  have hblock : ((pos : Int) / (BLOCKSIZE : Int)).toNat + k / 16 = (pos + k) / 16 := by
    simp only [BLOCKSIZE]
    omega
  have hbyte : k % 16 = (pos + k) % 16 := by omega
  simp [keyByte, hblock, hbyte]
  rfl

/-! ## 3. One piece -/

theorem paddedLen_bounds {len : Nat} (h : len < 2 ^ 31) :
    len ≤ paddedLen len ∧ paddedLen len ≤ len + 15 := by
  simp only [paddedLen, BLOCKSIZE]
  omega

theorem toInt_of_lt (h : n < 2 ^ 31) : toInt n = n := by
  rw [toInt, Nat.mod_eq_of_lt (by omega), if_pos h]

/-- `ctr_crypt` at a block boundary: with what it pads, a stretch is decrypted in its place. -/
theorem ctrCryptAt_eq (E ctriv) (a : List UInt8) {data spare : List UInt8}
    {pos : Nat} (hpos : pos % 16 = 0) (hdata : data.length < 2 ^ 31) (hspare : 15 ≤ spare.length) :
    ∃ rest, ctrCryptAt E ctriv (a ++ (data ++ spare)) a.length data.length pos =
      some (a ++ (stream E ctriv pos data ++ rest)) := by
  obtain ⟨hlow, hhigh⟩ := paddedLen_bounds hdata
  have hfits : a.length + paddedLen data.length ≤ (a ++ (data ++ spare)).length := by
    simp only [length_append]
    omega
  have hcut : (data ++ spare).take (paddedLen data.length) =
      data ++ spare.take (paddedLen data.length - data.length) := by
    rw [take_append, take_of_length_le hlow]
  refine ⟨stream E ctriv (pos + data.length) (spare.take (paddedLen data.length - data.length)) ++
    (a ++ (data ++ spare)).drop (a.length + paddedLen data.length), ?_⟩
  rw [ctrCryptAt, if_pos hfits, take_left' rfl, drop_left' rfl, hcut,
    ctrProcess_eq_stream hpos, stream_append]
  simp

/-- The scratch block: its bytes behind `r` are decrypted as those of the file from `pos` on. -/
theorem scratch_eq (E ctriv) (scratch : Block) {pos r : Nat}
    {bytes : List UInt8} (hr : pos % BLOCKSIZE = r) (hfit : r + bytes.length ≤ 16) :
    ∃ buf, ctrCryptAt E ctriv (overwrite (List.ofFn scratch) r bytes) 0 BLOCKSIZE (pos - r) =
        some buf ∧ (buf.drop r).take bytes.length = stream E ctriv pos bytes := by
  have hlen : (overwrite (List.ofFn scratch) r bytes).length = 16 := by
    simp only [overwrite, length_append, length_take, length_drop, length_ofFn]
    omega
  have hpad : paddedLen BLOCKSIZE = 16 := by decide
  simp only [BLOCKSIZE] at hr
  refine ⟨stream E ctriv (pos - r) (overwrite (List.ofFn scratch) r bytes), ?_, ?_⟩
  · rw [ctrCryptAt, if_pos (by rw [hlen, hpad]), take_zero, drop_zero, nil_append,
      hpad, take_of_length_le hlen.le, drop_of_length_le (by rw [hlen]),
      append_nil, ctrProcess_eq_stream (by omega)]
  have htake : ((List.ofFn scratch).take r).length = r := by
    rw [length_take, length_ofFn]
    omega
  rw [drop_stream, take_stream, Nat.sub_add_cancel (hr ▸ Nat.mod_le _ _),
    overwrite, append_assoc, drop_left' htake, take_left' rfl]

/-- A piece that is kept within the bounds: the length an `int` can hold, one spare block. -/
structure Piece.Bounded (fp : Piece) : Prop where
  short : fp.data.length < 2 ^ 31
  spare : BLOCKSIZE ≤ fp.spare.length

variable {fp : Piece} {scratch : Block}

/-- The head of a piece, up to the next block boundary or to its end. -/
def Piece.headLen (fp : Piece) : Nat := min fp.data.length ((16 - fp.pos % 16) % 16)

theorem headBytes_eq (hr : fp.pos % BLOCKSIZE ≠ 0) :
    headBytes (fp.pos % BLOCKSIZE) fp.data.length = fp.headLen := by
  simp only [BLOCKSIZE] at hr
  rw [headBytes, Piece.headLen]
  by_cases hlt : ((BLOCKSIZE : Nat) : Int) - (fp.pos % BLOCKSIZE : Nat) > fp.data.length
  · rw [if_pos hlt]
    simp only [BLOCKSIZE] at hlt
    omega
  simp only [BLOCKSIZE] at hlt ⊢
  omega

theorem Piece.headLen_le (fp : Piece) : fp.headLen ≤ fp.data.length := min_le_left _ _

theorem Piece.length_head (fp : Piece) : (fp.data.take fp.headLen).length = fp.headLen :=
  length_take_of_le fp.headLen_le

theorem finalizeHead_eq (h : fp.Bounded) :
    finalizeHead E ctriv scratch fp (toInt fp.data.length) =
      some (stream E ctriv fp.pos (fp.data.take fp.headLen) ++ (fp.data.drop fp.headLen ++ fp.spare),
        (fp.headLen : Int)) := by
  rw [toInt_of_lt h.short]
  simp only [finalizeHead]
  by_cases hr : fp.pos % BLOCKSIZE = 0
  · have hzero : fp.headLen = 0 := by
      simp only [BLOCKSIZE] at hr
      simp [Piece.headLen, hr]
    rw [if_pos hr, hzero]
    rfl
  rw [if_neg hr, headBytes_eq hr, if_neg (by have := fp.headLen_le; simp only [length_append]; omega),
    Int.toNat_natCast, take_append_of_le_length fp.headLen_le]
  have hfit : fp.pos % BLOCKSIZE + (fp.data.take fp.headLen).length ≤ 16 := by
    rw [fp.length_head, Piece.headLen]
    simp only [BLOCKSIZE] at hr ⊢
    omega
  obtain ⟨buf, hbuf, hout⟩ := scratch_eq E ctriv scratch rfl hfit
  rw [fp.length_head] at hout
  rw [hbuf]
  simp only [hout, overwrite, take_zero, nil_append, length_stream, fp.length_head,
    zero_add, drop_append_of_le_length fp.headLen_le]

/-- **One piece**: behind `finalize` its bytes are those of the decrypted file. -/
theorem finalize_eq (h : fp.Bounded) :
    finalize E ctriv scratch fp = some (stream E ctriv fp.pos fp.data) := by
  have hwhole : stream E ctriv fp.pos fp.data =
      stream E ctriv fp.pos (fp.data.take fp.headLen) ++
        stream E ctriv (fp.pos + fp.headLen) (fp.data.drop fp.headLen) := by
    conv_lhs => rw [← take_append_drop fp.headLen fp.data, stream_append, fp.length_head]
  have hhead : (stream E ctriv fp.pos (fp.data.take fp.headLen)).length = fp.headLen := by
    rw [length_stream, fp.length_head]
  simp only [finalize, finalizeHead_eq h]
  rw [toInt_of_lt h.short, Int.toNat_natCast]
  split_ifs with hlt
  · have hboundary : (fp.pos + fp.headLen) % 16 = 0 := by
      rw [Piece.headLen] at hlt ⊢
      omega
    have hrest : ((fp.data.length : Int) - (fp.headLen : Int)).toNat =
        (fp.data.drop fp.headLen).length := by
      rw [length_drop]
      omega
    have hshort : (fp.data.drop fp.headLen).length < 2 ^ 31 := by
      have := h.short
      omega
    have hspare : 15 ≤ fp.spare.length := (by decide : 15 ≤ BLOCKSIZE).trans h.spare
    obtain ⟨rest, hcrypt⟩ := ctrCryptAt_eq E ctriv
      (stream E ctriv fp.pos (fp.data.take fp.headLen)) hboundary hshort hspare
    rw [hhead] at hcrypt
    rw [hrest, hcrypt, Option.map_some, ← append_assoc, ← hwhole,
      take_left' (length_stream ..)]
  · have hall : fp.headLen = fp.data.length := by
      have := fp.headLen_le
      omega
    rw [hwhole, hall, drop_of_length_le le_rfl, stream_nil, append_nil,
      take_of_length_le le_rfl, take_left' (length_stream ..)]

/-! ## 4. A stream -/

/-- The pieces are the bytes of the file from `start` on, one behind the other. -/
def Consecutive (file : List UInt8) : Nat → List Piece → Prop
  | _, [] => True
  | start, fp :: pieces =>
    fp.pos = start ∧ start + fp.data.length ≤ file.length ∧
      fp.data = (file.drop start).take fp.data.length ∧
      Consecutive file (start + fp.data.length) pieces

def totalLen (calls : List (Block × Piece)) : Nat := (calls.map fun call => call.2.data.length).sum

theorem finalize_range {file : List UInt8} {start : Nat} {calls : List (Block × Piece)}
    (hcut : Consecutive file start (calls.map Prod.snd)) (hb : ∀ call ∈ calls, call.2.Bounded) :
    ∃ outs, calls.mapM (fun call => finalize E ctriv call.1 call.2) = some outs ∧
      outs.flatten = stream E ctriv start ((file.drop start).take (totalLen calls)) := by
  induction calls generalizing start with
  | nil => exact ⟨[], rfl, rfl⟩
  | cons call calls ih =>
    obtain ⟨scratch, fp⟩ := call
    obtain ⟨hpos, -, hdata, hrest⟩ := hcut
    obtain ⟨outs, houts, hflat⟩ := ih hrest fun c hc => hb c (mem_cons_of_mem _ hc)
    have hone : finalize E ctriv scratch fp = some (stream E ctriv fp.pos fp.data) :=
      finalize_eq (hb _ mem_cons_self)
    refine ⟨stream E ctriv fp.pos fp.data :: outs, ?_, ?_⟩
    · rw [mapM_cons, hone, houts]
      rfl
    have htotal : totalLen ((scratch, fp) :: calls) = fp.data.length + totalLen calls := rfl
    rw [htotal, take_add, ← hdata, stream_append, drop_drop, flatten_cons, hflat,
      hpos]

/-- **However a range is cut**: the pieces, each with whatever its scratch block held, make up that
    range of the decrypted file. -/
theorem finalize_pieces (E : Block → Block) (ctriv : UInt64) (file : List UInt8) (start : Nat)
    (calls : List (Block × Piece)) (hcut : Consecutive file start (calls.map Prod.snd))
    (hb : ∀ call ∈ calls, call.2.Bounded) :
    ∃ outs, calls.mapM (fun call => finalize E ctriv call.1 call.2) = some outs ∧
      outs.flatten = ((ctrProcess E ctriv 0 file).drop start).take (totalLen calls) := by
  have hfile : ctrProcess E ctriv 0 file = stream E ctriv 0 file := ctrProcess_eq_stream rfl file
  rw [hfile, drop_stream, take_stream, zero_add]
  exact finalize_range hcut hb

end Stream

/-- Two pieces inside one block: the bytes 3 and 4, 5 of a file of six bytes. -/
theorem finalize_pieces_two : ∃ outs,
    [((fun _ => 7 : Block), (⟨3, [13], List.replicate 16 0⟩ : Piece)),
      (fun _ => 9, ⟨4, [14, 15], List.replicate 16 1⟩)].mapM
        (fun call => finalize (fun b i => b i + 1) 5 call.1 call.2) = some outs ∧
      outs.flatten = ((ctrProcess (fun b i => b i + 1) 5 0 [10, 11, 12, 13, 14, 15]).drop 3).take 3 :=
  finalize_pieces (fun b i => b i + 1) 5 [10, 11, 12, 13, 14, 15] 3 _
    ⟨rfl, by decide, rfl, rfl, by decide, rfl, trivial⟩
    (by
      intro call hcall
      simp only [mem_cons, not_mem_nil, or_false] at hcall
      rcases hcall with rfl | rfl <;> exact ⟨by decide, by decide⟩)

/-! ## 5. A piece that an `int` cannot measure -/

/-- A piece of 2^31 up to 2^32 bytes at a block boundary is handed on as it came. -/
theorem finalize_of_long {E : Block → Block} {ctriv : UInt64} {scratch : Block} {fp : Piece}
    (hpos : fp.pos % BLOCKSIZE = 0) (hlow : 2 ^ 31 ≤ fp.data.length) (hhigh : fp.data.length < 2 ^ 32) :
    finalize E ctriv scratch fp = some fp.data := by
  have ht : toInt fp.data.length < 0 := by
    rw [toInt]
    omega
  simp only [finalize, finalizeHead, if_pos hpos]
  rw [if_neg (by omega), take_left' rfl]

/-- With a key stream of ones, a file of 2^31 zero bytes in one piece stays zero. -/
theorem finalize_long : let file : List UInt8 := List.replicate (2 ^ 31) 0
    let fp : Piece := ⟨0, file, List.replicate 16 0⟩
    Consecutive file 0 [fp] ∧ ∃ out, finalize (fun _ _ => 1) 0 (fun _ => 0) fp = some out ∧
      out ≠ ((ctrProcess (fun _ _ => 1) 0 0 file).drop 0).take (2 ^ 31) := by
  intro file fp
  have hlen : file.length = 2 ^ 31 := length_replicate
  refine ⟨⟨rfl, (zero_add _).le, ?_, trivial⟩, file, ?_, ?_⟩
  · rw [drop_zero, take_of_length_le le_rfl]
  · refine finalize_of_long rfl ?_ ?_
    · exact hlen.ge
    · exact hlen.trans_lt (by norm_num)
  intro heq
  have hfile : ctrProcess (fun _ _ => 1) 0 0 file = stream (fun _ _ => 1) 0 0 file :=
    ctrProcess_eq_stream rfl file
  rw [drop_zero, hfile, take_of_length_le (by rw [length_stream, hlen])] at heq
  have hzero : file[0]? = some 0 := getElem?_replicate_of_lt (by norm_num)
  have hone : (stream (fun _ _ => 1) 0 0 file)[0]? = some 1 := by
    rw [stream, getElem?_mapIdx]
    rfl
  rw [← heq] at hone
  exact absurd hone (by decide)

end MegaSdk.DirectRead
