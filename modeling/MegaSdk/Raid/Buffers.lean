/-
  File:      MegaSdk/Raid/Buffers.lean
  Subject:   RaidBufferManager (raid.cpp): six streams of part data in, the file out.

  * `FilePiece`, `Buf` -- a buffer of part or file data; the pieces of the connection that is not
    used are null, they only have a length;
  * `RaidBufferManager` -- the queues of the six parts, how far they are combined, what is held
    back for the next chunk boundary, and the outputs; `delivered` lists every output that was
    ever put into `asyncoutputbuffers`.

  Positions and lengths are natural numbers: nothing the code is used with comes near 2^63. A
  function answers `none` where the code would fail an assertion, read or write outside a buffer
  or deliver bytes it never wrote. Decryption (`finalize`) is position-wise and left out: the file
  here is what the servers hold.
-/
import MegaSdk.Chunk.Lattice
import MegaSdk.Raid.Layout

namespace MegaSdk.Raid

/-! ## 1. Pieces -/

/-- `HttpReq::http_buf_t` from `start` to `end`; null buffers have a length and no bytes. -/
inductive Buf where
  | null (len : Nat)
  | data (bytes : List UInt8)
  deriving DecidableEq

namespace Buf

def datalen : Buf → Nat
  | null len => len
  | data bytes => bytes.length

def datastart : Buf → Option (List UInt8)
  | null _ => none
  | data bytes => some bytes

def skip (n : Nat) : Buf → Buf
  | null len => null (len - n)
  | data bytes => data (bytes.drop n)

end Buf

structure FilePiece where
  pos : Nat
  buf : Buf
  deriving DecidableEq

def FilePiece.empty : FilePiece := ⟨0, .null 0⟩

def FilePiece.endPos (r : FilePiece) : Nat := r.pos + r.buf.datalen

/-- Which of the two subclasses: they differ in `calcOutputChunkPos`. -/
inductive Manager where
  | transfer
  | directRead
  deriving DecidableEq

/-- `calcOutputChunkPos`: transfers hold back what is past the last chunk boundary. -/
def Manager.calcOutputChunkPos : Manager → Nat → Nat
  | transfer, acquiredpos => (chunkfloor acquiredpos).toNat
  | directRead, acquiredpos => acquiredpos

/-! ## 2. The state -/

structure RaidBufferManager where
  deliverlimitpos : Nat
  acquirelimitpos : Nat
  raidinputparts : Part → List FilePiece
  raidrequestpartpos : Part → Nat
  raidHttpGetErrorCount : Part → Nat
  connectionStarted : Part → Bool
  /-- The part that is not downloaded; `RAIDPARTS` when all are. -/
  unusedRaidConnection : Nat
  raidpartspos : Nat
  outputfilepos : Nat
  startfilepos : Nat
  resumewastedbytes : Nat
  leftoverchunk : FilePiece
  asyncoutputbuffers : Nat → Option FilePiece
  delivered : List FilePiece

/-- `setIsRaid` with six URLs of a file that is not new RAID; `unused` is what
`selectWorstServer` answers. -/
def setIsRaid (resumepos readtopos filesize unused : Nat) : RaidBufferManager :=
  let acquirelimitpos := readtopos + RAIDLINE - 1
  let acquirelimitpos := acquirelimitpos - acquirelimitpos % RAIDLINE
  let raidpartspos := resumepos / EFFECTIVE_RAIDPARTS
  let raidpartspos := raidpartspos - raidpartspos % RAIDSECTOR
  let resumewastedbytes := resumepos - raidpartspos * EFFECTIVE_RAIDPARTS
  { deliverlimitpos := readtopos
    acquirelimitpos := min acquirelimitpos filesize
    raidinputparts := fun _ => []
    raidrequestpartpos := fun _ => raidpartspos
    raidHttpGetErrorCount := fun _ => 0
    connectionStarted := fun _ => false
    unusedRaidConnection := unused
    raidpartspos := raidpartspos
    outputfilepos := resumepos - resumewastedbytes
    startfilepos := resumepos
    resumewastedbytes := resumewastedbytes
    leftoverchunk := .empty
    asyncoutputbuffers := fun _ => none
    delivered := [] }

namespace RaidBufferManager

variable (s : RaidBufferManager)

def transferSize (part : Part) : Nat := raidPartSize part s.acquirelimitpos

/-- Where the next piece of a part belongs. -/
def contiguouspos (part : Part) : Nat :=
  match (s.raidinputparts part).getLast? with
  | none => s.raidpartspos
  | some r => r.endPos

def submitBuffer (connectionNum : Part) (piece : FilePiece) : Option RaidBufferManager :=
  if (piece.buf.datalen % RAIDSECTOR = 0 ∨ piece.endPos = s.transferSize connectionNum) ∧
      piece.pos = s.contiguouspos connectionNum then
    some { s with
      raidHttpGetErrorCount := match piece.buf with
        | .null _ => s.raidHttpGetErrorCount
        | .data _ => Function.update s.raidHttpGetErrorCount connectionNum 0
      raidrequestpartpos := Function.update s.raidrequestpartpos connectionNum piece.endPos
      raidinputparts := Function.update s.raidinputparts connectionNum
        (s.raidinputparts connectionNum ++ [piece]) }
  else none

/-! ## 3. Combining -/

def frontLen (part : Part) : Nat :=
  match s.raidinputparts part with
  | [] => 0
  | r :: _ => r.buf.datalen

/-- One round of the first loop of `combineRaidParts`. -/
def shorter (partslen : Nat) (i : Part) : Nat :=
  match s.raidinputparts i with
  | [] => 0
  | r :: _ => min partslen r.buf.datalen

/-- What the loop leaves in `partslen`. -/
def shortestFront : Nat := countdown.foldl s.shorter 0x10000000

/-- All first pieces start where the combination got to. -/
def inSync : Bool :=
  countdown.all fun i => (s.raidinputparts i).head?.all fun r => r.pos = s.raidpartspos

/-- How much of every part can be combined: full sectors of all six. -/
def partslen : Nat := s.shortestFront - s.shortestFront % RAIDSECTOR

def sumdatalen : Nat := s.frontLen 5 + s.frontLen 4 + s.frontLen 3 + s.frontLen 2 + s.frontLen 1

def xorlen : Nat := s.frontLen 0

def newdatafilepos : Nat := s.outputfilepos + s.leftoverchunk.buf.datalen

/-- Data and parity are there to the end. -/
def processToEnd : Bool :=
  s.newdatafilepos + s.sumdatalen = s.acquirelimitpos ∧
    s.newdatafilepos / EFFECTIVE_RAIDPARTS + s.xorlen = raidPartSize 0 s.acquirelimitpos

def sector (bytes : List UInt8) (offset : Nat) : Option (List UInt8) :=
  if offset + RAIDSECTOR ≤ bytes.length then some ((bytes.drop offset).take RAIDSECTOR) else none

def xorBytes (a b : List UInt8) : List UInt8 := List.zipWith (· ^^^ ·) a b

/-- `recoverSectorFromParity`: the first buffer there is copied, the others are added to it. -/
def recoverSectorFromParity (inputbufs : Part → Option (List UInt8)) (offset : Nat) :
    Option (List UInt8) :=
  match countdown.filterMap inputbufs with
  | [] => none
  | b :: bs => do
    let dest ← sector b offset
    bs.foldlM (fun dest b => do return xorBytes dest (← sector b offset)) dest

def outputSector (inputbufs : Part → Option (List UInt8)) (offset : Nat) (j : Part) :
    Option (List UInt8) :=
  match inputbufs j with
  | some b => sector b offset
  | none => recoverSectorFromParity inputbufs offset

def outputLine (inputbufs : Part → Option (List UInt8)) (offset : Nat) : Option (List UInt8) := do
  let s1 ← outputSector inputbufs offset 1
  let s2 ← outputSector inputbufs offset 2
  let s3 ← outputSector inputbufs offset 3
  let s4 ← outputSector inputbufs offset 4
  let s5 ← outputSector inputbufs offset 5
  return s1 ++ s2 ++ s3 ++ s4 ++ s5

def outputLines (inputbufs : Part → Option (List UInt8)) : Nat → Nat → Option (List UInt8)
  | 0, _ => some []
  | n + 1, offset => do
    let line ← outputLine inputbufs offset
    let rest ← outputLines inputbufs n (offset + RAIDSECTOR)
    return line ++ rest

def inputbufs (part : Part) : Option (List UInt8) :=
  match s.raidinputparts part with
  | [] => none
  | r :: _ => r.buf.datastart

/-- The bytes in `leftoverchunk`, none when it is empty. -/
def leftoverBytes : Option (List UInt8) :=
  match s.leftoverchunk.buf with
  | .null 0 => some []
  | .null (_ + 1) => none
  | .data bytes => some bytes

/-- `rollInputBuffers` for one queue. -/
def rollQueue (dataToDiscard : Nat) : List FilePiece → List FilePiece
  | [] => []
  | r :: q =>
    if r.buf.datalen ≤ dataToDiscard then q
    else ⟨r.pos + dataToDiscard, r.buf.skip dataToDiscard⟩ :: q

def rollInputBuffers (dataToDiscard : Nat) : RaidBufferManager :=
  { s with raidinputparts := fun i => rollQueue dataToDiscard (s.raidinputparts i) }

/-- `dest[x] ^= b[x]` for as many bytes as both have. -/
def xorInto : List UInt8 → List UInt8 → List UInt8
  | d :: dest, x :: b => (d ^^^ x) :: xorInto dest b
  | dest, _ => dest

/-- The front of the part `j`, if it is there and not null, added to `dest`. -/
def xorFront (dest : List UInt8) (j : Part) : List UInt8 :=
  match s.inputbufs j with
  | some b => xorInto dest b
  | none => dest

/-- The first `n` bytes of a sector of the last line, recovered where its piece is null. -/
def lastSector (r : FilePiece) (n : Nat) : List UInt8 :=
  match r.buf with
  | .data b => b.take n
  | .null _ => countdown.foldl s.xorFront (List.replicate n 0)

/-- `combineLastRaidLine` from a part on: the bytes written, as long as some remain. -/
def combineLastFrom : List Part → Nat → List UInt8
  | [], _ => []
  | i :: is, remaining =>
    if remaining = 0 then []
    else
      match s.raidinputparts i with
      | [] => combineLastFrom is remaining
      | r :: _ =>
        let n := min remaining r.buf.datalen
        s.lastSector r n ++ combineLastFrom is (remaining - n)

/-- `combineLastRaidLine`; bytes it does not write stay undefined. -/
def combineLastRaidLine (remainingbytes : Nat) : Option (List UInt8) :=
  let dest := s.combineLastFrom [1, 2, 3, 4, 5] remainingbytes
  if dest.length = remainingbytes then some dest else none

/-- The end of `combineRaidParts`: discard what precedes the resume position and what is past the
delivery limit, and store the rest. -/
def output (connectionNum : Nat) (pos : Nat) (bytes : List UInt8) : RaidBufferManager :=
  let n := min bytes.length s.resumewastedbytes
  let pos := pos + n
  let bytes := bytes.drop n
  let excess := min (pos + bytes.length - s.deliverlimitpos) bytes.length
  let bytes := bytes.take (bytes.length - excess)
  if 0 < bytes.length then
    { s with
      resumewastedbytes := s.resumewastedbytes - n
      asyncoutputbuffers := fun c => if c = connectionNum then some ⟨pos, .data bytes⟩
        else s.asyncoutputbuffers c
      delivered := s.delivered ++ [⟨pos, .data bytes⟩] }
  else { s with resumewastedbytes := s.resumewastedbytes - n }

/-- The parts are combined and the queues rolled; `outputrec` starts at the old `outputfilepos`. -/
def combined (partslen : Nat) : RaidBufferManager :=
  { s.rollInputBuffers partslen with
    raidpartspos := s.raidpartspos + partslen
    outputfilepos := s.outputfilepos + (partslen * EFFECTIVE_RAIDPARTS + s.leftoverchunk.buf.datalen)
    leftoverchunk := .empty }

/-- What is past the last chunk boundary is held back in `leftoverchunk`. -/
def holdBack (macchunkpos : Nat) (outputrec : List UInt8) :
    Option (RaidBufferManager × List UInt8) :=
  let excessdata := s.outputfilepos - macchunkpos
  if excessdata ≤ outputrec.length then
    some ({ s with
        leftoverchunk := ⟨s.outputfilepos - excessdata,
          .data (outputrec.drop (outputrec.length - excessdata))⟩
        outputfilepos := s.outputfilepos - excessdata },
      outputrec.take (outputrec.length - excessdata))
  else none

/-- The branches after the lines are combined: the last line, or holding back. -/
def finish (atEnd : Bool) (remaining macchunkpos connectionNum pos : Nat)
    (outputrec : List UInt8) : Option RaidBufferManager :=
  if atEnd ∧ 0 < remaining then
    if s.outputfilepos + remaining = s.acquirelimitpos then do
      let last ← s.combineLastRaidLine remaining
      return (s.rollInputBuffers RAIDSECTOR).output connectionNum pos (outputrec ++ last)
    else none
  else if ¬ atEnd ∧ macchunkpos < s.outputfilepos then do
    let (s, outputrec) ← s.holdBack macchunkpos outputrec
    return s.output connectionNum pos outputrec
  else some (s.output connectionNum pos outputrec)

/-- What the assertions of `combineRaidParts` demand. -/
def Checked (connectionNum : Nat) : Prop :=
  s.asyncoutputbuffers connectionNum = none ∧
    s.raidpartspos * EFFECTIVE_RAIDPARTS = s.newdatafilepos ∧ s.inSync ∧
    s.newdatafilepos + s.sumdatalen ≤ s.acquirelimitpos ∧
    (s.partslen = 0 ∨ s.processToEnd = false ∨
      s.sumdatalen - s.partslen * EFFECTIVE_RAIDPARTS ≤ RAIDLINE)

instance (connectionNum : Nat) : Decidable (s.Checked connectionNum) :=
  inferInstanceAs (Decidable (_ ∧ _))

def combineRaidParts (kind : Manager) (connectionNum : Nat) : Option RaidBufferManager :=
  if s.Checked connectionNum then
    if 0 < s.partslen ∨ s.processToEnd then do
      let macchunkpos := kind.calcOutputChunkPos
        (s.newdatafilepos + s.partslen * EFFECTIVE_RAIDPARTS)
      let leftover ← s.leftoverBytes
      let lines ← outputLines s.inputbufs (s.partslen / RAIDSECTOR) 0
      (s.combined s.partslen).finish s.processToEnd
        (s.sumdatalen - s.partslen * EFFECTIVE_RAIDPARTS) macchunkpos connectionNum s.outputfilepos
        (leftover ++ lines)
    else some s
  else none

def bufferWriteCompleted (connectionNum : Nat) : RaidBufferManager :=
  { s with asyncoutputbuffers := fun c => if c = connectionNum then none
      else s.asyncoutputbuffers c }

/-! ## 4. Switching connections -/

/-- `clearOwningFilePieces(raidinputparts[part]); raidrequestpartpos[part] = raidpartspos`. -/
def clearPart (part : Nat) : RaidBufferManager :=
  { s with
    raidinputparts := fun i => if i.val = part then [] else s.raidinputparts i
    raidrequestpartpos := fun i => if i.val = part then s.raidpartspos else s.raidrequestpartpos i }

/-- The unused connection, if there is one, starts from `raidpartspos`. -/
def clearUnused : RaidBufferManager :=
  if s.unusedRaidConnection < RAIDPARTS then s.clearPart s.unusedRaidConnection else s

def RAID_ACTIVE_CHANNEL_FAIL_THRESHOLD : Nat := 5

def tryRaidHttpGetErrorRecovery (errorConnectionNum : Part) (incrementErrors : Bool) :
    RaidBufferManager × Bool :=
  let s := if incrementErrors then
      { s with
        raidHttpGetErrorCount := Function.update s.raidHttpGetErrorCount errorConnectionNum
          (s.raidHttpGetErrorCount errorConnectionNum + 1) }
    else s
  let errorSum := countdown.foldl (fun n i => n + s.raidHttpGetErrorCount i) 0
  let highestErrors := countdown.foldl (fun n i => max n (s.raidHttpGetErrorCount i)) 0
  if errorSum - highestErrors < RAID_ACTIVE_CHANNEL_FAIL_THRESHOLD then
    ({ s.clearUnused.clearPart errorConnectionNum with
      unusedRaidConnection := errorConnectionNum }, true)
  else (s, false)

/-- `detectSlowestRaidConnection`: when one connection alone has not started, it is not used. -/
def detectSlowestRaidConnection (thisConnection : Part) : RaidBufferManager × Bool :=
  if s.unusedRaidConnection = RAIDPARTS then
    let s := { s with connectionStarted := Function.update s.connectionStarted thisConnection true }
    match countdown.filter fun j => !s.connectionStarted j with
    | [slowestConnection] =>
      ({ s with
        unusedRaidConnection := slowestConnection
        raidrequestpartpos := Function.update s.raidrequestpartpos slowestConnection
          s.raidpartspos }, true)
    | _ => (s, false)
  else (s, false)

def setUnusedRaidConnection (newUnusedRaidConnection : Nat) : RaidBufferManager × Bool :=
  if newUnusedRaidConnection < RAIDPARTS then
    ({ s.clearUnused.clearPart newUnusedRaidConnection with
      unusedRaidConnection := newUnusedRaidConnection }, true)
  else (s, false)

end RaidBufferManager

/-! ## 5. Operations -/

/-- The calls a transfer or a streaming read makes. -/
inductive Op where
  | submitBuffer (connectionNum : Part) (piece : FilePiece)
  | combineRaidParts (connectionNum : Nat)
  | bufferWriteCompleted (connectionNum : Nat)
  | tryRaidHttpGetErrorRecovery (errorConnectionNum : Part) (incrementErrors : Bool)
  | detectSlowestRaidConnection (thisConnection : Part)
  | setUnusedRaidConnection (newUnusedRaidConnection : Nat)

def exec (kind : Manager) (s : RaidBufferManager) : Op → Option RaidBufferManager
  | .submitBuffer c piece => s.submitBuffer c piece
  | .combineRaidParts c => s.combineRaidParts kind c
  | .bufferWriteCompleted c => some (s.bufferWriteCompleted c)
  | .tryRaidHttpGetErrorRecovery c incrementErrors =>
    some (s.tryRaidHttpGetErrorRecovery c incrementErrors).1
  | .detectSlowestRaidConnection c => some (s.detectSlowestRaidConnection c).1
  | .setUnusedRaidConnection c => some (s.setUnusedRaidConnection c).1

end MegaSdk.Raid
