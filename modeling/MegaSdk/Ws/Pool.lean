/-
  File:      MegaSdk/Ws/Pool.lean
  Subject:   THE UPLOAD POOL (ws_pool.cpp, ws_conn.cpp): what its workers, the server's frames and
             the engine do to the chunks of the uploads bound to it.

  Every worker thread owns one connection. It takes a chunk under the engine mutex, releases the
  mutex while it reads and again while it encrypts, and puts the chunk into its connection's list of
  chunks in flight. One step (`Op`) is what happens between two releases of the mutex; the runs
  interleave the steps of any number of workers with those of the engine.

  A file is bound to at most one pool and changes it only through a failed attempt, so one pool is
  modelled. The budget, the candidates of the queue and the clock are arguments of the steps.
-/
import MegaSdk.Base.Cells
import MegaSdk.Base.Loop
import MegaSdk.Ws.Upload

namespace MegaSdk.Ws

open Base

/-! ## 1. The state -/

/-- Where a worker is in `sendChunk` while the mutex is released. -/
inductive Phase
  | reading
  | encrypting
deriving DecidableEq, Repr

/-- What a worker has in its hands: the chunk, the work generation it expects, and the MACs it is
    computing. `obj` is the object it reads from and `attempt` the number of the attempt in which it
    took the chunk (for the statements only). -/
structure Task where
  chunk : WsChunk
  expectedGeneration : Nat
  phase : Phase := .reading
  macs : ChunkmacMap := {}
  obj : Nat := 0
  attempt : Nat := 0

structure WsConn where
  mChunksInFlight : List (WsChunk × ChunkmacMap) := []
  worker : Option Task := none
deriving Inhabited

/-- `WsPool`, and what the engine (`UploadEngine::Impl`) holds for it: the tracked uploads by file
    number and the version of its queue. `nextObj` numbers the upload objects; `consumed` and
    `refunded` are the chunks whose bytes the pool was granted and gave back, oldest first. -/
structure Pool where
  files : Nat → Option WsUploadFile := fun _ => none
  mConns : List WsConn := []
  mToResend : List WsChunk := []
  mNumChunksInFlight : Int := 0
  mUploadingFile : Option Nat := none
  mUFTQversion : Nat := 0
  queueVersion : Nat := 0
  nextObj : Nat := 0
  consumed : List WsChunk := []
  refunded : List WsChunk := []
  mAckedChunkRewind : Bool := true
  mResendDedupCancel : Bool := true

namespace Pool

variable (s : Pool)

def conn (c : Nat) : WsConn := cell s.mConns c

variable (fileno : Nat)

/-- `findFile`: the upload, if it is bound to this pool. -/
def findFile : Option WsUploadFile := (s.files fileno).filter (·.inPool)

def setFile (f : WsUploadFile) : Pool :=
  { s with files := fun n => if n = fileno then some f else s.files n }

/-- `withFile`: a change to a tracked upload. -/
def withFile (g : WsUploadFile → WsUploadFile) : Pool :=
  match s.files fileno with
  | some f => s.setFile fileno (g f)
  | none => s

def setConn (c : Nat) (x : WsConn) : Pool := { s with mConns := s.mConns.set c x }

def setWorker (c : Nat) (w : Option Task) : Pool := s.setConn c { s.conn c with worker := w }

def requeue (chunk : WsChunk) : Pool := { s with mToResend := s.mToResend ++ [chunk] }

/-- `consumeUploadBudget`, granted, with a cap set: the empty chunk costs nothing. -/
def consumeUploadBudget (chunk : WsChunk) : Pool :=
  { s with consumed := s.consumed ++ [chunk].filter fun x => x.len != 0 }

/-- `refundUploadBudget`, for every chunk of a list. -/
def refundUploadBudget (chunks : List WsChunk) : Pool :=
  { s with refunded := s.refunded ++ chunks.filter fun x => x.len != 0 }

/-- `if (mNumChunksInFlight > 0) --mNumChunksInFlight`, `k` times. -/
def decrement (n : Int) : Nat → Int
  | 0 => n
  | k + 1 => decrement (if n > 0 then n - 1 else n) k

def flights : List (WsChunk × ChunkmacMap) := s.mConns.flatMap (·.mChunksInFlight)

def tasks : List Task := s.mConns.flatMap fun x => x.worker.toList

/-! ## 2. Failures -/

def purgeFile : Pool :=
  { s with
    mToResend := s.mToResend.filter fun c => c.fileno != fileno
    mConns := s.mConns.map fun x =>
      { x with mChunksInFlight := x.mChunksInFlight.filter fun p => p.1.fileno != fileno }
    mNumChunksInFlight := decrement s.mNumChunksInFlight
      (s.flights.countP fun p => p.1.fileno == fileno) }

/-- `unsetPool`, which also clears the pool's active file. -/
def unsetPool : Pool :=
  { s.withFile fileno fun f => { f with inPool := false } with
    mUploadingFile := if s.mUploadingFile = some fileno then none else s.mUploadingFile }

def uploadFailed (fileno now : Nat) : Pool :=
  (s.withFile fileno (·.markFailed now)).unsetPool fileno

def failFile (fileno now : Nat) : Pool := (s.purgeFile fileno).uploadFailed fileno now

/-- The end of an attempt by a watchdog of `checkPools` or after sustained handshake failures. -/
def restart (fileno now : Nat) : Pool :=
  { ((s.purgeFile fileno).withFile fileno (·.markFailedForRetry now 0)).unsetPool fileno with
    mUFTQversion := s.queueVersion }

/-- `invalidatePinnedSessionUrl` for one upload: an upload bound to the pinned pool is detached. -/
def clearSessionUrlHintAndRestart (pinned : Bool) : Pool :=
  let s := { s.withFile fileno (·.resetAttemptState) with queueVersion := s.queueVersion + 1 }
  if pinned then (s.purgeFile fileno).unsetPool fileno else s

/-! ## 3. Choosing a chunk -/

/-- What the loop over `mToResend` ends with, and the queue it leaves. -/
inductive Scan
  | taken (chunk : WsChunk) (rest : List WsChunk)
  | denied (rest : List WsChunk)
  | passed (rest : List WsChunk)

/-- An entry that stays parked. -/
def Scan.park (c : WsChunk) : Scan → Scan
  | .taken chunk rest => .taken chunk (c :: rest)
  | .denied rest => .denied (c :: rest)
  | .passed rest => .passed (c :: rest)

/-- The loop of `nextChunk` over `mToResend`. Entries of an upload that is not bound to this pool
    and entries past the end of the file are discarded. -/
def scanResend (budget : Bool) : List WsChunk → Scan
  | [] => .passed []
  | c :: l =>
    match s.findFile c.fileno with
    | none => scanResend budget l
    | some f =>
      if c.len ≠ 0 ∧ c.pos + c.len > f.mSize then scanResend budget l
      else if f.paused then (scanResend budget l).park c
      else if budget then .taken c l
      else .denied (c :: l)

/-- The condition of the fast path of `getWsUploadFile`. -/
def canReuse (now : Nat) : Option Nat :=
  match s.mUploadingFile with
  | none => none
  | some fileno =>
    match s.files fileno with
    | none => none
    | some f =>
      if !f.paused && f.continuingUpload now && f.hasPendingBytesOrEofToSend &&
          s.mUFTQversion == s.queueVersion then some fileno else none

/-- `getWsUploadFile`: the pool goes on with its active file, or starts `pick`, which stands for the
    candidate of `findPreflightReadyCandidate` (none when there is none or it may not start). -/
def getWsUploadFile (now : Nat) (pick : Option Nat) : Pool × Option Nat :=
  match s.canReuse now with
  | some fileno => (s, some fileno)
  | none =>
    match pick with
    | none => (s, none)
    | some fileno =>
      match s.files fileno with
      | none => (s, none)
      | some f =>
        if !f.paused && f.continuingUpload now && f.hasPendingBytesOrEofToSend then
          let f := f.setUploadStart now
          if s.mUploadingFile ≠ some fileno then
            ({ s.setFile fileno { f with inPool := true } with
                mUploadingFile := some fileno, mUFTQversion := s.queueVersion },
              some fileno)
          else (s.setFile fileno f, some fileno)
        else (s, none)

/-- The body of the last loop of `nextChunk`: a chunk at the head position. The head advances when
    the budget allows it. -/
def freshChunk (budget : Bool) : Pool × Option WsChunk :=
  match s.files fileno with
  | none => (s, none)
  | some f =>
    if f.mHeadPos = f.mSize then
      (s.setFile fileno { f with mEofSet := true },
        some { pos := f.mHeadPos, len := 0, fileno := fileno })
    else
      let advance := wsFreshChunkAdvance f.mHeadPos f.mSize
      let f := if advance < chunkSizeAtPosition f.mHeadPos then { f with mEofSet := true } else f
      if budget then
        let chunk := { pos := f.mHeadPos, len := advance, fileno := fileno }
        ((s.setFile fileno
            { f with
              mHeadPos := f.mHeadPos + advance
              attempt := { f.attempt with
                handed := f.attempt.handed ++ [(f.mHeadPos, advance)] } }).consumeUploadBudget chunk,
          some chunk)
      else (s.setFile fileno f, none)

/-- `nextChunk`. A file that `getWsUploadFile` returns has bytes or the EOF to send, so its loop
    runs once. -/
def nextChunk (now : Nat) (budget enginePaused : Bool) (pick : Option Nat) :
    Pool × Option WsChunk :=
  match s.scanResend budget s.mToResend with
  | .taken c rest => ({ s with mToResend := rest }.consumeUploadBudget c, some c)
  | .denied rest => ({ s with mToResend := rest }, none)
  | .passed rest =>
    let s := { s with mToResend := rest }
    if enginePaused then (s, none)
    else
      match s.getWsUploadFile now pick with
      | (s, none) => (s, none)
      | (s, some fileno) => s.freshChunk fileno budget

/-! ## 4. Sending a chunk -/

/-- `mChunksInFlight.emplace_back`, `sendChunkData` and the counter. -/
def putInFlight (c : Nat) (chunk : WsChunk) (macs : ChunkmacMap) : Pool :=
  let s :=
    { s.setConn c
        { s.conn c with mChunksInFlight := (s.conn c).mChunksInFlight ++ [(chunk, macs)] } with
      mNumChunksInFlight := s.mNumChunksInFlight + 1 }
  s.withFile chunk.fileno fun f =>
    { f with attempt := { f.attempt with sent := f.attempt.sent ++ [chunk.range] } }

/-- `sendChunk` up to the read: the chunk is taken, and the worker has it in its hands. The empty
    EOF chunk is neither read nor encrypted and goes out at once. -/
def sendChunk (c now : Nat) (budget enginePaused : Bool) (pick : Option Nat) : Pool :=
  if c < s.mConns.length ∧ (s.conn c).worker.isNone then
    match s.nextChunk now budget enginePaused pick with
    | (s, none) => s
    | (s, some chunk) =>
      match s.findFile chunk.fileno with
      | none => s
      | some f =>
        if chunk.len = 0 then
          if f.paused then s.requeue chunk
          else if f.hasFailed then s
          else s.putInFlight c chunk {}
        else s.setWorker c (some
          { chunk := chunk, expectedGeneration := f.mWorkGeneration, obj := f.obj,
            attempt := f.attempt.number })
  else s

/-- How a read ends, the work generation apart. -/
inductive ReadOutcome
  | ok
  | interrupted
  | failed
deriving DecidableEq, Repr

/-- The object that is read still has the work generation the reader expects. -/
def sameWork (t : Task) : Bool :=
  match s.files t.chunk.fileno with
  | some f => f.obj != t.obj || f.mWorkGeneration == t.expectedGeneration
  | none => true

/-- `sendChunk` after a successful read; the worker's hands are empty. -/
def afterRead (c : Nat) (t : Task) : Pool :=
  match s.findFile t.chunk.fileno with
  | none => s.refundUploadBudget [t.chunk]
  | some f =>
    if f.paused then (s.requeue t.chunk).refundUploadBudget [t.chunk]
    else if f.hasFailed then s.refundUploadBudget [t.chunk]
    else s.setWorker c (some { t with
      phase := .encrypting
      macs := encryptChunk f.mTransferKey f.mCtrIv t.chunk.pos (f.readData t.chunk) })

/-- `sendChunk` after an interrupted read. -/
def afterInterrupt (t : Task) : Pool :=
  match s.findFile t.chunk.fileno with
  | none => s
  | some _ => (s.requeue t.chunk).refundUploadBudget [t.chunk]

/-- The end of `readData` when the read failed, and `sendChunk` after it. -/
def afterFailedRead (t : Task) (now : Nat) : Pool :=
  let s := s.withFile t.chunk.fileno fun f => if f.obj = t.obj then f.markFailed now else f
  match s.findFile t.chunk.fileno with
  | none => s
  | some f =>
    let s := (s.refundUploadBudget [t.chunk]).purgeFile t.chunk.fileno
    if f.hasFailed then s.unsetPool t.chunk.fileno
    else s.uploadFailed t.chunk.fileno now

def finishRead (c : Nat) (outcome : ReadOutcome) (now : Nat) : Pool :=
  match (s.conn c).worker with
  | none => s
  | some t =>
    if t.phase = .encrypting then s
    else
      let s' := s.setWorker c none
      if outcome = .interrupted ∨ s.sameWork t = false then s'.afterInterrupt t
      else if outcome = .ok then s'.afterRead c t
      else s'.afterFailedRead t now

/-- `sendChunk` after the encryption; the worker's hands are empty. -/
def afterEncrypt (c : Nat) (t : Task) : Pool :=
  match s.findFile t.chunk.fileno with
  | none => s.refundUploadBudget [t.chunk]
  | some f =>
    if f.paused then (s.requeue t.chunk).refundUploadBudget [t.chunk]
    else s.putInFlight c t.chunk t.macs

def finishEncrypt (c : Nat) : Pool :=
  match (s.conn c).worker with
  | none => s
  | some t => if t.phase = .reading then s else (s.setWorker c none).afterEncrypt c t

/-! ## 5. Losses and frames -/

/-- A chunk in flight that `retryChunksOnTheWireLocked` does not queue again: all of it is acked. -/
def alreadyAcked (x : WsChunk × ChunkmacMap) : Bool :=
  s.mAckedChunkRewind && decide (0 < x.1.len) &&
    match s.findFile x.1.fileno with
    | some f => rangeFullyAcked x.1.pos (x.1.pos + x.1.len) f.mAckedIntervals
    | none => false

/-- `retryChunksOnTheWireLocked`: the connection is lost, its chunks are refunded and queued
    again. -/
def retryChunksOnTheWire (c : Nat) : Pool :=
  let again := ((s.conn c).mChunksInFlight.filter fun x => !s.alreadyAcked x).map (·.1)
  { (s.setConn c { s.conn c with mChunksInFlight := [] }).refundUploadBudget again with
    mToResend := s.mToResend ++ again
    mNumChunksInFlight := s.mNumChunksInFlight - (s.conn c).mChunksInFlight.length }

def retryChunk (chunk : WsChunk) (now : Nat) : Pool :=
  let retry := { chunk with retryCount := chunk.retryCount + 1 }
  if retry.retryCount > 10 then
    let s' := s.purgeFile chunk.fileno
    match s.findFile chunk.fileno with
    | some _ => s'.uploadFailed chunk.fileno now
    | none => s'
  else s.requeue retry

def purgeQueuedResendForRange (chunk : WsChunk) : Pool :=
  { s with
    mToResend := s.mToResend.filter fun c =>
      !(c.fileno == chunk.fileno && c.pos == chunk.pos && c.len == chunk.len) }

/-- `applyInFlightLocked`: the MACs of all chunks in flight are applied, and the chunks dropped. -/
def applyInFlight : Pool :=
  let mine := s.flights.filter fun x => x.1.fileno == fileno
  let s' := s.withFile fileno fun f => mine.foldl (fun f x => f.applyMacs x.2) f
  { s' with
    mConns := s.mConns.map fun x =>
      { x with mChunksInFlight := x.mChunksInFlight.filter fun p => p.1.fileno != fileno }
    mNumChunksInFlight := decrement s.mNumChunksInFlight mine.length }

/-- The chunk in flight on connection `c` that a frame names. -/
def named (c fileno pos : Nat) : Option (WsChunk × ChunkmacMap) :=
  (s.conn c).mChunksInFlight.find? fun x => x.1.pos == pos && x.1.fileno == fileno

/-- The loop of `onmessage`: the named chunk leaves the list, a confirming event applies its MACs. -/
def takeNamed (c : Nat) (x : WsChunk × ChunkmacMap) (event : WsApiServerEvent) : Pool :=
  let s := s.setConn c
    { s.conn c with
      mChunksInFlight := (s.conn c).mChunksInFlight.eraseP fun y =>
        y.1.pos == x.1.pos && y.1.fileno == x.1.fileno }
  let s := { s with mNumChunksInFlight := decrement s.mNumChunksInFlight 1 }
  if event.confirms then
    s.withFile x.1.fileno fun f =>
      let f := f.applyMacs x.2
      { f with attempt := { f.attempt with acked := f.attempt.acked ++ [(event, x.1.range)] } }
  else s

/-- The cases `ChunkIngested` and `FinalDataIngested`, with `handleBytesConfirmedOverflow`. -/
def creditBytes (chunk : WsChunk) (now : Nat) : Pool :=
  if chunk.len = 0 then s
  else
    let s := s.withFile chunk.fileno fun f =>
      { f with
        mBytesConfirmed := f.mBytesConfirmed + chunk.len
        mAckedIntervals := if s.mAckedChunkRewind then
          markRangeAcked chunk.pos (chunk.pos + chunk.len) f.mAckedIntervals
          else f.mAckedIntervals }
    match s.files chunk.fileno with
    | some f => if f.mBytesConfirmed > f.mSize then s.failFile chunk.fileno now else s
    | none => s

/-- A frame that names the chunk `x`, with the chunk already taken out. -/
def handleNamed (chunk : WsChunk) (event : WsApiServerEvent) (headerOnly : Bool) (now : Nat) :
    Pool :=
  if headerOnly then s.failFile chunk.fileno now
  else
    match event with
    | .chunkIngested | .finalDataIngested => s.creditBytes chunk now
    | .alreadyOnServer =>
      if s.mResendDedupCancel then s.purgeQueuedResendForRange chunk else s
    | .crcFailed => s.retryChunk chunk now
    | _ => s

/-- The case `UploadCompleted`; `payloadOk` says that the payload's length fits the frame. -/
def complete (payloadOk : Bool) (now : Nat) : Pool :=
  let s := s.applyInFlight fileno
  if payloadOk then (s.withFile fileno (·.uploadCompleted now)).unsetPool fileno
  else s.failFile fileno now

/-- `onmessage`, on connection `c`. -/
def onmessage (c fileno pos : Nat) (event : WsApiServerEvent) (headerOnly payloadOk : Bool)
    (now : Nat) : Pool :=
  match s.findFile fileno with
  | none => s
  | some _ =>
    if event = .error then s.failFile fileno now
    else if event.namesChunk then
      match s.named c fileno pos with
      | none => s
      | some x => (s.takeNamed c x event).handleNamed x.1 event headerOnly now
    else if headerOnly then s.failFile fileno now
    else if event = .uploadCompleted then s.complete fileno payloadOk now
    else s

/-! ## 6. The engine -/

/-- What `enqueue` reads of a transfer. -/
structure NewUpload where
  size : Nat
  hasSessionUrl : Bool := false
  pos : Nat := 0
  progresscompleted : Nat := 0
  paused : Bool := false
  key : Block → Block := id
  ctrIv : UInt64 := 0
  content : List UInt8 := []

/-- The constructor of `WsUploadFile`: with a session URL the upload is resumed. -/
def NewUpload.file (t : NewUpload) (obj : Nat) : WsUploadFile :=
  let head := if t.hasSessionUrl then min t.pos t.size else 0
  let confirmed := if t.hasSessionUrl then min t.progresscompleted head else 0
  { mSize := t.size, obj := obj, mHeadPos := head, mBytesConfirmed := confirmed,
    mPaused := t.paused, mTransferKey := t.key, mCtrIv := t.ctrIv, content := t.content,
    attempt := { start := head, carry := confirmed } }

def enqueue (t : NewUpload) : Pool :=
  match s.files fileno with
  | some _ => s
  | none =>
    { s.setFile fileno (t.file s.nextObj) with
      nextObj := s.nextObj + 1, queueVersion := s.queueVersion + 1 }

def remove : Pool :=
  let s := s.purgeFile fileno
  { s with
    mUploadingFile := if s.mUploadingFile = some fileno then none else s.mUploadingFile
    files := fun n => if n = fileno then none else s.files n
    queueVersion := s.queueVersion + 1 }

end Pool

/-! ## 7. Steps and runs -/

inductive Op
  | newConn
  | sendChunk (c now : Nat) (budget enginePaused : Bool) (pick : Option Nat)
  | finishRead (c : Nat) (outcome : Pool.ReadOutcome) (now : Nat)
  | finishEncrypt (c : Nat)
  | onmessage (c fileno pos : Nat) (event : WsApiServerEvent) (headerOnly payloadOk : Bool)
      (now : Nat)
  | closeWS (c : Nat)
  | setPaused (fileno : Nat) (p : Bool)
  | setQuotaHeld (fileno : Nat) (q : Bool)
  | setRetryUntil (fileno when_ : Nat)
  | markFailed (fileno now retryUntil : Nat)
  | restart (fileno now : Nat)
  | clearSessionUrlHintAndRestart (fileno : Nat) (pinned : Bool)
  | enqueue (fileno : Nat) (t : Pool.NewUpload)
  | remove (fileno : Nat)
  | bumpQueueVersion
  | drainConfirmedChunkMacs (fileno : Nat)

def Pool.exec (s : Pool) : Op → Pool
  | .newConn => { s with mConns := s.mConns ++ [{}] }
  | .sendChunk c now budget enginePaused pick => s.sendChunk c now budget enginePaused pick
  | .finishRead c outcome now => s.finishRead c outcome now
  | .finishEncrypt c => s.finishEncrypt c
  | .onmessage c fileno pos event headerOnly payloadOk now =>
    s.onmessage c fileno pos event headerOnly payloadOk now
  | .closeWS c => s.retryChunksOnTheWire c
  | .setPaused fileno p => s.withFile fileno (·.setPaused p)
  | .setQuotaHeld fileno q => s.withFile fileno (·.setQuotaHeld q)
  | .setRetryUntil fileno when_ => s.withFile fileno (·.setRetryUntil when_)
  | .markFailed fileno now retryUntil => s.withFile fileno (·.markFailedForRetry now retryUntil)
  | .restart fileno now => s.restart fileno now
  | .clearSessionUrlHintAndRestart fileno pinned => s.clearSessionUrlHintAndRestart fileno pinned
  | .enqueue fileno t => s.enqueue fileno t
  | .remove fileno => s.remove fileno
  | .bumpQueueVersion => { s with queueVersion := s.queueVersion + 1 }
  | .drainConfirmedChunkMacs fileno => s.withFile fileno fun f => { f with mConfirmedChunkMacs := [] }

def Pool.fresh (ackedChunkRewind resendDedupCancel : Bool) : Pool where
  mAckedChunkRewind := ackedChunkRewind
  mResendDedupCancel := resendDedupCancel

def execAll (ops : List Op) (s : Pool) : Pool := ops.foldl Pool.exec s

end MegaSdk.Ws
