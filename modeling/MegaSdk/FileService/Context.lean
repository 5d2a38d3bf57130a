/-
  File:      MegaSdk/FileService/Context.lean
  Subject:   A FILE CONTEXT: WHAT IT HAS CACHED, WHAT IT DOWNLOADS AND WHO WAITS FOR IT
             (file_context.cpp, file_service_queries.cpp).

  A `FileContext` keeps the ranges of a file that are on disk in memory (`mOnDisk`) and in the
  database (the rows of `file_ranges`). Its downloads write data to disk, its write requests do
  too, and a read waits in `mPendingReadRequests` until data arrives at its beginning.

  A step is `none` where an assertion fails or a statement violates a constraint of the table.
  The times, the allocated and reported sizes and the file's bytes are not modelled.
-/
import MegaSdk.FileService.Ranges

namespace MegaSdk.FileService

open FileRangeTree

/-! ## 1. The context -/

/-- `DownloadContext`: `range` is its key in the map of downloads (`mIterator->first`), and `mEnd`
    where its downloaded data ends (`mRange.mEnd`). -/
structure Download where
  range : FileRange
  mEnd : Nat
  deriving DecidableEq, Repr

instance : KeyFunction Download := ⟨Download.range⟩

/-- `FileReadRequest`, without its callback. -/
structure FileReadRequest where
  mRange : FileRange
  mIsJumpCandidate : Bool := false
  deriving DecidableEq, Repr

/-- `FileContext`, and its file in the database. `replaced` are the ranges that downloads still
    had to deliver when a jump replaced them, until their `completed` is called. -/
structure FileContext where
  rows : List FileRange := []
  persistedSize : Nat := 0
  size : Nat := 0
  mOnDisk : List FileRange := []
  mLarge : List Download := []
  mSmall : List Download := []
  replaced : List FileRange := []
  mPendingReadRequests : List FileReadRequest := []
  deriving DecidableEq, Repr

/-- `ServiceOptions`, as far as reads use it. Times are in milliseconds. -/
structure ServiceOptions where
  mImmediateDownloadThreshold : Nat := 2 ^ 20
  mJumpBackwardAlignment : Nat := 20
  mJumpBackwardDistance : Nat := 2000
  mJumpForwardDistance : Nat := 3000
  mMinimumRangeSize : Nat := 2 ^ 16

namespace FileContext

variable (c : FileContext)

def downloads (large : Bool) : List Download := if large then c.mLarge else c.mSmall

def setDownloads (large : Bool) (m : List Download) : FileContext :=
  if large then { c with mLarge := m } else { c with mSmall := m }

@[simp]
theorem downloads_true : c.downloads true = c.mLarge := rfl

@[simp]
theorem downloads_false : c.downloads false = c.mSmall := rfl

theorem downloads_setDownloads (large large' : Bool) (m : List Download) :
    (c.setDownloads large m).downloads large' = if large' = large then m else c.downloads large' := by
  cases large <;> cases large' <;> rfl

theorem setDownloads_frame (large : Bool) (m : List Download) :
    (c.setDownloads large m).rows = c.rows ∧ (c.setDownloads large m).mOnDisk = c.mOnDisk ∧
    (c.setDownloads large m).persistedSize = c.persistedSize ∧
    (c.setDownloads large m).size = c.size ∧ (c.setDownloads large m).replaced = c.replaced ∧
    (c.setDownloads large m).mPendingReadRequests = c.mPendingReadRequests := by
  cases large <;> exact ⟨rfl, rfl, rfl, rfl, rfl, rfl⟩

/-! ## 2. Rows and ranges -/

/-- `mRemoveFileRanges`: the rows within `r` are deleted. -/
def removeRanges (rows : List FileRange) (r : FileRange) : List FileRange :=
  rows.filter fun x => ¬ (x.mBegin ≥ r.mBegin ∧ x.mEnd ≤ r.mEnd)

/-- `mAddFileRange`; no two rows of a file begin or end at one position. -/
def addRange (rows : List FileRange) (r : FileRange) : Option (List FileRange) :=
  if ∃ x ∈ rows, x.mBegin = r.mBegin ∨ x.mEnd = r.mEnd then none else some (r :: rows)

/-- The effective range `updateRanges` computes: `r` and the ranges from `b` up to `e`. -/
def effectiveRange (onDisk : List FileRange) (r : FileRange) (b e : List FileRange) : FileRange :=
  match b with
  | [] => r
  | sibling :: _ =>
    let r : FileRange := ⟨min sibling.mBegin r.mBegin, max sibling.mEnd r.mEnd⟩
    -- the range before `e`, the last one when `e` is `end()`
    match (onDisk.take (onDisk.length - e.length)).getLast? with
    | none => r
    | some candidate => { r with mEnd := max candidate.mEnd r.mEnd }

def updateRanges (r : FileRange) : Option (FileContext × FileRange) := do
  let r : FileRange := { r with mBegin := min r.mBegin c.size }
  let found := find c.mOnDisk (r.extend 1)
  let r := effectiveRange c.mOnDisk r found.1 found.2
  let rows ← addRange (removeRanges c.rows r) r
  let (mOnDisk, _) ← tryAdd id (remove c.mOnDisk found.1 found.2) r
  some ({ c with rows := rows, persistedSize := max c.size r.mEnd, mOnDisk := mOnDisk }, r)

def written (r : FileRange) : FileContext := { c with size := max c.size r.mEnd }

/-! ## 3. Downloads -/

/-- `DownloadContext::range(range)`: the download of `d` is cut down to `r`. -/
def setRange (m : List Download) (d : Download) (r : FileRange) : Option (List Download) :=
  if d.range = r then some m
  else if r.length < d.range.length then
    match tryAdd (fun x => ⟨x, min r.mEnd (max r.mBegin d.mEnd)⟩) (m.erase d) r with
    | some (m, _, true) => some m
    | _ => none
  else none

/-- In `cancel(downloading, range)`: `b` overlaps the beginning of `r`. -/
def cutBegin (m : List Download) (b : Download) (r : FileRange) : Option (List Download) :=
  if b.range.mBegin < r.mBegin ∧ b.range.mEnd ≤ r.mEnd then
    setRange m b (.ofEnds b.range.mBegin r.mBegin)
  else some m

/-- In `cancel(downloading, range)`: a download overlaps the ending of `r`. -/
def cutEnd (m : List Download) (r : FileRange) : Option (List Download) :=
  match endsAfter m r.mEnd with
  | [] => some m
  | e :: _ =>
    if e.range.mBegin < r.mEnd then setRange m e (.ofEnds r.mEnd e.range.mEnd) else some m

/-- `cancel(downloading, range)`: the downloads, and those of them that have to be cancelled. -/
def trim (m : List Download) (r : FileRange) : Option (List Download × List Download) :=
  match endsAfter m r.mBegin with
  | [] => some (m, [])
  | b :: _ =>
    if b.range.mBegin ≥ r.mEnd then some (m, [])
    else do
      let m ← cutBegin m b r
      let m ← cutEnd m r
      let found := find m r
      some (m, found.1.take (found.1.length - found.2.length))

/-- `failed(range, result)`: the pending reads from `r.mBegin` to `r.mEnd` that no download will
    satisfy are failed. -/
def failed (r : FileRange) : FileContext :=
  { c with mPendingReadRequests := c.mPendingReadRequests.filter fun q =>
      ¬ (r.mBegin ≤ q.mRange.mBegin ∧ q.mRange.mBegin ≤ r.mEnd ∧
        contains c.mLarge q.mRange.mBegin = [] ∧ contains c.mSmall q.mRange.mBegin = []) }

/-- `DownloadContext::completed(error)` of a download that has not been replaced. -/
def completed (large : Bool) (d : Download) : FileContext :=
  (c.setDownloads large ((c.downloads large).erase d)).failed (.ofEnds d.mEnd d.range.mEnd)

/-- `DownloadContext::completed(error)` of a download that has been replaced. -/
def completedReplaced (r : FileRange) : FileContext :=
  { c with replaced := c.replaced.erase r }.failed r

/-- `cancel(range)`. The cancelled downloads complete at once. -/
def cancel (r : FileRange) : Option FileContext := do
  let (mLarge, large) ← trim c.mLarge r
  let (mSmall, small) ← trim c.mSmall r
  let c := large.foldl (fun c d => c.completed true d) { c with mLarge := mLarge, mSmall := mSmall }
  some (small.foldl (fun c d => c.completed false d) c)

/-- `dispatch(dispatcher, range)`: the pending reads that begin in `r` are taken out. -/
def dispatch (r : FileRange) : FileContext :=
  { c with mPendingReadRequests := c.mPendingReadRequests.filter fun q =>
      ¬ r.contains q.mRange.mBegin }

/-- `data` writes to each gap, until a write falls short: where the written data ends, and whether
    all gaps were filled. `buffer` says how many bytes a write to a gap can write. -/
def fill (buffer : FileRange → Nat) : List FileRange → Nat → Nat × Bool
  | [], mEnd => (mEnd, true)
  | gap :: rest, _ =>
    let count := min (buffer gap) gap.length
    if count < gap.length then (gap.mBegin + count, false)
    else fill buffer rest (gap.mBegin + count)

def setEnd (large : Bool) (d : Download) (mEnd : Nat) : FileContext :=
  c.setDownloads large ((c.downloads large).map fun x => if x = d then { x with mEnd := mEnd } else x)

/-- `DownloadContext::data(buffer, offset, length, speed)` of a download that has not been
    replaced. -/
def data (large : Bool) (d : Download) (offset length : Nat)
    (buffer : FileRange → Nat) : Option FileContext :=
  if offset ≥ d.range.mEnd then some c
  else
    let r : FileRange := .ofEnds offset (min (offset + length) d.range.mEnd)
    let filled := fill buffer (gaps c.mOnDisk r) offset
    if offset = filled.1 then
      -- no gap had to be filled, or nothing could be written to the first
      if filled.2 then some (c.setEnd large d r.mEnd) else some c
    else do
      let w : FileRange := if filled.2 then r else ⟨offset, filled.1⟩
      let (c, _) ← c.updateRanges w
      some ((c.setEnd large d w.mEnd).dispatch w)

/-! ## 4. Requests that change the file -/

/-- `execute(FileWriteRequest&)`, when `count` bytes can be written. -/
def write (r : FileRange) (count : Nat) : Option FileContext :=
  let length := min count r.length
  if length = 0 then some c
  else do
    let r : FileRange := { r with mEnd := r.mBegin + length }
    let (c, _) ← c.updateRanges r
    some (c.written r)

/-- `execute(FileAppendRequest&)`, when all data can be written. -/
def append (length : Nat) : Option FileContext := do
  let r : FileRange := .ofEnds c.size (u64 (c.size + length))
  let (c', _) ← c.updateRanges r
  some (c'.written { r with mBegin := c.size })

def grow (newSize oldSize : Nat) : Option FileContext :=
  (c.updateRanges (.ofEnds oldSize newSize)).map Prod.fst

def shrink (newSize oldSize : Nat) : Option FileContext := do
  let c ← c.cancel (.ofEnds oldSize newSize)
  match endsAfter c.mOnDisk newSize with
  -- no ranges end after the new size
  | [] => some c
  | b :: rest =>
    let r : FileRange := .ofEnds b.mBegin oldSize
    let c := { c with
      rows := removeRanges c.rows r
      persistedSize := newSize
      mOnDisk := remove c.mOnDisk (b :: rest) [] }
    if r.mBegin < newSize then do
      let r : FileRange := { r with mEnd := newSize }
      let rows ← addRange c.rows r
      let (mOnDisk, _) ← tryAdd id c.mOnDisk r
      some { c with rows := rows, mOnDisk := mOnDisk }
    else some c

/-- `execute(FileTruncateRequest&)`. -/
def truncate (newSize : Nat) : Option FileContext :=
  if newSize = c.size then some c
  else do
    let c' ← if newSize > c.size then c.grow newSize c.size else c.shrink newSize c.size
    some { c' with size := newSize }

/-- `execute(FileReclaimRequest&)`. -/
def reclaim : FileContext :=
  if c.mLarge ≠ [] ∨ c.mSmall ≠ [] then c
  else { c with
    rows := removeRanges c.rows (.ofEnds 0 c.size)
    mOnDisk := []
    persistedSize := c.size }

/-! ## 5. Reads -/

/-- `downloadBitrate()`; `bitrate` is the value of `mAverageLargeDownloadBitrate`. -/
def downloadBitrate (bitrate : Nat) : Nat := max 1 bitrate

/-- `DownloadContext::timeUntil(position)`. -/
def timeUntil (bitrate : Nat) (d : Download) (p : Nat) : Nat :=
  if d.mEnd > p then 0 else u64 ((p - d.mEnd + 1) * 8000) / downloadBitrate bitrate

def leftExtendOnDisk (p : Nat) : Nat :=
  match endsAtOrAfter c.mOnDisk p with
  | [] => p
  | r :: _ => if r.mBegin < p then r.mBegin else p

def onDisk (r : FileRange) : Bool :=
  match contains c.mOnDisk r.mBegin with
  | [] => false
  | x :: _ => decide (x.mEnd ≥ r.mEnd)

variable (opt : ServiceOptions)

/-- `isJump`: the large download that a jump replaces. -/
def isJump (c : FileContext) (bitrate : Nat) (q : FileReadRequest) : Option Download :=
  if ¬ q.mIsJumpCandidate then none
  else if q.mRange.length ≤ opt.mImmediateDownloadThreshold then none
  else match c.mLarge with
    | [] => none
    | d :: _ =>
      if c.onDisk q.mRange then none
      else
        let effectiveBegin := c.leftExtendOnDisk d.range.mBegin
        if q.mRange.mBegin < effectiveBegin then
          if effectiveBegin - q.mRange.mBegin ≤ opt.mImmediateDownloadThreshold then none
          else some d
        else if q.mRange.mBegin < d.range.mBegin then none
        else if timeUntil bitrate d q.mRange.mBegin ≤ opt.mJumpForwardDistance then none
        else some d

/-- `isSmallPrefix`: the range the request is cut down to. -/
def isSmallPrefix (c : FileContext) (r : FileRange) : Option FileRange :=
  match beginsAfter c.mLarge r.mBegin with
  | [] => none
  | d :: _ =>
    if r.mEnd ≤ d.range.mBegin then none
    else if d.range.mBegin - r.mBegin > opt.mImmediateDownloadThreshold then none
    else some { r with mEnd := d.range.mBegin }

/-- `DownloadContext::replaced(self)`. -/
def replace (c : FileContext) (d : Download) : FileContext :=
  { c with
    mLarge := c.mLarge.erase d
    replaced := .ofEnds d.mEnd d.range.mEnd :: c.replaced }

/-- If the request is a jump, the large download is replaced. -/
def jump (c : FileContext) (bitrate : Nat) (q : FileReadRequest) : FileContext :=
  match isJump opt c bitrate q with
  | none => c
  | some d => c.replace d

def queueRequest (c : FileContext) (q : FileReadRequest) : FileContext :=
  { c with mPendingReadRequests := q :: c.mPendingReadRequests }

/-- `addDownload`; `created` says whether the download can be created. -/
def addDownload (c : FileContext) (large : Bool) (r : FileRange) (created : Bool) :
    Option FileContext :=
  match tryAdd (fun x => ⟨x, x.mBegin⟩) (c.downloads large) r with
  | some (m, d, true) =>
    if created then some (c.setDownloads large m) else some ((c.setDownloads large m).completed large d)
  | _ => none

/-- Where a large download for a read at `p` begins. -/
def largeBegin (c : FileContext) (bitrate p : Nat) : Nat :=
  let backwardBytes := u64 (opt.mJumpBackwardDistance * downloadBitrate bitrate) / 8 / 1000
  let p := p - min backwardBytes p
  let p := p - p % 2 ^ opt.mJumpBackwardAlignment
  match endsAfter c.mOnDisk p with
  | [] => p
  | r :: _ => if r.mBegin ≤ p then r.mEnd else p

def readLarge (c : FileContext) (bitrate : Nat) (created : Bool) (q : FileReadRequest) :
    Option FileContext :=
  let c := if contains c.mOnDisk q.mRange.mBegin = [] then c.queueRequest q else c
  if c.mLarge ≠ [] then some c
  else
    let r : FileRange := ⟨largeBegin opt c bitrate q.mRange.mBegin, c.size⟩
    if r.mBegin ≠ r.mEnd then c.addDownload true r created else some c

def readSmall (c : FileContext) (bitrate : Nat) (created : Bool) (q : FileReadRequest) :
    Option FileContext :=
  if contains c.mOnDisk q.mRange.mBegin ≠ [] then some c
  else
    let c := c.queueRequest q
    if ∃ d ∈ (contains c.mLarge q.mRange.mBegin).head?, timeUntil bitrate d q.mRange.mBegin ≤ 1000
    then some c
    else
      let length := min (max opt.mMinimumRangeSize q.mRange.length) (c.size - q.mRange.mBegin)
      match gaps c.mSmall ⟨q.mRange.mBegin, q.mRange.mBegin + length⟩ with
      | [] => some c
      | gap :: _ => c.addDownload false gap created

/-- `execute(FileReadRequest&)`, up to the release of `mLock`. -/
def read (c : FileContext) (opt : ServiceOptions) (bitrate : Nat) (created : Bool)
    (q : FileReadRequest) : Option FileContext :=
  let q := { q with mRange := q.mRange.clamp 0 c.size }
  if q.mRange.empty then some c
  else
    let c := jump opt c bitrate q
    if q.mRange.length > opt.mImmediateDownloadThreshold then
      match isSmallPrefix opt c q.mRange with
      | none => readLarge opt c bitrate created q
      | some r => readSmall opt c bitrate created { q with mRange := r }
    else readSmall opt c bitrate created q

end FileContext

/-! ## 6. Steps -/

/-- What a thread does with a context while it has `mLock`. -/
inductive Op
  /-- A write from `b` to `e`, of which `count` bytes can be written. -/
  | write (b e count : Nat)
  | append (length : Nat)
  | truncate (newSize : Nat)
  | reclaim
  /-- `cancel(range)`, as when `execute(FileWriteRequest&)` returns. -/
  | cancel (b e : Nat)
  | read (opt : ServiceOptions) (bitrate : Nat) (created : Bool) (q : FileReadRequest)
  | data (large : Bool) (d : Download) (offset length : Nat) (buffer : FileRange → Nat)
  | completed (large : Bool) (d : Download)
  | completedReplaced (r : FileRange)

/-- The callbacks are those of downloads the context has. -/
def Op.Enabled (c : FileContext) : Op → Prop
  | .data large d _ _ _ => d ∈ c.downloads large
  | .completed large d => d ∈ c.downloads large
  | .completedReplaced r => r ∈ c.replaced
  | _ => True

def exec (c : FileContext) : Op → Option FileContext
  | .write b e count => c.write (.ofEnds b e) count
  | .append length => c.append length
  | .truncate newSize => c.truncate newSize
  | .reclaim => some c.reclaim
  | .cancel b e => c.cancel (.ofEnds b e)
  | .read opt bitrate created q => c.read opt bitrate created q
  | .data large d offset length buffer => c.data large d offset length buffer
  | .completed large d => some (c.completed large d)
  | .completedReplaced r => some (c.completedReplaced r)

def FileContext.ofSize (n : Nat) : FileContext := { size := n, persistedSize := n }

end MegaSdk.FileService
