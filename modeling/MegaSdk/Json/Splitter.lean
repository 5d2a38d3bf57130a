/-
  File:      MegaSdk/Json/Splitter.lean
  Subject:   `JSONSplitter` (json.h, json.cpp): the streaming JSON parser.

  `processChunk` walks a NUL-terminated buffer and calls filters on the elements that are complete.
  Reading past the end of the buffer reads NUL (`peek`), as does an embedded NUL byte. The buffer
  starts at the first byte the previous call did not consume; the parser keeps how far it had got
  after that (`mProcessedBytes`), the path and what it expects next.

  * `processChunk` -- one call: `stop` leaves the loop (end of buffer, an element that is not
    complete, or the end of the document), `failed` and `paused` return;
  * a callback is a function of the bytes of the element it is handed; whether a string callback
    pauses is up to its surroundings, and comes in as `pause`;
  * `log` records the callbacks made, with the filter and the bytes handed to it. The callbacks
    `<`, `>` (every call) and `E` (which is shown the rest of the buffer) are not in it.
-/
import Mathlib

namespace MegaSdk.Json

/-- A byte of the source's character literals. -/
def ch (c : Char) : UInt8 := UInt8.ofNat c.toNat

variable (buf : List UInt8)

def peek (i : Nat) : UInt8 := buf.getD i 0

def slice (a b : Nat) : List UInt8 := (buf.drop a).take (b - a)

/-- How many backslashes stand right before `ptr`. The backwards loop stops at the opening quote
    at the latest. -/
def backslashes (mPos ptr : Nat) : Nat :=
  ((slice buf mPos ptr).reverse.takeWhile fun b => b == ch '\\').length

/-- The loop of `strEnd` over the bytes from `ptr` on: `strchr` goes from quote to quote and ends at
    NUL, and a quote after an odd number of backslashes is not the end. -/
def strEndLoop (buf : List UInt8) (mPos : Nat) : List UInt8 → Nat → Option Nat
  | [], _ => none
  | b :: rest, ptr =>
    if b = 0 then none
    else if b = ch '"' ∧ (backslashes buf mPos ptr + 1) % 2 = 1 then some (ptr + 1 - mPos)
    else strEndLoop buf mPos rest (ptr + 1)

/-- `strEnd`: the length of the string at `mPos`, quotes included, when its end is in the buffer. -/
def strEnd (mPos : Nat) : Option Nat :=
  strEndLoop buf mPos (buf.drop (mPos + 1)) (mPos + 1)

def isNumChar (b : UInt8) : Bool :=
  (ch '0' ≤ b && b ≤ ch '9') || b == ch '-' || b == ch '+' || b == ch 'e' || b == ch 'E' || b == ch '.'

/-- `numEnd`: the length of the number at `mPos`. -/
def numEnd (mPos : Nat) : Nat := ((buf.drop mPos).takeWhile isNumChar).length

/-! ## 1. Filters -/

/-- `JSONSplitter::CallbackResult`, but for `PAUSED`: pausing is not a function of the element. -/
inductive CallbackResult
  | success
  | failed
  deriving DecidableEq

abbrev FilterCallback := List UInt8 → CallbackResult

/-- `JSONSplitter::FiltersChain`: maps from paths to callbacks. -/
abbrev FiltersChain := List (List UInt8 → Option FilterCallback)

def findCallback (filters : FiltersChain) (path : List UInt8) : Option FilterCallback :=
  filters.findSome? fun m => m path

/-! ## 2. The parser -/

/-- The members of `JSONSplitter`; `mPos` and `mLastPos` are indices into the current buffer, and
    the top of `mStack` is its head. -/
structure JSONSplitter where
  mPos : Nat := 0
  mLastPos : Nat := 0
  mLastName : List UInt8 := []
  mStack : List (List UInt8) := []
  mCurrentPath : List UInt8 := []
  mProcessedBytes : Nat := 0
  mExpectValue : Int := 1
  mStarting : Bool := true
  mFinished : Bool := false
  mFailed : Bool := false
  mPaused : Bool := false
  log : List (List UInt8 × List UInt8) := []
  deriving DecidableEq

inductive Next
  | go (s : JSONSplitter)
  | stop (s : JSONSplitter)
  | paused (s : JSONSplitter)
  | failed (s : JSONSplitter)
  deriving DecidableEq

def parseError (s : JSONSplitter) : Next := .failed { s with mFailed := true }

/-- Call the filter of a path, if there is one, on an element; `k` goes on with whether there
    was one. -/
def callFilter (filters : FiltersChain) (path element : List UInt8) (s : JSONSplitter)
    (k : JSONSplitter → Bool → Next) : Next :=
  match findCallback filters path with
  | none => k s false
  | some callback =>
    let s := { s with log := s.log ++ [(path, element)] }
    if callback element = .success then k s true else parseError s

section Round

variable (filters : FiltersChain) (buf : List UInt8)

/-- `[` or `{`. A filter for the path is handed everything from here on. -/
def openBracket (c : UInt8) (s : JSONSplitter) : Next :=
  if s.mExpectValue = 0 then parseError s
  else
    let path := s.mCurrentPath ++ (c :: s.mLastName)
    .go
      { s with
        mStack := (c :: s.mLastName) :: s.mStack
        mCurrentPath := path
        mLastPos := if (findCallback filters path).isSome then s.mPos else s.mLastPos
        mPos := s.mPos + 1
        mLastName := []
        mExpectValue := if c = ch '[' then 1 else 0 }

def errPattern : List UInt8 := [ch '{', ch '"', ch 'e', ch 'r', ch 'r', ch '"', ch ':']

def isErr (buf : List UInt8) : Bool := errPattern.isPrefixOf buf

/-- `]` or `}` that closes `top`: the filter, then the path goes up. -/
def closeBracket (c : UInt8) (s : JSONSplitter) : Next :=
  if s.mExpectValue < 0 then parseError s
  else
    match s.mStack with
    | [] => parseError s
    | top :: rest =>
      let opening := top.headD 0
      if (c = ch ']' ∧ opening ≠ ch '[') ∨ (c = ch '}' ∧ opening ≠ ch '{') then parseError s
      else
        let s := { s with mLastName := [], mPos := s.mPos + 1 }
        -- an error response is recognised by the start of the buffer
        let filter :=
          if s.mStack.length = 1 ∧ c = ch '}' ∧ s.mLastPos = 0 ∧ isErr buf = true then [ch '#']
          else s.mCurrentPath
        callFilter filters filter (slice buf s.mLastPos s.mPos) s fun s called =>
          let s :=
            { s with
              mLastPos := if called then s.mPos else s.mLastPos
              mCurrentPath := s.mCurrentPath.take (s.mCurrentPath.length - top.length)
              mStack := rest
              mExpectValue := 0 }
          if rest = [] then .stop { s with mLastPos := s.mPos, mFinished := true } else .go s

def comma (s : JSONSplitter) : Next :=
  if s.mExpectValue ≠ 0 then parseError s
  else
    let s :=
      { s with
        mLastPos := if s.mLastPos = s.mPos then s.mLastPos + 1 else s.mLastPos
        mPos := s.mPos + 1 }
    match s.mStack with
    | [] => parseError s
    | top :: _ => .go { s with mExpectValue := if top.headD 0 = ch '[' then 1 else 0 }

/-- A string that is a value: its filter may pause, and is then called again later. -/
def stringValue (pause : Nat → Bool) (t : Nat) (s : JSONSplitter) : Next :=
  let filter := s.mCurrentPath ++ (ch '"' :: s.mLastName)
  if (findCallback filters filter).isSome ∧ pause s.mPos = true then .paused s
  else
    callFilter filters filter (slice buf s.mPos (s.mPos + t)) s fun s called =>
      .go
        { s with
          mLastPos := if called then s.mPos + t else s.mLastPos
          mPos := s.mPos + t
          mExpectValue := 0
          mLastName := [] }

/-- A string that is a property name; one more character is needed to know. -/
def propertyName (t : Nat) (s : JSONSplitter) : Next :=
  if peek buf (s.mPos + t) = 0 then .stop s
  else if peek buf (s.mPos + t) ≠ ch ':' then parseError s
  else
    .go
      { s with
        mLastName := slice buf (s.mPos + 1) (s.mPos + t - 1)
        mPos := s.mPos + t + 1
        mExpectValue := -1 }

/-- A number. Outside of any object or array it is an error code, and ends the document. -/
def number (s : JSONSplitter) : Next :=
  if s.mExpectValue = 0 then parseError s
  else
    let j := numEnd buf s.mPos
    if j = 0 ∨ peek buf (s.mPos + j) = 0 then .stop s
    else
      let s := { s with mPos := s.mPos + j, mExpectValue := 0 }
      if s.mStack = [] then
        if s.mLastPos + j = s.mPos then
          callFilter filters [ch '#'] (slice buf s.mLastPos s.mPos) s fun s _ =>
            .stop { s with mLastPos := s.mPos, mFinished := true }
        else .stop { s with mLastPos := s.mPos, mFinished := true }
      else .go s

/-- One round of the loop of `processChunk`. -/
def step (pause : Nat → Bool) (s : JSONSplitter) : Next :=
  let c := peek buf s.mPos
  if c = 0 then .stop s
  else if c = ch '[' ∨ c = ch '{' then openBracket filters c s
  else if c = ch ']' ∨ c = ch '}' then closeBracket filters buf c s
  else if c = ch ',' then comma s
  else if c = ch '"' then
    match strEnd buf s.mPos with
    | none => .stop s
    | some t =>
      if s.mExpectValue ≠ 0 then stringValue filters buf pause t s else propertyName buf t s
  else if (ch '0' ≤ c ∧ c ≤ ch '9') ∨ c = ch '.' ∨ c = ch '-' then number filters buf s
  else if c = ch ' ' then .go { s with mPos := s.mPos + 1 }
  else parseError s

/-- The loop of `processChunk`. Every round that goes on moves `mPos`, so the buffer's length
    bounds the rounds. -/
def loop (pause : Nat → Bool) : Nat → JSONSplitter → Next
  | 0, s => .go s
  | n + 1, s =>
    match step filters buf pause s with
    | .go s' => loop pause n s'
    | r => r

def start (s : JSONSplitter) : Next :=
  if s.mStarting then
    callFilter filters [] [] s fun s _ => .go { s with mStarting := false }
  else .go s

/-- The end of `processChunk`: the parser, and how many bytes were consumed. -/
def leave : Next → JSONSplitter × Nat
  | .failed s => (s, 0)
  | .paused s => ({ s with mProcessedBytes := s.mPos - s.mLastPos, mPaused := true }, s.mLastPos)
  | .stop s | .go s => ({ s with mProcessedBytes := s.mPos - s.mLastPos }, s.mLastPos)

def processChunk (pause : Nat → Bool) (s : JSONSplitter) : JSONSplitter × Nat :=
  if s.mFailed || s.mFinished then (s, 0)
  else
    let s :=
      { s with mPaused := false, mPos := s.mProcessedBytes, mLastPos := 0, mProcessedBytes := 0 }
    match start filters s with
    | .go s => leave (loop filters buf pause (buf.length + 1) s)
    | .stop s | .paused s | .failed s => (s, 0)

end Round

/-! ## 3. Delivery -/

/-- A parser with the bytes its caller keeps for it, and how many it has dropped. -/
structure Stream where
  splitter : JSONSplitter := {}
  buf : List UInt8 := []
  dropped : Nat := 0

/-- One call: the new bytes are appended, and what was consumed is dropped. The second component
    says which string callbacks pause, by their place in the buffer. -/
def deliver (filters : FiltersChain) (s : Stream) (chunk : List UInt8 × (Nat → Bool)) : Stream :=
  let buf := s.buf ++ chunk.1
  let r := processChunk filters buf chunk.2 s.splitter
  { splitter := r.1, buf := buf.drop r.2, dropped := s.dropped + r.2 }

def JSONSplitter.result (s : JSONSplitter) :
    List (List UInt8 × List UInt8) × Bool × Bool := (s.log, s.mFinished, s.mFailed)

def oneChunk (filters : FiltersChain) (text : List UInt8) : JSONSplitter :=
  (deliver filters {} (text, fun _ => false)).splitter

end MegaSdk.Json
