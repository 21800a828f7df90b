import Uring.Core.Run
import Uring.Read.Geometry

/-!
# The ordered prefetch reader

A reader keeps a window of consecutive ranges, each requested once from its source, and
returns their results in order. A poll of the reader is one step; its label answers, for
every range, what a poll of that range's future returns at that moment. Operations that
panic in the source return `none`. History fields record the calls of the source, the polls
of its futures and the returned values; no transition reads them.
-/

namespace Uring.Prefetch

/-- `MAX_WINDOW`. -/
def maxWindow : Nat := 64

/-- `MAX_CHUNK`. -/
def maxChunk : Nat := 8 * 1024 * 1024

/-- `Config`. -/
structure Config where
  offset : Nat
  length : Nat
  chunk : Nat
  window : Nat
  maxBytes : Nat
  deriving DecidableEq, Repr

/-- `Config::validate`: the end of the range. -/
def Config.validate (c : Config) : Except IoError Nat :=
  if c.chunk = 0 ∨ maxChunk < c.chunk ∨ c.window = 0 ∨ maxWindow < c.window then
    .error (.invalidInput "chunk must be 1..=8 MiB and window 1..=64")
  else if c.maxBytes < c.chunk ∨ maxWindow * maxChunk < c.maxBytes then
    .error (.invalidInput "max_bytes must be at least chunk and at most 512 MiB")
  else
    match (checkedAdd u64Max c.offset c.length).filter fun last => decide (last ≤ i64Max) with
    | some last => .ok last
    | none => .error (.invalidInput "range end must fit signed file offsets")

/-- `Chunk`. -/
structure Chunk where
  offset : Nat
  bytes : List UInt8
  deriving DecidableEq, Repr

/-- `State` of a slot: its future is pending, or its result is kept. -/
inductive State
  | pending
  | ready (result : IoResult)
  deriving DecidableEq, Repr

/-- `Slot`. The future is the one that the source returned for its range. -/
structure Slot where
  offset : Nat
  len : Nat
  state : State
  deriving DecidableEq, Repr

/-- What a poll of the reader returns once it is ready. -/
abbrev Output := Except IoError (Option Chunk)

/-- One poll of a future: its range and whether it returned `Ready`. -/
structure Polled where
  offset : Nat
  len : Nat
  ready : Bool
  deriving DecidableEq, Repr

/-- What has happened so far. -/
structure History where
  /-- Ranges requested from the source, in order. -/
  calls : List (Nat × Nat)
  /-- Polls of the source's futures, in order. -/
  polls : List Polled
  /-- Values returned by ready polls of the reader, in order. -/
  returned : List Output

/-- `OrderedReader`; `rangeEnd` is its field `end`. -/
structure OrderedReader where
  config : Config
  rangeEnd : Nat
  nextOffset : Nat
  reserved : Nat
  slots : List Slot
  stopScheduling : Bool
  finished : Bool
  hist : History

/-- What a poll of the future of a range returns at one moment; `none` is `Pending`. -/
abbrev Poll := Nat → Nat → Option IoResult

namespace OrderedReader

/-- `OrderedReader::new`. -/
def new (c : Config) : Except IoError OrderedReader := do
  let last ← c.validate
  return {
    config := c
    rangeEnd := last
    nextOffset := c.offset
    reserved := 0
    slots := []
    stopScheduling := false
    finished := false
    hist := ⟨[], [], []⟩ }

/-- The body of the loop of `fill_window`: request the next `len` bytes. -/
def request (r : OrderedReader) (len : Nat) : OrderedReader :=
  { r with
    slots := r.slots ++ [⟨r.nextOffset, len, .pending⟩]
    reserved := r.reserved + len
    nextOffset := r.nextOffset + len
    hist := { r.hist with calls := r.hist.calls ++ [(r.nextOffset, len)] } }

/-- The condition of the loop of `fill_window`. -/
def wantsMore (r : OrderedReader) : Bool :=
  !r.stopScheduling && decide (r.nextOffset < r.rangeEnd) &&
    decide (r.slots.length < r.config.window)

/-- The length of the next range. -/
def nextLen (r : OrderedReader) : Nat := min (r.rangeEnd - r.nextOffset) r.config.chunk

/-- The loop of `fill_window`; each iteration adds a slot, so `fuel` free slots suffice. -/
def fillLoop : Nat → OrderedReader → Option OrderedReader
  | 0, r => some r
  | fuel + 1, r =>
    if r.wantsMore then
      if r.config.maxBytes < r.reserved then none
      else if r.config.maxBytes - r.reserved < r.nextLen then some r
      else fillLoop fuel (r.request r.nextLen)
    else some r

/-- `fill_window`. -/
def fillWindow (r : OrderedReader) : Option OrderedReader := fillLoop r.config.window r

end OrderedReader

/-- A result longer than its range is replaced by an error. -/
def checkLength (len : Nat) (result : IoResult) : IoResult :=
  match result with
  | .ok bytes =>
    if len < bytes.length then
      .error (.invalidData "source returned more bytes than requested")
    else result
  | .error _ => result

/-- `Ok` of the full length. -/
def isFull (len : Nat) : IoResult → Bool
  | .ok bytes => decide (bytes.length = len)
  | .error _ => false

/-- A kept result that is not `Ok` of the full length. -/
def Slot.isTerminal (s : Slot) : Bool :=
  match s.state with
  | .pending => false
  | .ready result => !isFull s.len result

/-- Poll the future of a slot, if it is pending: the slot afterwards, and the poll made. -/
def Slot.poll (p : Poll) (s : Slot) : Slot × List Polled :=
  match s.state with
  | .ready _ => (s, [])
  | .pending =>
    match p s.offset s.len with
    | none => (s, [⟨s.offset, s.len, false⟩])
    | some result =>
      ({ s with state := .ready (checkLength s.len result) }, [⟨s.offset, s.len, true⟩])

/-- The loop over the slots: the slots afterwards, the terminal index found, and the polls
made. The loop breaks at a terminal slot. -/
def pollSlots (p : Poll) : List Slot → List Slot × Option Nat × List Polled
  | [] => ([], none, [])
  | s :: rest =>
    let (s, polled) := s.poll p
    if s.isTerminal then (s :: rest, some 0, polled)
    else
      let (rest, terminal, polls) := pollSlots p rest
      (s :: rest, terminal.map (· + 1), polled ++ polls)

/-- `pop_back` of some slots, the last one first, each giving back its reservation. -/
def releaseBack : List Slot → Nat → Option Nat
  | [], reserved => some reserved
  | s :: rest, reserved => do
    let reserved ← releaseBack rest reserved
    if reserved < s.len then none else some (reserved - s.len)

namespace OrderedReader

/-- Stop scheduling and drop the slots behind the terminal one. -/
def truncate (r : OrderedReader) (index : Nat) : Option OrderedReader := do
  let reserved ← releaseBack (r.slots.drop (index + 1)) r.reserved
  return { r with
    stopScheduling := true
    slots := r.slots.take (index + 1)
    reserved := reserved }

/-- The loop over the slots and what follows from a terminal index. -/
def pollWindow (r : OrderedReader) (p : Poll) : Option OrderedReader :=
  let (slots, terminal, polls) := pollSlots p r.slots
  let r := { r with slots := slots, hist := { r.hist with polls := r.hist.polls ++ polls } }
  match terminal with
  | none => some r
  | some index => r.truncate index

/-- Return a value from a poll of the reader. -/
def emit (r : OrderedReader) (out : Output) : OrderedReader :=
  { r with hist := { r.hist with returned := r.hist.returned ++ [out] } }

/-- The end of `poll_next`: look at the front slot and deliver it when it is ready. -/
def deliverFront (r : OrderedReader) : Option OrderedReader :=
  match r.slots with
  | [] => some ({ r with finished := true }.emit (.ok none))
  | s :: rest =>
    match s.state with
    | .pending => some r
    | .ready result =>
      if r.reserved < s.len then none
      else
        let r := { r with slots := rest, reserved := r.reserved - s.len }
        match result with
        | .ok bytes =>
          let r := if bytes.length < s.len then { r with finished := true } else r
          some (r.emit (.ok (if bytes = [] then none else some ⟨s.offset, bytes⟩)))
        | .error e => some ({ r with finished := true }.emit (.error e))

/-- `poll_next`: it returned `Pending` when `returned` is unchanged. -/
def pollNext (r : OrderedReader) (p : Poll) : Option OrderedReader :=
  if r.finished then some (r.emit (.ok none))
  else do
    let r ← r.fillWindow
    let r ← r.pollWindow p
    r.deliverFront

end OrderedReader

end Uring.Prefetch
