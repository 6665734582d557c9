import PedraDb.Wal.Format

/-! The log writer.

Framing knows only the offset inside the current block. Placing is by ticket: every write,
under the log's lock or off it, owns the span it reserved at `reservedTo`, and `position`
is the end of what has been written without a gap. Spans written past a gap wait in
`completed`. Offsets do not wrap. Whether the sink takes a write is the caller's to say. -/
namespace PedraDb.Wal

/-- A positional write; what lies between the end of the file and the offset reads as
zero. -/
def writeAt (file : Bytes) (at' : Nat) (buf : Bytes) : Bytes :=
  file.take at' ++ List.replicate (at' - file.length) 0 ++ buf ++ file.drop (at' + buf.length)

def setLen (file : Bytes) (len : Nat) : Bytes := file.take len ++ List.replicate (len - file.length) 0

/-- What the sink does with a write: all of it, or an error after some of the bytes. -/
inductive Sink where
  | ok
  | torn (n : Nat)
  deriving DecidableEq

def Sink.isOk : Sink → Bool
  | .ok => true
  | .torn _ => false

def Sink.emit (file : Bytes) (at' : Nat) (buf : Bytes) : Sink → Bytes
  | .ok => writeAt file at' buf
  | .torn n => writeAt file at' (buf.take n)

/-! ### Framing -/

def fragmentType (begin' fin : Bool) : RecordType :=
  if begin' && fin then .full else if begin' then .first else if fin then .last else .middle

/-- A physical record with the zeros in front of it. -/
structure Fragment where
  pad : Nat
  t : RecordType
  payload : Bytes
  deriving DecidableEq

def Fragment.bytes (crc : Crc) (f : Fragment) : Bytes :=
  List.replicate f.pad 0 ++ physicalRecord crc f.t f.payload

/-- The fragments of a logical record from an offset inside a block, and the offset after
them. A turn makes one fragment, so one turn more than there are bytes is enough: only the
first can be empty. -/
def fragmentLoop : Nat → Nat → Bool → Bytes → List Fragment × Nat
  | 0, blockOffset, _, _ => ([], blockOffset)
  | n + 1, blockOffset, begin', data =>
    let leftover := blockSize - blockOffset
    -- no room for a header: pad to the end and go on in a fresh block
    let pad := if leftover < headerSize then leftover else 0
    let blockOffset := if leftover < headerSize then 0 else blockOffset
    let avail := blockSize - blockOffset - headerSize
    let payload := data.take avail
    let rest := data.drop avail
    let fragment := ⟨pad, fragmentType begin' rest.isEmpty, payload⟩
    let blockOffset := blockOffset + headerSize + payload.length
    if rest.isEmpty then ([fragment], blockOffset)
    else
      let (more, blockOffset) := fragmentLoop n blockOffset false rest
      (fragment :: more, blockOffset)

def fragmentFrom (blockOffset : Nat) (data : Bytes) : List Fragment × Nat :=
  fragmentLoop (data.length + 1) blockOffset true data

/-- Several records, one after the other. -/
def fragmentAll : Nat → List Bytes → List Fragment × Nat
  | blockOffset, [] => ([], blockOffset)
  | blockOffset, data :: rest =>
    let (fragments, blockOffset) := fragmentFrom blockOffset data
    let (more, blockOffset) := fragmentAll blockOffset rest
    (fragments ++ more, blockOffset)

def frameBytes (crc : Crc) (fragments : List Fragment) : Bytes := fragments.flatMap (Fragment.bytes crc)

/-- The padding in front of a record framed before its place was known, and the offset
after it; refused if the record does not fit the block. -/
def takePreframedLayout (blockOffset recLen : Nat) : Option (Nat × Nat) :=
  if recLen = 0 ∨ blockSize < recLen then none
  else
    let leftover := blockSize - blockOffset
    let pad := if leftover < headerSize then leftover else 0
    let room := if leftover < headerSize then blockSize else leftover
    if room < recLen then none
    else some (pad, (if leftover < headerSize then 0 else blockOffset) + recLen)

/-! ### Tickets -/

/-- A frame with its reserved place, to be written without the lock. -/
structure PwriteJob where
  ticket : Nat
  buf : Bytes
  deriving DecidableEq

def PwriteJob.stop (j : PwriteJob) : Nat := j.ticket + j.buf.length

/-- Frames kept in memory for one write; their span is reserved. -/
structure StagedBuf where
  start : Nat
  buf : Bytes
  max : Nat
  deriving DecidableEq

structure Writer where
  blockOffset : Nat
  position : Nat
  /-- The frame being built. -/
  frame : Bytes
  staged : Option StagedBuf
  reservedTo : Nat
  /-- Spans written past a gap, by ticket, with their ends. -/
  completed : List (Nat × Nat)
  file : Bytes
  deriving DecidableEq

namespace Writer

/-- A writer on a new file; with a limit of zero nothing is staged. -/
def create (stagedMax : Nat) : Writer :=
  ⟨0, 0, [], if 0 < stagedMax then some ⟨0, [], stagedMax⟩ else none, 0, [], []⟩

/-- The ticket of `len` bytes at the frontier. -/
def reservePending (w : Writer) (len : Nat) : Nat × Writer :=
  (w.reservedTo, { w with reservedTo := w.reservedTo + len })

/-- Move the end of the written part over the spans that start there. Each turn takes one
out of the map. -/
def advance : Nat → Nat → List (Nat × Nat) → Nat × List (Nat × Nat)
  | 0, position, completed => (position, completed)
  | n + 1, position, completed =>
    match completed.find? (·.1 == position) with
    | none => (position, completed)
    | some (_, stop) => advance n stop (completed.filter (·.1 != position))

section
variable (w : Writer)

def commitPwrite (ticket len : Nat) : Writer :=
  if len = 0 then w
  else
    let stop := ticket + len
    let position := if ticket ≤ w.position then max w.position stop else w.position
    let completed :=
      if ticket ≤ w.position then w.completed
      else w.completed.filter (·.1 != ticket) ++ [(ticket, stop)]
    let (position, completed) := advance completed.length position completed
    { w with position := position, completed := completed }

/-- Hand the staged bytes to the sink; if it fails they stay. -/
def drainStaged (sink : Sink) : Bool × Writer :=
  match w.staged with
  | none => (true, w)
  | some st =>
    if st.buf = [] then (true, w)
    else
      let w' := { w with file := sink.emit w.file st.start st.buf }
      if sink.isOk then
        (true, { w' with staged := some { st with buf := [] } }.commitPwrite st.start st.buf.length)
      else (false, w')

/-- Write a frame under the lock, in a span of its own. -/
def writeOwned (buf : Bytes) (sink : Sink) : Bool × Writer :=
  if buf = [] then (true, w)
  else
    let (ticket, w') := w.reservePending buf.length
    let w' := { w' with file := sink.emit w.file ticket buf }
    if sink.isOk then (true, w'.commitPwrite ticket buf.length) else (false, w')

/-- Stage a frame, draining at the limit; without staging, write it. -/
def writeFrame (buf : Bytes) (sink : Sink) : Bool × Writer :=
  if buf = [] then (true, w)
  else match w.staged with
    | none => w.writeOwned buf sink
    | some st =>
      let (ticket, w') := w.reservePending buf.length
      let st := { st with start := if st.buf = [] then ticket else st.start, buf := st.buf ++ buf }
      let w' := { w' with staged := some st }
      if st.max = 0 ∨ st.max ≤ st.buf.length then w'.drainStaged sink else (true, w')

/-- Write the pending frame; it is gone even if that fails. -/
def writePendingFrame (sink : Sink) : Bool × Writer := { w with frame := [] }.writeFrame w.frame sink

/-- Write what is pending and staged, then sync the file. -/
def syncData (stage drain : Sink) (sync : Bool) : Bool × Writer :=
  match w.writePendingFrame stage with
  | (false, w) => (false, w)
  | (true, w) =>
    match w.drainStaged drain with
    | (false, w) => (false, w)
    | (true, w) => (sync, w)

/-- Cut the file and start again from `offset`. -/
def discardUncommitted (offset : Nat) : Writer :=
  { w with
    staged := w.staged.map fun st => { st with buf := [], start := offset }
    completed := w.completed.filter fun c => decide (c.1 < offset)
    position := offset
    reservedTo := offset
    blockOffset := offset % blockSize
    file := setLen w.file offset }

end

/-- Frame records into the pending frame. -/
def encodeBatches (crc : Crc) (w : Writer) (datas : List Bytes) : Writer :=
  let (fragments, blockOffset) := fragmentAll w.blockOffset datas
  { w with frame := w.frame ++ frameBytes crc fragments, blockOffset := blockOffset }

/-- Take the pending frame as a job; an empty one is no job. -/
def takePwriteJob (w : Writer) : Option PwriteJob × Writer :=
  if w.frame = [] then (none, w)
  else
    let (ticket, w') := w.reservePending w.frame.length
    (some ⟨ticket, w.frame⟩, { w' with frame := [] })

/-- Ticket a record that was framed without the lock. -/
def takePreframedPwriteJob (w : Writer) (frame : Bytes) : Option (PwriteJob × Writer) :=
  match takePreframedLayout w.blockOffset frame.length with
  | none => none
  | some (pad, blockOffset) =>
    let buf := List.replicate pad 0 ++ frame
    let (ticket, w') := w.reservePending buf.length
    some (⟨ticket, buf⟩, { w' with blockOffset := blockOffset })

end Writer
end PedraDb.Wal
