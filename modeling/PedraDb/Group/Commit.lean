import PedraDb.Batch

/-! Group commit: many client batches, one WAL frame, one barrier.

A group is prepared (sequences assigned, large values spilled to the value log),
its value log is flushed, and its records are encoded into the WAL's pending
frame. More members may be absorbed before the frame is written; the memtable is
touched only after the frame is in the log. The results of a group are a list
indexed by the order in which its members were handed to `groupStart` and
`groupAbsorb`.

Every fallible call of the source is an argument here: the admission check, the
spill of each value, the value-log flush and the encode of each wave (`WaveIo`),
and the write and the barrier of the frame (`FrameIo`). The model keeps the log
at the granularity of records; the bytes of a frame are the writer's business. -/
namespace PedraDb.Group

/-- The log, record by record. `frame` is encoded and not yet handed on, `staged`
is in the writer's user-space buffer, `file` is in the file, and the first
`synced` records of the file are under the last barrier. -/
structure Wal where
  /-- The sink takes positional writes, so a frame is written as an off-lock job. -/
  positional : Bool
  /-- The writer buffers sequential frames up to a cap. -/
  staging : Bool
  frame : List (List WriteOp)
  staged : List (List WriteOp)
  file : List (List WriteOp)
  synced : Nat
  deriving DecidableEq

/-- The records a close or a crash and a reopen may bring back: the file, what the
writer still holds for it, and the frame a close would write. -/
def Wal.recoverable (w : Wal) : List (List WriteOp) := w.file ++ w.staged ++ w.frame

def Wal.written (w : Wal) : List (List WriteOp) := w.file ++ w.staged

def Wal.durable (w : Wal) : List (List WriteOp) := w.file.take w.synced

/-- What the environment answers to the writes of one frame. -/
structure FrameIo where
  /-- The sink writes succeed. -/
  write : Bool
  /-- The staging buffer is at its cap after this frame. -/
  cap : Bool
  /-- The barrier succeeds. -/
  sync : Bool
  deriving DecidableEq

def writeFailed : CoreError := .io "write"
def syncFailed : CoreError := .io "fdatasync"

/-- Append one record per batch to the pending frame. -/
def Wal.encodeWriteOpBatches (w : Wal) (batches : List (List WriteOp)) : Wal :=
  { w with frame := w.frame ++ batches }

/-- Hand the staged records to the sink. A failed drain keeps them. -/
def Wal.drainStaged (w : Wal) (write : Bool) : Wal × Option CoreError :=
  if w.staged = [] then (w, none)
  else if write then ({ w with file := w.file ++ w.staged, staged := [] }, none)
  else (w, some writeFailed)

/-- Write the pending frame sequentially: into the staging buffer, which is drained
at its cap, or straight to the sink. The frame is gone either way. -/
def Wal.writePendingFrame (w : Wal) (io : FrameIo) : Wal × Option CoreError :=
  if w.frame = [] then (w, none)
  else if w.staging then
    let w := { w with staged := w.staged ++ w.frame, frame := [] }
    if io.cap then w.drainStaged io.write else (w, none)
  else if io.write then ({ w with file := w.file ++ w.frame, frame := [] }, none)
  else ({ w with frame := [] }, some writeFailed)

/-- Pull the pending frame as an off-lock job; `none` leaves it to
`writePendingFrame`. -/
def Wal.takePwriteJob (w : Wal) : Option (List (List WriteOp)) × Wal :=
  if w.positional && !w.frame.isEmpty then (some w.frame, { w with frame := [] })
  else (none, w)

/-- Write what is pending, drain the staging buffer, then the barrier. -/
def Wal.syncData (w : Wal) (io : FrameIo) : Wal × Option CoreError :=
  match w.writePendingFrame io with
  | (w, some e) => (w, some e)
  | (w, none) =>
    match w.drainStaged io.write with
    | (w, some e) => (w, some e)
    | (w, none) =>
      if io.sync then ({ w with synced := w.file.length }, none) else (w, some syncFailed)

/-- The part of the store a group commit reads and writes. -/
structure Db where
  nextSeq : Nat
  publishedSeq : Nat
  durabilityFenced : Bool
  /-- Encoded operations whose memtable apply has not happened yet. -/
  unapplied : List WriteOp
  /-- The operations applied to the live memtable, oldest first. -/
  mem : List WriteOp
  wal : Wal
  deriving DecidableEq

def Db.lastSequence (db : Db) : Nat := db.nextSeq - 1

/-- Take the next sequence. Once the space is used up the counter is put back. -/
def allocSeq (next : Nat) : Result (Nat × Nat) :=
  if seqExhausted next maxAssignableSequenceNumber then .error sequenceSpaceExhausted
  else .ok (next, next + 1)

/-- The loop of `prepare_write_ops`: the records and the counter after them. `spill j`
is the outcome of spilling the value of the batch's `j`-th operation. -/
def assign (spill : Nat → Value → Result Value) :
    Nat → Nat → List BatchOp → Result (List WriteOp × Nat)
  | _, next, [] => .ok ([], next)
  | j, next, op :: rest =>
    match allocSeq next with
    | .error e => .error e
    | .ok (seq, next) =>
      match record (spill j) seq op with
      | .error e => .error e
      | .ok r =>
        match assign spill (j + 1) next rest with
        | .error e => .error e
        | .ok (records, next) => .ok (r :: records, next)

def lastOf (records : List WriteOp) : Nat := (records.map WriteOp.sequence).getLastD 0

/-- Assign sequences and spill large values for a batch. On error the counter is
restored, so the store is as it was. -/
def prepareWriteOps (db : Db) (spill : Nat → Value → Result Value) (ops : List BatchOp) :
    Result (Db × List WriteOp) :=
  if db.durabilityFenced then .error .durabilityFenced
  else match assign spill 0 db.nextSeq ops with
    | .error e => .error e
    | .ok (records, next) => .ok ({ db with nextSeq := next }, records)

/-! ### A group in flight -/

/-- A member of a group by its place among the results: its records and the
sequence it is acknowledged with. -/
structure Slot where
  index : Nat
  ops : List WriteOp
  lastSeq : Nat
  deriving DecidableEq

/-- The answers of a group, by place; `none` until a member is answered. -/
abbrev Results := List (Option (Result Nat))

structure GroupInFlight where
  results : Results
  /-- Sequenced, not yet encoded. -/
  pending : List Slot
  /-- Encoded into the WAL frame. -/
  appended : List Slot
  anySync : Bool
  nextI : Nat
  failed : Bool

/-- What the environment answers while one wave of members is started or absorbed. -/
structure WaveIo where
  /-- The admission check refuses the wave with this error. -/
  refusal : Option CoreError
  /-- The spill of the `j`-th operation of the wave's `off`-th member. -/
  spill : Nat → Nat → Value → Result Value
  /-- The value-log flush fails with this error. -/
  vlog : Option CoreError
  /-- The WAL encode fails with this error. -/
  encode : Option CoreError

/-- Everything succeeds and no value is large. -/
def WaveIo.clean : WaveIo := ⟨none, fun _ _ v => .ok v, none, none⟩

/-- A batch with its sync flag, as it is handed to the group. -/
abbrev Input := List BatchOp × Bool

def answerAll (f : Slot → Result Nat) : List Slot → Results → Results
  | [], rs => rs
  | s :: rest, rs => answerAll f rest (rs.set s.index (some (f s)))

/-- Answer every listed member that has no answer yet. -/
def answerMissing (r : Result Nat) : List Slot → Results → Results
  | [], rs => rs
  | s :: rest, rs =>
    answerMissing r rest (if rs.getD s.index none = none then rs.set s.index (some r) else rs)

namespace GroupInFlight

def empty (n : Nat) : GroupInFlight := ⟨List.replicate n none, [], [], false, n, false⟩

section
variable (g : GroupInFlight)

def answer (i : Nat) (r : Result Nat) : GroupInFlight := { g with results := g.results.set i (some r) }

def grow (n : Nat) : GroupInFlight :=
  { g with
    nextI := g.nextI + n
    results := g.results ++ List.replicate (g.nextI + n - g.results.length) none }

/-- Answer every pending member with the same error and drop it. -/
def failPending (e : CoreError) : GroupInFlight :=
  { g with
    results := answerAll (fun _ => .error e) g.pending g.results
    pending := []
    failed := true }

def needsSync : Bool := g.anySync && !g.failed && !g.appended.isEmpty

/-- The sequence the group publishes: the largest of its encoded members. -/
def maxAppendedSeq : Nat :=
  g.appended.foldl (fun best s => if best < s.lastSeq then s.lastSeq else best) 0

end

end GroupInFlight

def missingResult : CoreError := .internal "group commit missing result"
def groupAppendFailed : CoreError := .internal "group wal append failed"
def groupAppendError (e : CoreError) : CoreError := .internal ("group wal append failed: " ++ e.text)
def vlogFlushError (e : CoreError) : CoreError := .internal ("vlog flush failed: " ++ e.text)
def groupIoError (e : CoreError) : CoreError := .internal ("group wal write/sync failed: " ++ e.text)

def finishGroupResults (results : Results) : List (Result Nat) :=
  results.map fun r => r.getD (.error missingResult)

/-- Prepare one member. An empty batch is answered at once; a batch that cannot be
prepared is answered with its error. -/
def prepareMember (db : Db) (g : GroupInFlight) (spill : Nat → Value → Result Value) (i : Nat)
    (input : Input) : Db × GroupInFlight :=
  if input.1 = [] then (db, g.answer i (.ok db.lastSequence))
  else match prepareWriteOps db spill input.1 with
    | .error e => (db, g.answer i (.error e))
    | .ok (db, records) =>
      (db, { g with
        anySync := g.anySync || input.2
        pending := g.pending ++ [⟨i, records, lastOf records⟩] })

/-- Prepare a wave whose first member has place `base`; `off` counts the members
done. -/
def groupPrepare (spill : Nat → Nat → Value → Result Value) (base : Nat) :
    Nat → Db → GroupInFlight → List Input → Db × GroupInFlight
  | _, db, g, [] => (db, g)
  | off, db, g, input :: rest =>
    let (db, g) := prepareMember db g (spill off) (base + off) input
    groupPrepare spill base (off + 1) db g rest

/-- Encode the pending members into the WAL frame. -/
def groupAppendOps (db : Db) (g : GroupInFlight) (io : WaveIo) : Db × GroupInFlight :=
  if g.failed || g.pending.isEmpty then (db, g)
  else if db.durabilityFenced then
    (db, g.failPending (groupAppendError .durabilityFenced))
  else match io.encode with
    | some e => (db, g.failPending (groupAppendError e))
    | none =>
      ({ db with wal := db.wal.encodeWriteOpBatches (g.pending.map Slot.ops) },
        { g with appended := g.appended ++ g.pending, pending := [] })

/-- Start a group: admit, prepare, flush the value log, encode. A refused admission
or a failed flush answers every member. -/
def groupStart (db : Db) (inputs : List Input) (io : WaveIo) :
    Db × Except (List (Result Nat)) GroupInFlight :=
  let n := inputs.length
  let g := GroupInFlight.empty n
  if inputs = [] then (db, .ok g)
  else match io.refusal with
    | some e => (db, .error (List.replicate n (.error e)))
    | none =>
      let (db, g) := groupPrepare io.spill 0 0 db g inputs
      match io.vlog with
      | some e => (db, .error (List.replicate n (.error (vlogFlushError e))))
      | none =>
        let (db, g) := groupAppendOps db g io
        (db, .ok g)

/-- Take in members that queued after the start. A group that has failed takes
nothing in. -/
def groupAbsorb (db : Db) (g : GroupInFlight) (inputs : List Input) (io : WaveIo) : Db × GroupInFlight :=
  if g.failed || inputs.isEmpty then (db, g)
  else
    let (db, g) := groupPrepare io.spill g.nextI 0 db (g.grow inputs.length) inputs
    match io.vlog with
    | some e => (db, g.failPending (vlogFlushError e))
    | none => groupAppendOps db g io

def stageUnapplied (db : Db) (g : GroupInFlight) : Db :=
  { db with unapplied := db.unapplied ++ g.appended.flatMap Slot.ops }

def unstageUnapplied (db : Db) (g : GroupInFlight) : Db :=
  let seqs := (g.appended.flatMap Slot.ops).map WriteOp.sequence
  { db with unapplied := db.unapplied.filter fun u => !seqs.contains u.sequence }

/-- Apply the encoded members to the memtable and answer them. A failed group
applies nothing. -/
def groupApply (db : Db) (g : GroupInFlight) : Db × List (Result Nat) :=
  let db := unstageUnapplied db g
  if g.failed then
    (db, finishGroupResults (answerMissing (.error groupAppendFailed) g.appended g.results))
  else
    ({ db with mem := db.mem ++ g.appended.flatMap Slot.ops },
      finishGroupResults (answerAll (fun s => .ok s.lastSeq) g.appended g.results))

/-- The frame's write or barrier failed: every sequenced member is answered with it. -/
def failIo (g : GroupInFlight) (e : CoreError) : List (Result Nat) :=
  finishGroupResults (answerAll (fun _ => .error (groupIoError e)) (g.appended ++ g.pending) g.results)

def Db.publishSequence (db : Db) (seq : Nat) : Db := { db with publishedSeq := max db.publishedSeq seq }

end PedraDb.Group
