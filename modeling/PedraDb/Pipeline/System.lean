import PedraDb.Layers.Flush
import PedraDb.Library.Runs

/-! The commit paths of a concurrent store, interleaved.

Every path takes sequences from one atomic counter, writes the log, applies to the
memtable and publishes. They differ in what they hold meanwhile:

* the group leader validates, sequences and encodes its members under the store's write
  lock, writes the frame without it, and takes the lock again to apply and publish;
* a lone commit, an asynchronous one-op commit, an asynchronous batch and an ingest keep
  the write lock from beginning to end;
* the asynchronous one-op bypass clones its handles under the read lock, takes its
  sequence and writes the log without any lock of the store, and applies and publishes
  under the read lock.

A step is one access to what the threads share. The counter needs no lock, so under the
write lock every allocation is a step of its own, and an allocation that runs past the
last assignable sequence and its give-back are two. Log outcomes are part of the event.
The records a path acknowledges are kept in `committed`, with what it knew. -/
namespace PedraDb.Pipeline

/-! ### The store -/

/-- The part of the store the commit paths read and write. -/
structure Db where
  nextSeq : Nat
  publishedSeq : Nat
  earliestReadableSeq : Nat
  durabilityFenced : Bool
  lossy : Lossy
  physicalCfs : List Key
  /-- Encoded by a group whose memtable apply has not happened yet. -/
  unapplied : List WriteOp
  mem : Table
  /-- Files, newest first. -/
  ssts : List SstFile
  bulkRuns : List BulkRun

namespace Db

def fresh (physicalCfs : List Key) : Db :=
  ⟨1, 0, 0, false, .replacement, physicalCfs, [], [], [], []⟩

def lastSequence (db : Db) : Nat := db.nextSeq - 1

def publishSequence (db : Db) (seq : Nat) : Db := { db with publishedSeq := max db.publishedSeq seq }

def apply (db : Db) (ops : List WriteOp) : Db := { db with mem := db.mem ++ ops }

def lookup (db : Db) (key : Key) (snap : Nat) : Lookup :=
  Layers.lookup [db.mem] db.bulkRuns (bulkFamilyOfKey db.physicalCfs key)
    [db.ssts.map SstFile.entries] key snap

def ensureSnapshotReadable (db : Db) (snap : Nat) : Result Unit :=
  if snap < db.earliestReadableSeq then .error (.snapshotTooOld snap db.earliestReadableSeq) else .ok ()

/-- A read at a snapshot. Below the watermark the store's own history does not answer. -/
def getAt (db : Db) (snap : Nat) (key : Key) : Result (Option Value) :=
  if snap = 0 then .ok none
  else match db.ensureSnapshotReadable snap with
    | .error e => .error e
    | .ok _ => .ok (db.lookup key snap).value

/-- Whether some write after `snap` touches `key`. -/
def keyHasWriteAfter (db : Db) (key : Key) (snap : Nat) : Bool :=
  (db.unapplied.any fun u => decide (snap < u.sequence) && u.covers key) ||
  tableHasWriteAfter db.mem key snap ||
  (db.ssts.any fun f => fileHasWriteAfter f.entries key snap) ||
  db.bulkRuns.any fun run =>
    run.family == bulkFamilyOfKey db.physicalCfs key && run.hasWriteAfter key snap

/-- Whether some write after `snap` touches a key of `[start, stop)`. The bulk runs are
not asked. -/
def rangeHasWriteAfter (db : Db) (start stop : Key) (snap : Nat) : Bool :=
  if stop ≤ start then false
  else
    (db.unapplied.any fun u => decide (snap < u.sequence) && u.overlaps start stop) ||
    tableRangeHasWriteAfter db.mem start stop snap ||
    db.ssts.any fun f => f.rangeHasWriteAfter start stop snap

end Db

/-! ### Transactions and their validation -/

/-- A batch, with the snapshot and the read keys of an optimistic transaction. -/
structure Txn where
  ops : List BatchOp
  occ : Option (Nat × List Key)
  deriving DecidableEq

/-- What the leader has let through under its current hold of the lock. -/
structure Accepted where
  keys : List Key
  ranges : List (Key × Key)
  deriving DecidableEq

namespace Accepted

def addOp (a : Accepted) : BatchOp → Accepted
  | .put key _ | .delete key => { a with keys := a.keys ++ [key] }
  | .deleteRange start stop => { a with ranges := a.ranges ++ [(start, stop)] }

def add (a : Accepted) : List BatchOp → Accepted
  | [] => a
  | op :: ops => (a.addOp op).add ops

def touchesKey (a : Accepted) (key : Key) : Bool :=
  a.keys.contains key || a.ranges.any fun r => decide (r.1 ≤ key) && decide (key < r.2)

def touchesOp (a : Accepted) : BatchOp → Bool
  | .put key _ | .delete key => a.touchesKey key
  | .deleteRange start stop =>
    (a.keys.any fun k => decide (start ≤ k) && decide (k < stop)) ||
      a.ranges.any fun r => decide (r.1 < stop) && decide (start < r.2)

end Accepted

/-- The probe of one operation of a transaction against the store. -/
def Db.opHasWriteAfter (db : Db) (snap : Nat) : BatchOp → Bool
  | .put key _ | .delete key => db.keyHasWriteAfter key snap
  | .deleteRange start stop => db.rangeHasWriteAfter start stop snap

/-- Whether a key read or a key written by the transaction was written after its
snapshot. -/
def Db.touchedAfter (db : Db) (snap : Nat) (keys : List Key) (ops : List BatchOp) : Bool :=
  (keys.any fun k => db.keyHasWriteAfter k snap) || ops.any (db.opHasWriteAfter snap)

/-- Validate one member against the store and against what the leader has let through.
A raw batch always passes. -/
def validateOcc (db : Db) (a : Accepted) (t : Txn) : Accepted × Result Unit :=
  match t.occ with
  | none => (a.add t.ops, .ok ())
  | some (snap, keys) =>
    match db.ensureSnapshotReadable snap with
    | .error e => (a, .error e)
    | .ok _ =>
      if db.touchedAfter snap keys t.ops || keys.any a.touchesKey || t.ops.any a.touchesOp then
        (a, .error .transactionConflict)
      else (a.add t.ops, .ok ())

/-- Validate a wave in order; the refused members are left out. -/
def validateAll (db : Db) : Accepted → List Txn → Accepted × List Txn
  | a, [] => (a, [])
  | a, t :: rest =>
    match validateOcc db a t with
    | (a, .error _) => validateAll db a rest
    | (a, .ok _) =>
      let (a, passed) := validateAll db a rest
      (a, t :: passed)

/-- A lone commit validates alone, and only against writes up to the last sequence. -/
def validateLone (db : Db) (t : Txn) : Result Unit :=
  match t.occ with
  | none => .ok ()
  | some (snap, keys) =>
    match db.ensureSnapshotReadable snap with
    | .error e => .error e
    | .ok _ =>
      if decide (snap < db.lastSequence) && db.touchedAfter snap keys t.ops then
        .error .transactionConflict
      else .ok ()

/-! ### What the threads hold -/

/-- A member with its sequences. -/
structure Sequenced where
  txn : Txn
  records : List WriteOp
  deriving DecidableEq

/-- A group: its members sequenced and not yet encoded, and those in the frame. -/
structure GroupInFlight where
  failed : Bool
  pending : List Sequenced
  appended : List Sequenced
  deriving DecidableEq

def GroupInFlight.empty : GroupInFlight := ⟨false, [], []⟩

def GroupInFlight.ops (g : GroupInFlight) : List WriteOp := g.appended.flatMap Sequenced.records

/-- The members a group applies: none once it has failed. -/
def GroupInFlight.live (g : GroupInFlight) : List Sequenced := if g.failed then [] else g.appended

/-- The leader under the lock: the group it is filling and the groups staged before it. -/
structure Lead where
  accepted : Accepted
  queue : List Txn
  group : GroupInFlight
  chunks : List GroupInFlight
  deriving DecidableEq

def Lead.empty : Lead := ⟨⟨[], []⟩, [], .empty, []⟩

/-- The leader off the lock: its chunks and how the write of their frame went. -/
structure Flight where
  chunks : List GroupInFlight
  io : Option Bool
  deriving DecidableEq

/-- `prepare_write_ops_spill` part-way. `taken` are the sequences it got, `overdrawn` says
that one more was past the end and has to be given back, `failed` that the counter has to
be restored. -/
structure Prep where
  txn : Txn
  checkpoint : Nat
  taken : List Nat
  records : List WriteOp
  todo : List BatchOp
  overdrawn : Bool
  failed : Bool
  deriving DecidableEq

inductive Path where
  | group
  | lone
  | one
  | batch
  | bypass
  | ingest
  deriving DecidableEq

/-- A commit that keeps the write lock: what is left for the memtable, and what it put
into a bulk run. -/
structure Solo where
  path : Path
  txn : Txn
  bulk : List WriteOp
  deriving DecidableEq

/-- Who holds the store's write lock. -/
inductive Lock where
  | free
  | lead
  | solo (c : Solo)
  | ingest (records : List WriteOp)
  /-- Took `n` sequences past the end and has to give them back. -/
  | owing (n : Nat)
  deriving DecidableEq

/-- A one-op bypass commit. -/
inductive Bypass where
  | begun (op : BatchOp)
  | overdrawn
  | minted (op : WriteOp)
  | written (op : WriteOp)
  /-- In the memtable and not yet published; the read lock is held. -/
  | inserted (op : WriteOp)
  | finished
  deriving DecidableEq

/-- An acknowledged commit. -/
structure Commit where
  path : Path
  txn : Txn
  records : List WriteOp
  /-- A log write had failed before. -/
  afterFailure : Bool
  deriving DecidableEq

structure State where
  db : Db
  lock : Lock
  prep : Option Prep
  lead : Lead
  flight : Option Flight
  bypasses : List Bypass
  /-- Some commit path failed to write or to sync the log. -/
  failed : Bool
  committed : List Commit
  /-- Snapshots handed to readers, and what they read. -/
  snaps : List Nat
  reads : List (Nat × Key × Result (Option Value))

def State.opened (db : Db) : State := ⟨db, .free, none, .empty, none, [], false, [], [], []⟩

section
variable (s : State)

/-- The write lock can be taken: nobody has it and no bypass is under the read lock. -/
def State.unlocked : Bool := s.lock == .free && s.bypasses.all fun b =>
    match b with | .inserted _ => false | _ => true

def State.acknowledge (path : Path) (txn : Txn) (records : List WriteOp) : State :=
  { s with committed := s.committed ++ [⟨path, txn, records, s.failed⟩] }

def State.acknowledgeAll (path : Path) (members : List Sequenced) : State :=
  { s with committed := s.committed ++ members.map fun m => ⟨path, m.txn, m.records, s.failed⟩ }

/-- How the path that prepares stores a value: the asynchronous ones do not spill. -/
def State.stored (spill : Value → Result Value) : Value → Result Value :=
  match s.lock with
  | .solo c => if c.path = .lone then spill else fun v => .ok (escapeInlineValue v)
  | _ => spill

/-- Start to prepare a batch: the fence is checked and the counter remembered. -/
def State.beginPrep (t : Txn) : Option Prep :=
  if s.db.durabilityFenced then none else some ⟨t, s.db.nextSeq, [], [], t.ops, false, false⟩

/-- Take a sequence for the next operation and spill its value. -/
def State.alloc (spill : Value → Result Value) : Option State :=
  match s.prep with
  | none => none
  | some p =>
    if p.overdrawn || p.failed then none
    else match p.todo with
      | [] => none
      | op :: rest =>
        let db := { s.db with nextSeq := s.db.nextSeq + 1 }
        if seqExhausted s.db.nextSeq maxAssignableSequenceNumber then
          some { s with db := db, prep := some { p with overdrawn := true } }
        else match record (s.stored spill) s.db.nextSeq op with
          | .error _ =>
            some { s with
              db := db
              prep := some { p with taken := p.taken ++ [s.db.nextSeq], failed := true } }
          | .ok r =>
            some { s with
              db := db
              prep := some { p with
                taken := p.taken ++ [s.db.nextSeq]
                records := p.records ++ [r]
                todo := rest } }

/-- Give a sequence past the end back. -/
def State.giveBack : Option State :=
  match s.prep with
  | none => none
  | some p =>
    if p.overdrawn then
      some { s with
        db := { s.db with nextSeq := s.db.nextSeq - 1 }
        prep := some { p with overdrawn := false, failed := true } }
    else none

/-- Refuse the batch being prepared: the counter is set back to where the batch found it.
The one-op path has nothing to restore. -/
def State.rollback : Option State :=
  match s.prep with
  | none => none
  | some p =>
    if p.failed then
      let restored := { s.db with nextSeq := p.checkpoint }
      match s.lock with
      | .solo c =>
        some { s with db := if c.path = .one then s.db else restored, prep := none, lock := .free }
      | _ => some { s with db := restored, prep := none }
    else none

end

/-! ### The group leader -/

/-- The leader drains its queue again only between groups or while it fills the first. -/
def Lead.idle (l : Lead) : Bool := l.queue == [] && l.group.pending == []

section
variable (s : State)

def State.takeLead : Option State :=
  if s.unlocked && s.flight.isNone then some { s with lock := .lead, lead := .empty } else none

/-- Validate a wave of members and queue those that pass. A wave that is refused
admission, or absorbed by a group that has failed, goes no further. -/
def State.wave (members : List Txn) (refused : Bool) : Option State :=
  if s.lock = .lead ∧ s.prep = none ∧ s.lead.idle = true ∧
      (s.lead.chunks = [] ∨ s.lead.group = .empty) then
    let (accepted, passed) := validateAll s.db s.lead.accepted members
    some { s with
      lead := { s.lead with
        accepted := accepted
        queue := if refused || s.lead.group.failed then [] else passed } }
  else none

/-- Turn to the next member of the wave. An empty batch is answered at once. -/
def State.prepare : Option State :=
  if s.lock = .lead ∧ s.prep = none then
    match s.lead.queue with
    | [] => none
    | t :: rest =>
      let lead := { s.lead with queue := rest }
      if t.ops = [] then some { s with lead := lead }
      else some { s with lead := lead, prep := s.beginPrep t }
  else none

/-- A member with all its sequences waits to be encoded. -/
def State.ready : Option State :=
  match s.prep with
  | none => none
  | some p =>
    if s.lock = .lead ∧ p.todo = [] ∧ p.overdrawn = false ∧ p.failed = false then
      let group := { s.lead.group with pending := s.lead.group.pending ++ [⟨p.txn, p.records⟩] }
      some { s with lead := { s.lead with group := group }, prep := none }
    else none

/-- Flush the value log and encode the wave into the frame. If either fails the whole
group has failed. -/
def State.encode (flush encode : Bool) : Option State :=
  if s.lock = .lead ∧ s.prep = none ∧ s.lead.queue = [] then
    let g := s.lead.group
    let group :=
      if !flush then { g with failed := true, pending := [] }
      else if g.failed || g.pending == [] then g
      else if s.db.durabilityFenced || !encode then { g with failed := true, pending := [] }
      else { g with appended := g.appended ++ g.pending, pending := [] }
    some { s with lead := { s.lead with group := group } }
  else none

/-- Stage the group's operations for the conflict probes and close it. -/
def State.stage : Option State :=
  if s.lock = .lead ∧ s.prep = none ∧ s.lead.idle = true then
    some { s with
      db := { s.db with unapplied := s.db.unapplied ++ s.lead.group.ops }
      lead := { s.lead with group := .empty, chunks := s.lead.chunks ++ [s.lead.group] } }
  else none

/-- Drop the lock and take the frame to the log. -/
def State.fly : Option State :=
  if s.lock = .lead ∧ s.prep = none ∧ s.lead.idle = true ∧ s.lead.group = .empty ∧ s.lead.chunks ≠ [] then
    some { s with lock := .free, lead := .empty, flight := some ⟨s.lead.chunks, none⟩ }
  else none

def State.write (ok : Bool) : Option State :=
  match s.flight with
  | some ⟨chunks, none⟩ => some { s with flight := some ⟨chunks, some ok⟩, failed := s.failed || !ok }
  | _ => none

end

def unstageUnapplied (db : Db) (chunks : List GroupInFlight) : Db :=
  let seqs := (chunks.flatMap GroupInFlight.ops).map WriteOp.sequence
  { db with unapplied := db.unapplied.filter fun u => !seqs.contains u.sequence }

def maxAppendedSeq (chunks : List GroupInFlight) : Nat :=
  ((chunks.flatMap GroupInFlight.ops).map WriteOp.sequence).foldl max 0

/-- The second hold of the lock: apply and publish, or fence. -/
def State.finish (s : State) : Option State :=
  match s.flight with
  | some ⟨chunks, some ok⟩ =>
    if s.unlocked then
      let members := chunks.flatMap GroupInFlight.live
      let db := unstageUnapplied s.db chunks
      if ok then
        let db := (db.apply (members.flatMap Sequenced.records)).publishSequence (maxAppendedSeq chunks)
        some ({ s with db := db, flight := none }.acknowledgeAll .group members)
      else some { s with db := { db with durabilityFenced := true }, flight := none }
    else none
  | _ => none

/-! ### Commits that keep the write lock -/

/-- A lone commit: validated, then prepared. A refused one changes nothing. -/
def State.lone (s : State) (t : Txn) : Option State :=
  if s.unlocked ∧ t.ops ≠ [] then
    match validateLone s.db t with
    | .error _ => some s
    | .ok _ => some { s with lock := .solo ⟨.lone, t, []⟩ }
  else none

def State.one (s : State) (op : BatchOp) : Option State :=
  if s.unlocked then some { s with lock := .solo ⟨.one, ⟨[op], none⟩, []⟩ } else none

/-- The memtable and the runs once the family has one. -/
def Db.openRun (db : Db) (family : Key) : Table × List BulkRun :=
  if db.bulkRuns.any fun run => run.family == family then (db.mem, db.bulkRuns)
  else absorbMemFamilyIntoRun db.mem db.bulkRuns family

/-- An asynchronous batch: the puts of latched families take a block of sequences and go
to a bulk run, that of the first of them; the rest is prepared like any other. -/
def State.batch (s : State) (latched : Key → Bool) (ops : List BatchOp) : Option State :=
  if s.unlocked then
    let (bulk, ladder) := splitBatch s.db.physicalCfs latched ops
    match bulk with
    | [] => some { s with lock := .solo ⟨.batch, ⟨ladder, none⟩, []⟩ }
    | (key, value) :: rest =>
      let n := rest.length + 1
      let family := bulkFamilyOfKey s.db.physicalCfs key
      let opened := s.db.openRun family
      let db := { s.db with mem := opened.1, bulkRuns := opened.2, nextSeq := s.db.nextSeq + n }
      if seqExhausted (s.db.nextSeq + n - 1) maxAssignableSequenceNumber then
        some { s with db := db, lock := .owing n }
      else
        let records := numberPuts s.db.nextSeq (sortBulkKeyVals ((key, value) :: rest))
        some { s with
          db := { db with bulkRuns := pushRun family records opened.2 }
          lock := .solo ⟨.batch, ⟨ladder, none⟩, records⟩ }
  else none

/-- Give a block of sequences past the end back, and refuse. -/
def State.giveBackBlock (s : State) : Option State :=
  match s.lock with
  | .owing n => some { s with db := { s.db with nextSeq := s.db.nextSeq - n }, lock := .free }
  | _ => none

/-- A batch with nothing left for the memtable publishes the last sequence. -/
def State.bulkDone (s : State) : Option State :=
  match s.lock with
  | .solo c =>
    if c.path = .batch ∧ c.txn.ops = [] ∧ s.prep = none then
      let s' := { s with db := s.db.publishSequence s.db.lastSequence, lock := .free }
      some (if c.bulk = [] then s' else s'.acknowledge .batch c.txn c.bulk)
    else none
  | _ => none

/-- The tail of a batch of latched keys. A single put goes straight to the memtable: it is
not logged and the fence is not looked at. -/
def State.tailPut (s : State) : Option State :=
  match s.lock with
  | .solo c =>
    match c.txn.ops with
    | [.put key value] =>
      if c.path = .batch ∧ c.bulk ≠ [] ∧ s.prep = none then
        let db := { s.db with nextSeq := s.db.nextSeq + 1 }
        if seqExhausted s.db.nextSeq maxAssignableSequenceNumber then
          some { s with db := db, lock := .owing 1 }
        else
          let op := WriteOp.put s.db.nextSeq key (escapeInlineValue value)
          some ({ s with
            db := (db.apply [op]).publishSequence s.db.nextSeq
            lock := .free }.acknowledge .batch c.txn (c.bulk ++ [op]))
      else none
    | _ => none
  | _ => none

/-- Start to prepare; a fenced store refuses. -/
def State.soloPrepare (s : State) : Option State :=
  match s.lock with
  | .solo c =>
    if s.prep = none ∧ c.txn.ops ≠ [] then
      match s.beginPrep c.txn with
      | none => some { s with lock := .free }
      | some p => some { s with prep := some p }
    else none
  | _ => none

inductive WalOutcome where
  | ok
  /-- The value log could not be flushed; the log was not touched. -/
  | vlog
  | io
  deriving DecidableEq

/-- Write the log under the lock, then apply and publish. A failed write fences. -/
def State.soloWrite (s : State) (outcome : WalOutcome) : Option State :=
  match s.lock, s.prep with
  | .solo c, some p =>
    if p.todo = [] ∧ p.overdrawn = false ∧ p.failed = false then
      match outcome with
      | .ok =>
        let seq := (p.records.map WriteOp.sequence).getLastD 0
        some ({ s with
          db := (s.db.apply p.records).publishSequence seq, lock := .free, prep := none }.acknowledge
          c.path c.txn (c.bulk ++ p.records))
      | .vlog => some { s with lock := .free, prep := none }
      | .io => some { s with
          db := { s.db with durabilityFenced := true }, lock := .free, prep := none, failed := true }
    else none
  | _, _ => none

/-- Number the entries of a file from `top` down, so that the first stays the newest. -/
def numberDown : Nat → List (ValueType × Key × Value) → List WriteOp
  | _, [] => []
  | top, (kind, key, value) :: rest => ⟨kind, top, key, value⟩ :: numberDown (top - 1) rest

/-- The files a flush of the memtable writes. -/
def Db.flushed (db : Db) : List SstFile :=
  (flushFiles db.lossy db.physicalCfs db.mem).map fun f => ⟨f.2, false⟩

/-- Pending memtable and bulk state is flushed first, so that it does not shadow the
file. -/
def Db.flush (db : Db) : Db :=
  { db with
    mem := []
    bulkRuns := []
    ssts := db.flushed ++ (db.bulkRuns.map (fun run => ⟨run.entries, false⟩) ++ db.ssts) }

/-- A fenced store refuses the flush. -/
def State.ingest (s : State) (entries : List (ValueType × Key × Value)) : Option State :=
  if s.unlocked ∧ entries ≠ [] then
    let empty := s.db.mem = [] ∧ s.db.bulkRuns = []
    if ¬ empty ∧ s.db.durabilityFenced then some s
    else
      let n := entries.length
      let db := if empty then s.db else s.db.flush
      let db := { db with nextSeq := s.db.nextSeq + n }
      let top := s.db.nextSeq + n - 1
      if seqExhausted top maxAssignableSequenceNumber then some { s with db := db, lock := .owing n }
      else some { s with db := db, lock := .ingest (numberDown top entries) }
  else none

inductive IngestOutcome where
  | ok
  /-- The table could not be written. -/
  | sst
  /-- The manifest could not be written; this fences. -/
  | manifest
  deriving DecidableEq

section
variable (s : State)

/-- Install the table and publish its block. -/
def State.install (outcome : IngestOutcome) : Option State :=
  match s.lock with
  | .ingest records =>
    match outcome with
    | .ok =>
      let top := (records.map WriteOp.sequence).headD 0
      let db := { s.db with ssts := ⟨records, false⟩ :: s.db.ssts }.publishSequence top
      some ({ s with db := db, lock := .free }.acknowledge .ingest ⟨[], none⟩ records)
    | .sst => some { s with lock := .free }
    | .manifest => some { s with db := { s.db with durabilityFenced := true }, lock := .free }
  | _ => none

/-! ### The one-op bypass -/

/-- Clone the handles under the read lock. The fence is not looked at. -/
def State.begin (op : BatchOp) : Option State :=
  if s.lock = .free then some { s with bypasses := s.bypasses ++ [.begun op] } else none

/-- Take a sequence without any lock. -/
def State.mint (i : Nat) : Option State :=
  match s.bypasses[i]? with
  | some (.begun op) =>
    let db := { s.db with nextSeq := s.db.nextSeq + 1 }
    if seqExhausted s.db.nextSeq maxAssignableSequenceNumber then
      some { s with db := db, bypasses := s.bypasses.set i .overdrawn }
    else match record (fun v => .ok (escapeInlineValue v)) s.db.nextSeq op with
      | .error _ => none
      | .ok r => some { s with db := db, bypasses := s.bypasses.set i (.minted r) }
  | _ => none

def State.bypassGiveBack (i : Nat) : Option State :=
  match s.bypasses[i]? with
  | some .overdrawn =>
    some { s with
      db := { s.db with nextSeq := s.db.nextSeq - 1 }
      bypasses := s.bypasses.set i .finished }
  | _ => none

/-- Write the log without any lock. A failure is returned and goes no further. -/
def State.bypassWrite (i : Nat) (ok : Bool) : Option State :=
  match s.bypasses[i]? with
  | some (.minted op) =>
    if ok then some { s with bypasses := s.bypasses.set i (.written op) }
    else some { s with bypasses := s.bypasses.set i .finished, failed := true }
  | _ => none

/-- Insert into the live memtable under the read lock. -/
def State.insert (i : Nat) : Option State :=
  match s.bypasses[i]? with
  | some (.written op) =>
    if s.lock = .free then
      some { s with db := s.db.apply [op], bypasses := s.bypasses.set i (.inserted op) }
    else none
  | _ => none

def State.publish (i : Nat) : Option State :=
  match s.bypasses[i]? with
  | some (.inserted op) =>
    if s.lock = .free then
      some ({ s with
        db := s.db.publishSequence op.sequence
        bypasses := s.bypasses.set i .finished }.acknowledge .bypass ⟨[], none⟩ [op])
    else none
  | _ => none

def State.snapshot : Option State :=
  if s.lock = .free then some { s with snaps := s.snaps ++ [s.db.publishedSeq] } else none

def State.getAt (snap : Nat) (key : Key) : Option State :=
  if s.lock = .free ∧ snap ∈ s.snaps then
    some { s with reads := s.reads ++ [(snap, key, s.db.getAt snap key)] }
  else none

end

inductive Event where
  | takeLead
  | wave (members : List Txn) (refused : Bool)
  | prepare
  | alloc (spill : Value → Result Value)
  | giveBack
  | rollback
  | ready
  | encode (flush encode : Bool)
  | stage
  | fly
  | write (ok : Bool)
  | finish
  | lone (t : Txn)
  | one (op : BatchOp)
  | batch (latched : Key → Bool) (ops : List BatchOp)
  | giveBackBlock
  | bulkDone
  | tailPut
  | soloPrepare
  | soloWrite (outcome : WalOutcome)
  | ingest (entries : List (ValueType × Key × Value))
  | install (outcome : IngestOutcome)
  | begin (op : BatchOp)
  | mint (i : Nat)
  | bypassGiveBack (i : Nat)
  | bypassWrite (i : Nat) (ok : Bool)
  | insert (i : Nat)
  | publish (i : Nat)
  | snapshot
  | getAt (snap : Nat) (key : Key)

def step (s : State) : Event → Option State
  | .takeLead => s.takeLead
  | .wave members refused => s.wave members refused
  | .prepare => s.prepare
  | .alloc spill => s.alloc spill
  | .giveBack => s.giveBack
  | .rollback => s.rollback
  | .ready => s.ready
  | .encode flush encode => s.encode flush encode
  | .stage => s.stage
  | .fly => s.fly
  | .write ok => s.write ok
  | .finish => s.finish
  | .lone t => s.lone t
  | .one op => s.one op
  | .batch latched ops => s.batch latched ops
  | .giveBackBlock => s.giveBackBlock
  | .bulkDone => s.bulkDone
  | .tailPut => s.tailPut
  | .soloPrepare => s.soloPrepare
  | .soloWrite outcome => s.soloWrite outcome
  | .ingest entries => s.ingest entries
  | .install outcome => s.install outcome
  | .begin op => s.begin op
  | .mint i => s.mint i
  | .bypassGiveBack i => s.bypassGiveBack i
  | .bypassWrite i ok => s.bypassWrite i ok
  | .insert i => s.insert i
  | .publish i => s.publish i
  | .snapshot => s.snapshot
  | .getAt snap key => s.getAt snap key

end PedraDb.Pipeline
