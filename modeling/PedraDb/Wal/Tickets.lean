import PedraDb.Wal.Reader
import PedraDb.Wal.Writer
import PedraDb.Library.Runs

/-! Commits that share one log.

A group leader frames its members' records under the store's write lock, wave by wave,
takes a ticket for the frame, writes it without the log's lock, reports the span and syncs if it has to.
An asynchronous one-op commit does the same with a record it framed beforehand. If the
leader's write or sync fails it takes the write lock, fences the store, reads the written
position and cuts the log there, the last two under two holds of the log's lock.

A step is one hold of a lock, or one write off it. One group is in flight at a time. The
one-op commits do not look at the fence. -/
namespace PedraDb.Wal

inductive Kind where
  | bypass
  | group (needSync : Bool)
  deriving DecidableEq

inductive Stage where
  /-- A one-op commit with its handles. -/
  | begun
  /-- A group that frames its members' records, with the store's lock. -/
  | leading
  /-- A group whose records are in the pending frame. -/
  | framed
  /-- A group that found no frame to take. -/
  | untaken
  /-- With a span of its own, not yet reported. -/
  | writing
  /-- A group that still has to sync. -/
  | unsynced
  | ready
  | acked
  | failed
  /-- A failed group with the write lock. -/
  | fencing
  | cutting (offset : Nat)
  | refused
  deriving DecidableEq

/-- How far a commit's bytes have come. -/
inductive Span where
  | absent
  | reserved (job : PwriteJob)
  | written (job : PwriteJob)
  /-- Reported as written. -/
  | finished (job : PwriteJob)
  /-- Some of it was written. -/
  | torn (job : PwriteJob)
  deriving DecidableEq

structure Commit where
  kind : Kind
  records : List Bytes
  stage : Stage
  span : Span
  deriving DecidableEq

def Commit.unwritten (c : Commit) : Bool :=
  match c.span with
  | .reserved _ => true
  | _ => false

def Commit.holdsLock (c : Commit) : Bool :=
  match c.stage with
  | .leading | .fencing | .cutting _ => true
  | _ => false

def Commit.flies (c : Commit) : Bool :=
  match c.kind, c.stage with
  | .bypass, _ => false
  | .group _, .acked | .group _, .refused => false
  | .group _, _ => true

structure State where
  wal : Writer
  commits : List Commit
  fenced : Bool
  deriving DecidableEq

namespace State

def opened (stagedMax : Nat) : State := ⟨.create stagedMax, [], false⟩

def unlocked (s : State) : Bool := s.commits.all fun c => !c.holdsLock

def update (s : State) (i : Nat) (wal : Writer) (c : Commit) : State :=
  { s with wal := wal, commits := s.commits.set i c }

/-- What a failure means: the leader has it before it, a one-op commit returns it. -/
def failure : Kind → Stage
  | .bypass => .refused
  | .group _ => .failed

/-- Begin a group. A fenced store refuses. -/
def lead (s : State) (needSync : Bool) : Option State :=
  if s.unlocked ∧ s.fenced = false ∧ s.commits.all (fun c => !c.flies) then
    some { s with commits := s.commits ++ [⟨.group needSync, [], .leading, .absent⟩] }
  else none

def encode (crc : Crc) (s : State) (i : Nat) (records : List Bytes) : Option State :=
  match s.commits[i]? with
  | some c =>
    if c.stage = .leading then
      some (s.update i (s.wal.encodeBatches crc records) { c with records := c.records ++ records })
    else none
  | none => none

/-- A commit moves on only from the stage it is asked for. -/
theorem guarded {found : Option Commit} {p : Commit → Prop} [DecidablePred p]
    {f : Commit → Option State} {s' : State}
    (h : (match found with | some c => if p c then f c else none | none => none) = some s') :
    ∃ c, found = some c ∧ p c ∧ f c = some s' := by
  cases found with
  | none => cases h
  | some c =>
    obtain ⟨hp, hf⟩ := Option.ite_none_right_eq_some.mp h
    exact ⟨c, rfl, hp, hf⟩

/-- Let the lock go, with something to write. -/
def release (s : State) (i : Nat) : Option State :=
  match s.commits[i]? with
  | some c =>
    if c.stage = .leading ∧ c.records ≠ [] then some (s.update i s.wal { c with stage := .framed })
      else none
  | none => none

/-- Clone the handles under the read lock. -/
def begin' (s : State) (record : Bytes) : Option State :=
  if s.unlocked then some { s with commits := s.commits ++ [⟨.bypass, [record], .begun, .absent⟩] }
  else none

/-- Ticket the record. One that does not fit the block is framed now, behind whatever the
pending frame holds. -/
def reserve (crc : Crc) (s : State) (i : Nat) : Option State :=
  match s.commits[i]? with
  | some c =>
    if c.kind = .bypass ∧ c.stage = .begun then
      match s.wal.takePreframedPwriteJob (c.records.flatMap (physicalRecord crc .full)) with
      | some (job, wal) => some (s.update i wal { c with stage := .writing, span := .reserved job })
      | none =>
        match (s.wal.encodeBatches crc c.records).takePwriteJob with
        | (some job, wal) => some (s.update i wal { c with stage := .writing, span := .reserved job })
        | (none, _) => none
    else none
  | none => none

section
variable (s : State)

def take (i : Nat) : Option State :=
  match s.commits[i]? with
  | some c =>
    if c.stage = .framed then
      match s.wal.takePwriteJob with
      | (some job, wal) => some (s.update i wal { c with stage := .writing, span := .reserved job })
      | (none, wal) => some (s.update i wal { c with stage := .untaken })
    else none
  | none => none

/-- Write the span, without a lock. -/
def run (i : Nat) (sink : Sink) : Option State :=
  match s.commits[i]? with
  | some c =>
    match c.span with
    | .reserved job =>
      let wal := { s.wal with file := sink.emit s.wal.file job.ticket job.buf }
      if sink.isOk then some (s.update i wal { c with span := .written job })
      else some (s.update i wal { c with stage := failure c.kind, span := .torn job })
    | _ => none
  | none => none

def finish (i : Nat) : Option State :=
  match s.commits[i]? with
  | some c =>
    match c.span with
    | .written job =>
      let stage := if c.kind = .group true then .unsynced else .ready
      some (s.update i (s.wal.commitPwrite job.ticket job.buf.length)
        { c with stage := stage, span := .finished job })
    | _ => none
  | none => none

/-- Sync, once no write is outstanding. -/
def sync (i : Nat) (stage drain : Sink) (sync : Bool) : Option State :=
  match s.commits[i]? with
  | some c =>
    if c.stage = .unsynced ∧ s.commits.all (fun c => !c.unwritten) then
      let (ok, wal) := s.wal.syncData stage drain sync
      some (s.update i wal { c with stage := if ok then .ready else .failed })
    else none
  | none => none

/-- A group that found nothing to take writes what is pending now, and syncs if it has
to. -/
def writePending (i : Nat) (first stage drain : Sink) (sync : Bool) : Option State :=
  match s.commits[i]? with
  | some c =>
    if c.stage = .untaken ∧ (c.kind = .group false ∨ s.commits.all (fun c => !c.unwritten)) then
      match s.wal.writePendingFrame first with
      | (false, wal) => some (s.update i wal { c with stage := .failed })
      | (true, wal) =>
        let (ok, wal) := if c.kind = .group true then wal.syncData stage drain sync else (true, wal)
        some (s.update i wal { c with stage := if ok then .ready else .failed })
    else none
  | none => none

/-- Apply, publish and answer, under the store's lock. -/
def ack (i : Nat) : Option State :=
  match s.commits[i]? with
  | some c =>
    if c.stage = .ready ∧ s.unlocked then some (s.update i s.wal { c with stage := .acked }) else none
  | none => none

def fence (i : Nat) : Option State :=
  match s.commits[i]? with
  | some c =>
    if c.stage = .failed ∧ s.unlocked then
      some { s.update i s.wal { c with stage := .fencing } with fenced := true }
    else none
  | none => none

def readPosition (i : Nat) : Option State :=
  match s.commits[i]? with
  | some c =>
    if c.stage = .fencing then some (s.update i s.wal { c with stage := .cutting s.wal.position })
      else none
  | none => none

def discard (i : Nat) : Option State :=
  match s.commits[i]? with
  | some c =>
    match c.stage with
    | .cutting offset => some (s.update i (s.wal.discardUncommitted offset) { c with stage := .refused })
    | _ => none
  | none => none

end

end State

inductive Event where
  | lead (needSync : Bool)
  | encode (i : Nat) (records : List Bytes)
  | release (i : Nat)
  | begin' (record : Bytes)
  | reserve (i : Nat)
  | take (i : Nat)
  | run (i : Nat) (sink : Sink)
  | finish (i : Nat)
  | sync (i : Nat) (stage drain : Sink) (sync : Bool)
  | writePending (i : Nat) (first stage drain : Sink) (sync : Bool)
  | ack (i : Nat)
  | fence (i : Nat)
  | readPosition (i : Nat)
  | discard (i : Nat)
  deriving DecidableEq

def step (crc : Crc) (s : State) : Event → Option State
  | .lead needSync => s.lead needSync
  | .encode i records => s.encode crc i records
  | .release i => s.release i
  | .begin' record => s.begin' record
  | .reserve i => s.reserve crc i
  | .take i => s.take i
  | .run i sink => s.run i sink
  | .finish i => s.finish i
  | .sync i stage drain sync => s.sync i stage drain sync
  | .writePending i first stage drain sync => s.writePending i first stage drain sync
  | .ack i => s.ack i
  | .fence i => s.fence i
  | .readPosition i => s.readPosition i
  | .discard i => s.discard i

end PedraDb.Wal
