import PedraDb.Cache.Frame
import PedraDb.Library.Runs

/-! The point cache: commits, reads and what they leave behind.

The point cache holds answers at the published sequence. A commit adds its keys to a list
of dirty ones; its publication takes the list, drops those keys from the cache (or all of
them), and only then moves the published sequence. A read that misses looks the key up at
the published sequence and inserts the answer if that sequence has not moved.

Commits that hold the write lock exclude reads and one another; one-op commits and reads
share the read lock. The memtable is one table, and all keys are of the default family. -/
namespace PedraDb.Cache

inductive Phase where
  | minted
  | inserted
  | noted
  /-- The cache is invalidated, the sequence is not published yet. -/
  | invalidated
  | returned
  deriving DecidableEq

/-- A commit: what it puts into the memtable, member by member, into the family's bulk
run and into a file of its own. -/
structure Writer where
  members : List (List WriteOp)
  bulk : List WriteOp
  entries : List WriteOp
  top : Nat
  exclusive : Bool
  /-- The family's memtable entries went to its run first, or what was in memory to files. -/
  absorbed : Bool
  phase : Phase
  deriving DecidableEq

namespace Writer

def ops (w : Writer) : List WriteOp := w.bulk ++ w.members.flatten ++ w.entries

/-- The commit may change what a read of the key gives. -/
def touches (w : Writer) (key : Key) : Bool := w.absorbed || w.ops.any fun o => o.touches key

/-- In the store and not returned; holds its lock. -/
def holds (w : Writer) : Bool := w.phase == .inserted || w.phase == .noted || w.phase == .invalidated

end Writer

inductive Asking where
  | asked
  | snapped (snap : Nat)
  | looked (snap : Nat) (answer : Option Value)
  | checked (answer : Option Value)
  | returned (answer : Option Value)
  deriving DecidableEq

/-- A read of a key. -/
structure Getter where
  key : Key
  phase : Asking
  deriving DecidableEq

def Getter.holds (g : Getter) : Bool :=
  match g.phase with
  | .snapped _ | .looked _ _ | .checked _ => true
  | _ => false

structure State where
  mem : Table
  runs : List BulkRun
  files : List Table
  nextSeq : Nat
  published : Nat
  dirty : List Key
  reset : Bool
  cache : List (Key × Option Value)
  writers : List Writer
  getters : List Getter

def State.opened : State := ⟨[], [], [], 1, 0, [], false, [], [], []⟩

/-! ### Reading -/

def answer (look : Lookup) : Option Value := look.value.map unescapeInlineValue

namespace State

def lookupAt (s : State) (key : Key) (snap : Nat) : Option Value :=
  answer (lookupLayers [s.mem] s.runs defaultFamily s.files key snap)

def uncached (s : State) (key : Key) : Option Value := s.lookupAt key s.published

def cached (s : State) (key : Key) : Option (Option Value) :=
  (s.cache.find? fun e => e.1 == key).map Prod.snd

def get (s : State) (key : Key) : Option Value :=
  match s.cached key with
  | some v => v
  | none => s.uncached key

/-! ### Commits -/

def writeLocked (s : State) : Bool := s.writers.any fun w => w.exclusive && w.holds

def readLocked (s : State) : Bool := s.writers.any Writer.holds || s.getters.any Getter.holds

end State

def numberOps : Nat → List BatchOp → List WriteOp
  | _, [] => []
  | seq, op :: rest => stamped seq op :: numberOps (seq + 1) rest

def numberMembers : Nat → List (List BatchOp) → List (List WriteOp)
  | _, [] => []
  | seq, m :: rest => numberOps seq m :: numberMembers (seq + m.length) rest

/-- The entries of an ingested file keep their bytes. -/
def numberEntries : Nat → List (Key × Option Value) → List WriteOp
  | _, [] => []
  | seq, (key, some value) :: rest => .put seq key value :: numberEntries (seq + 1) rest
  | seq, (key, none) :: rest => .delete seq key :: numberEntries (seq + 1) rest

/-- A commit of one put or one deletion. -/
def loneOp : List (List BatchOp) → Bool
  | [[.put _ _]] => true
  | [[.delete _]] => true
  | _ => false

/-- Add a member's keys to the dirty ones. `cold` says that the cache is empty. -/
def noteDirtyPoints (cold : Bool) (noted : Bool × List Key) (ops : List WriteOp) : Bool × List Key :=
  if decide (32 ≤ ops.length) || ops.any (fun o => o.kind == .rangeDeletion) then (true, [])
  else if ops.length != 1 && cold then noted
  else (noted.1, noted.2 ++ ops.map WriteOp.key)

namespace State

section
variable (s : State)

def clears : Bool := s.reset || decide (32 < s.dirty.length) || s.dirty.isEmpty

/-- Take the dirty keys and drop the answers about them. -/
def invalidateReadAnswers : State :=
  { s with
    cache := if s.clears then [] else s.cache.filter fun e => !s.dirty.contains e.1
    dirty := []
    reset := false }

def start (members : List (List BatchOp)) (bulk : List (Key × Value))
    (entries : List (Key × Option Value)) (exclusive : Bool) : Option State :=
  let n := bulk.length + members.flatten.length + entries.length
  if exclusive || (loneOp members && bulk.isEmpty && entries.isEmpty) then
    some { s with
      nextSeq := s.nextSeq + n
      writers := s.writers ++ [{
        members := numberMembers (s.nextSeq + bulk.length) members
        bulk := numberPuts s.nextSeq bulk
        entries := numberEntries (s.nextSeq + bulk.length + members.flatten.length) entries
        top := s.nextSeq + n - 1
        exclusive := exclusive
        absorbed := false
        phase := .minted }] }
  else none

/-- The memtable and the runs once the family's run exists. -/
def openRun (w : Writer) : Table × List BulkRun :=
  if w.bulk.isEmpty || s.runs.any (fun r => r.family == defaultFamily) then (s.mem, s.runs)
  else absorbMemFamilyIntoRun s.mem s.runs defaultFamily

/-- The lock is to be had. -/
def admits (w : Writer) : Bool := if w.exclusive then !s.readLocked else !s.writeLocked

/-- The files that a flush makes of what is in memory: the runs are written first, so the
file of the memtable is asked before theirs. -/
def flushed : List Table := ([s.mem] ++ s.runs.map BulkRun.entries).filter fun t => !t.isEmpty

/-- An ingest flushes what is in memory before its file comes. -/
def settle (w : Writer) : State :=
  if w.entries.isEmpty then s else { s with mem := [], runs := [], files := s.flushed ++ s.files }

/-- Making room for the commit moved something between the layers. -/
def moves (w : Writer) : Bool :=
  ((s.settle w).openRun w).1 != s.mem || (!w.entries.isEmpty && !s.runs.isEmpty)

def insert (i : Nat) : Option State :=
  match s.writers[i]? with
  | some w =>
    if w.phase = .minted && s.admits w then
      let (mem, runs) := (s.settle w).openRun w
      some { s with
        mem := mem ++ w.members.flatten
        runs := if w.bulk.isEmpty then runs else pushRun defaultFamily w.bulk runs
        files := if w.entries.isEmpty then s.files else w.entries :: (s.settle w).files
        writers := s.writers.set i { w with phase := .inserted, absorbed := s.moves w } }
    else none
  | none => none

def note (i : Nat) (cold : Bool) : Option State :=
  match s.writers[i]? with
  | some w =>
    if w.phase = .inserted && (!cold || s.cache.isEmpty) then
      let noted := w.members.foldl (noteDirtyPoints cold) (s.reset, s.dirty)
      some { s with
        reset := noted.1, dirty := noted.2, writers := s.writers.set i { w with phase := .noted } }
    else none
  | none => none

def invalidate (i : Nat) : Option State :=
  match s.writers[i]? with
  | some w =>
    if w.phase = .noted then
      some { s.invalidateReadAnswers with writers := s.writers.set i { w with phase := .invalidated } }
    else none
  | none => none

def publish (i : Nat) : Option State :=
  match s.writers[i]? with
  | some w =>
    if w.phase = .invalidated then
      some { s with
        published := max s.published w.top
        writers := s.writers.set i { w with phase := .returned } }
    else none
  | none => none

end

def ask (s : State) (key : Key) : State := { s with getters := s.getters ++ [⟨key, .asked⟩] }

def advance (s : State) (i : Nat) (room : Bool) : Option State :=
  match s.getters[i]? with
  | none => none
  | some g =>
    let set (phase : Asking) := s.getters.set i { g with phase := phase }
    match g.phase with
    | .asked => if s.writeLocked then none else some { s with getters := set (.snapped s.published) }
    | .snapped snap => some { s with getters := set (.looked snap (s.lookupAt g.key snap)) }
    | .looked snap v =>
      some { s with getters := set (if s.published = snap then .checked v else .returned v) }
    | .checked v =>
      some { s with
        cache := if room then (g.key, v) :: s.cache.filter (fun e => e.1 != g.key) else s.cache
        getters := set (.returned v) }
    | .returned _ => none

def probe (s : State) (i : Nat) : Option State :=
  match s.getters[i]? with
  | some g =>
    match g.phase, s.cached g.key with
    | .asked, some v => some { s with getters := s.getters.set i { g with phase := .returned v } }
    | _, _ => none
  | none => none

end State

inductive Event where
  | start (members : List (List BatchOp)) (bulk : List (Key × Value))
    (entries : List (Key × Option Value)) (exclusive : Bool)
  | insert (i : Nat)
  | note (i : Nat) (cold : Bool)
  | invalidate (i : Nat)
  | publish (i : Nat)
  | ask (key : Key)
  | probe (i : Nat)
  | advance (i : Nat) (room : Bool)

def step (s : State) : Event → Option State
  | .start members bulk entries exclusive => s.start members bulk entries exclusive
  | .insert i => s.insert i
  | .note i cold => s.note i cold
  | .invalidate i => s.invalidate i
  | .publish i => s.publish i
  | .ask key => some (s.ask key)
  | .probe i => s.probe i
  | .advance i room => s.advance i room

namespace State

/-- The dirty keys are all the commit may have changed. -/
def dirtyCovers (s : State) (w : Writer) : Bool :=
  s.clears || (!w.absorbed && w.ops.all fun o => o.kind != .rangeDeletion && s.dirty.contains o.key)

/-- Some commit of the key is between its invalidation and its publication. -/
def sealed (s : State) (key : Key) : Bool := s.writers.any fun w =>
    w.phase == .invalidated && w.touches key

/-- The answer a read is about to cache, at the published sequence. -/
def filling (s : State) (g : Getter) : Option (Option Value) :=
  match g.phase with
  | .looked snap v => if snap = s.published then some v else none
  | .checked v => some v
  | _ => none

end State

/-- A publication takes dirty keys that cover its commit, while no read of those keys is
about to be cached; and no read at the published sequence is taken between the invalidation
and the publication. -/
def current (s : State) : Event → Bool
  | .invalidate i =>
    match s.writers[i]? with
    | some w =>
      (s.dirtyCovers w || s.cache.isEmpty) &&
        s.getters.all fun g => !w.touches g.key || (s.filling g).isNone
    | none => true
  | .advance i _ =>
    match s.getters[i]? with
    | some g =>
      match g.phase with
      | .snapped snap => snap != s.published || !s.sealed g.key
      | _ => true
    | none => true
  | _ => true

end PedraDb.Cache