import PedraDb.Group.Commit

/-! The write group's leader.

The leader takes the queued members, starts a group with them under the store's
write lock, absorbs whoever queued meanwhile into the same group, starts further
groups (chunks) for whoever queued after that, and only then drops the lock,
writes the one pending frame, and reacquires the lock to apply every chunk and to
publish. Results come back as one list, chunk after chunk, and are handed to the
members by position.

A member is modelled after optimistic validation: one that lost it carries its
error and no operations. -/
namespace PedraDb.Group

/-- A queued member. -/
structure PendingWrite where
  ops : List BatchOp
  doSync : Bool
  /-- The verdict of optimistic validation. -/
  occErr : Option CoreError
  /-- Validation clears the operations of a member it refuses. -/
  cleared : occErr.isSome → ops = []

def PendingWrite.input (p : PendingWrite) : Input := (p.ops, p.doSync)

/-- Members drained from the queue together, and what the environment answers while
they are taken in. -/
structure Wave where
  members : List PendingWrite
  io : WaveIo

def Wave.inputs (w : Wave) : List Input := w.members.map PendingWrite.input

/-- One round of the leader. -/
structure Schedule where
  start : Wave
  /-- Waves absorbed into the started group. -/
  absorbed : List Wave
  /-- Waves that queued later still, each its own group behind the same frame. -/
  chunks : List Wave
  io : FrameIo

/-- The members of a round, in the order the leader holds them. A refused start ends
the round before anyone else is taken in. -/
def Schedule.members (s : Schedule) : List PendingWrite :=
  s.start.members ++ s.absorbed.flatMap Wave.members ++ s.chunks.flatMap Wave.members

/-- A started group, or the answers of one that could not start. -/
inductive Chunk where
  | fly (g : GroupInFlight)
  | done (results : List (Result Nat))

def Chunk.needsSync : Chunk → Bool
  | .fly g => g.needsSync
  | .done _ => false

def Chunk.maxAppendedSeq : Chunk → Nat
  | .fly g => g.maxAppendedSeq
  | .done _ => 0

def absorbWaves : Db → GroupInFlight → List Wave → Db × GroupInFlight
  | db, g, [] => (db, g)
  | db, g, w :: rest =>
    let (db, g) := groupAbsorb db g w.inputs w.io
    absorbWaves db g rest

def startChunk (db : Db) (w : Wave) : Db × Chunk :=
  match groupStart db w.inputs w.io with
  | (db, .error results) => (db, .done results)
  | (db, .ok g) => (stageUnapplied db g, .fly g)

def startChunks : Db → List Wave → Db × List Chunk
  | db, [] => (db, [])
  | db, w :: rest =>
    let (db, c) := startChunk db w
    let (db, cs) := startChunks db rest
    (db, c :: cs)

/-- The off-lock section: the frame as a positional job when the sink allows it,
sequentially otherwise, then the barrier if some chunk needs it. -/
def writeFrame (w : Wal) (needSync : Bool) (io : FrameIo) : Wal × Option CoreError :=
  match w.takePwriteJob with
  | (some buf, w) =>
    if io.write then
      let w := { w with file := w.file ++ buf }
      if needSync then w.syncData io else (w, none)
    else (w, some writeFailed)
  | (none, w) =>
    match w.writePendingFrame io with
    | (w, some e) => (w, some e)
    | (w, none) => if needSync then w.syncData io else (w, none)

/-- Apply the chunks in order; a chunk that never started only brings its answers. -/
def applyChunks : Db → List Chunk → Db × List (Result Nat)
  | db, [] => (db, [])
  | db, .fly g :: rest =>
    let (db, rs) := groupApply db g
    let (db, rest) := applyChunks db rest
    (db, rs ++ rest)
  | db, .done rs :: rest =>
    let (db, rest) := applyChunks db rest
    (db, rs ++ rest)

def Chunk.failIo (e : CoreError) : Chunk → List (Result Nat)
  | .fly g => Group.failIo g e
  | .done rs => rs

def Chunk.unstage (db : Db) : Chunk → Db
  | .fly g => unstageUnapplied db g
  | .done _ => db

/-- The staging buffer and the frame's job are dropped and the log is cut to what was
committed of it. -/
def Wal.discardUncommitted (w : Wal) : Wal := { w with staged := [] }

/-- Take in the late chunks, write the frame off the lock, then apply and publish, or
fence and fail everyone. -/
def finishGroupOffLock (db : Db) (g : GroupInFlight) (late : List Wave) (io : FrameIo) :
    Db × List (Result Nat) :=
  let db := stageUnapplied db g
  let (db, rest) := startChunks db late
  let chunks := Chunk.fly g :: rest
  let needSync := chunks.any Chunk.needsSync
  let pubSeq := (chunks.map Chunk.maxAppendedSeq).foldl max 0
  match writeFrame db.wal needSync io with
  | (wal, some e) =>
    let db := chunks.foldl Chunk.unstage { db with wal := wal }
    ({ db with durabilityFenced := true, wal := db.wal.discardUncommitted },
      chunks.flatMap (Chunk.failIo e))
  | (wal, none) =>
    let (db, results) := applyChunks { db with wal := wal } chunks
    (db.publishSequence pubSeq, results)

def fewerResults : CoreError := .internal "write group leader produced fewer results than members"

/-- Hand the results to the members by position. The verdict of optimistic validation
goes first, and a member the results do not reach is told so. -/
def replies : List PendingWrite → List (Result Nat) → List (Result Nat)
  | [], _ => []
  | p :: ps, [] =>
    (match p.occErr with | some e => .error e | none => .error fewerResults) :: replies ps []
  | p :: ps, r :: rs => (match p.occErr with | some e => .error e | none => r) :: replies ps rs

/-- One round of the leader: the store after it, and what each member taken in is
told. -/
def lead (db : Db) (s : Schedule) : Db × List (Result Nat) :=
  match groupStart db s.start.inputs s.start.io with
  | (db, .error results) => (db, replies s.start.members results)
  | (db, .ok g) =>
    let (db, g) := absorbWaves db g s.absorbed
    let (db, results) := finishGroupOffLock db g s.chunks s.io
    (db, replies s.members results)

end PedraDb.Group
