import PedraDb.Files

/-! What a store keeps on disk, and how the log is let go.

A commit goes to the log and to the memtable. A memtable that was switched out is written
to files, one for each column family it has keys of; the files are durable only once a
MANIFEST lists them, and that is put off. While it is, a full log segment is not dropped
but renamed into an archive, and a reopen replays of the archives what lies above the
highest sequence listed for the key's family. Sorted ingest writes no log at all: its runs
are installed as files of the bottom level.

All I/O succeeds here, and a commit is logged and applied in one step. The change log, a
cache of the feed, is kept only as far as it decides what becomes of the segments: the
sequence a store of it covers is an argument. The operations ever logged, acknowledged
with sync, moved into runs and flushed are recorded on the side. -/
namespace PedraDb.Durable

/-! ### Files -/

def maxLsmLevel : Nat := 3

/-- A file: its family, its level, its entries. Files of several families have none. -/
structure Sst where
  family : Key
  level : Nat
  table : Table
  deriving DecidableEq

def maxSequence (t : Table) : Nat := (t.map WriteOp.sequence).foldr max 0

/-- The file of a bulk run. It is an array of puts: the kinds of the entries are not
written. -/
def writeSstBulkArrays (run : BulkRun) : Table := run.entries.map fun v => .put v.sequence v.key v.value

/-- The files of the store and what a MANIFEST records beside them. `flushed` are the
operations that memtables brought into files. -/
structure Inventory where
  ssts : List Sst
  earliestReadableSeq : Nat
  flushed : List WriteOp
  deriving DecidableEq

def Inventory.entries (inv : Inventory) : List WriteOp := inv.ssts.flatMap Sst.table

def sstMaxSequenceFloor (inv : Inventory) : Nat := (inv.ssts.map fun f => maxSequence f.table).foldr max 0

/-- The family of a file that is opened. One that is listed without a family is given one by
its bounds, and if these are of two it counts as `default`. -/
def Sst.openedCf (lossy : Lossy) (f : Sst) : Key :=
  let cf :=
    if f.family = [] then
      inferSstCf lossy (smallestUserKey f.table) (openedLargestUserKey f.table)
    else f.family
  if cf = [] then defaultFamily else cf

/-- The highest sequence in a file of a family. -/
def cfManifestFloor (lossy : Lossy) (inv : Inventory) (family : Key) : Nat :=
  sstMaxSequenceFloor { inv with ssts := inv.ssts.filter fun f => f.openedCf lossy == family }

/-! ### The store -/

structure Config where
  lossy : Lossy
  physicalCfs : List Key
  /-- Synced commits between two stores of the change log; 0 leaves them to flushes. -/
  changelogInterval : Nat
  changelogFlushDebounce : Nat
  walArchiveCap : Nat
  /-- Whether a bulk install pays for its MANIFEST at once. -/
  sync : Bool

/-- The label of a file by the bounds its writer gives it. -/
def Config.label (cfg : Config) (t : Table) : Key :=
  inferSstCf cfg.lossy (smallestUserKey t) (largestUserKey t)

/-- The files of a flushed memtable. -/
def writeImmL0Files (cfg : Config) (level : Key → Nat) (t : Table) : List Sst :=
  (flushFiles cfg.lossy cfg.physicalCfs t).map fun f => ⟨f.1, level f.1, f.2⟩

structure State where
  nextSeq : Nat
  publishedSeq : Nat
  mem : Table
  imm : Option Table
  bulkRuns : List BulkRun
  parkedBulk : List BulkRun
  bulkEncodings : List BulkRun
  bulkManifestDebt : Nat
  inventory : Inventory
  /-- The live segment: what is in the file, and what is staged for it. -/
  wal : List WriteOp
  staged : List WriteOp
  /-- The archived segments, the oldest first. -/
  archives : List (List WriteOp)
  walArchiveMaxSeq : Nat
  changelogDiskWatermark : Nat
  changelogFlushesSinceStore : Nat
  manifestPublishedSeq : Nat
  manifestDirty : Bool
  unpublishedBelowFloor : Bool
  /-- The highest sequence that was given out without a log record. -/
  wallessSeqHigh : Nat
  manifestEpoch : Nat
  /-- MANIFESTs taken under the lock and not yet written, with their epochs. -/
  pending : List (Nat × Inventory)
  /-- The MANIFEST that CURRENT names, and its epoch. -/
  current : Inventory
  writtenEpoch : Nat
  logged : List WriteOp
  acked : List WriteOp
  /-- The memtable entries that went into bulk runs. -/
  absorbed : List WriteOp

def Inventory.empty : Inventory := ⟨[], 0, []⟩

/-- A new store; opening it writes the first MANIFEST. -/
def State.empty : State :=
  { nextSeq := 1, publishedSeq := 0, mem := [], imm := none, bulkRuns := [], parkedBulk := [],
    bulkEncodings := [],
    bulkManifestDebt := 0, inventory := .empty, wal := [], staged := [], archives :=
    [], walArchiveMaxSeq := 0,
    changelogDiskWatermark := 0, changelogFlushesSinceStore := 0, manifestPublishedSeq :=
    0, manifestDirty := false,
    unpublishedBelowFloor := false, wallessSeqHigh := 0, manifestEpoch := 0, pending :=
    [], current := .empty,
    writtenEpoch := 0, logged := [], acked := [], absorbed := [] }

def walArchiveUnlinkBudget : Nat := 4
def bulkManifestEvery : Nat := 4

namespace State
variable (cfg : Config) (s : State)

def lastSequence : Nat := s.nextSeq - 1

/-! ### Writes -/

/-- A sync puts the staged frames and the new one into the file. -/
def appendRecord (recs : List WriteOp) (sync : Bool) : State :=
  if sync then { s with wal := s.wal ++ s.staged ++ recs, staged := [], acked := s.acked ++ recs }
  else { s with staged := s.staged ++ recs }

/-- A commit: numbered, logged, applied, published. -/
def commitOps (ops : List BatchOp) (sync : Bool) : Option State :=
  let recs := stampedFrom s.nextSeq ops
  let last := s.nextSeq + ops.length - 1
  if ops.isEmpty || seqExhausted last maxAssignableSequenceNumber then none
  else
    some
      { appendRecord s recs sync with
        nextSeq := s.nextSeq + ops.length
        publishedSeq := max s.publishedSeq last
        mem := s.mem ++ recs
        logged := s.logged ++ recs }

/-- The memtable and the runs once the family has a run, and the entries that moved. -/
def openRun (family : Key) : Table × List BulkRun × Table :=
  if s.bulkRuns.any fun run => run.family == family then (s.mem, s.bulkRuns, [])
  else
    ((absorbMemFamilyIntoRun s.mem s.bulkRuns family).1,
      (absorbMemFamilyIntoRun s.mem s.bulkRuns family).2,
      (takeFamily s.mem family).1)

/-- A run over its capacity waits for its file. -/
def parkRun (family : Key) : State :=
  { s with
    bulkRuns := s.bulkRuns.filter fun run => run.family != family
    parkedBulk := s.parkedBulk ++ s.bulkRuns.filter fun run => run.family == family }

/-- Puts of a latched family go to its run, past the log. -/
def bulkAppendPuts (family : Key) (puts : List (Key × Value)) (full : Bool) : Option State :=
  let last := s.nextSeq + puts.length - 1
  if puts.isEmpty || !(puts.all fun p => bulkFamilyOfKey cfg.physicalCfs p.1 == family) ||
      seqExhausted last maxAssignableSequenceNumber then none
  else
    let s' :=
      { s with
        nextSeq := s.nextSeq + puts.length
        publishedSeq := max s.publishedSeq last
        mem := (s.openRun family).1
        bulkRuns := pushRun family (numberPuts s.nextSeq (sortBulkKeyVals puts)) (s.openRun family).2.1
        absorbed := s.absorbed ++ (s.openRun family).2.2
        wallessSeqHigh := max s.wallessSeqHigh last }
    some (if full then parkRun s' family else s')

/-- The one put beside a latched span goes to the memtable, past the log. -/
def tailPut (key : Key) (value : Value) : Option State :=
  if seqExhausted s.nextSeq maxAssignableSequenceNumber then none
  else
    some
      { s with
        nextSeq := s.nextSeq + 1
        publishedSeq := max s.publishedSeq s.nextSeq
        mem := s.mem ++ [.put s.nextSeq key (escapeInlineValue value)]
        wallessSeqHigh := max s.wallessSeqHigh s.nextSeq }

/-- Reserve the next epoch for the files as they are; the write comes later, off the
lock. -/
def takeManifestPersist : State :=
  { s with manifestEpoch := s.manifestEpoch + 1, pending := s.pending ++
    [(s.manifestEpoch + 1, s.inventory)] }

/-- Write a MANIFEST that was taken, unless a newer one is written. -/
def writeManifest (i : Nat) : Option State :=
  match s.pending[i]? with
  | none => none
  | some (epoch, inv) =>
    let s := { s with pending := s.pending.eraseIdx i }
    some (if epoch ≤ s.writtenEpoch then s else { s with current := inv, writtenEpoch := epoch })

def persistManifest : State :=
  { s with
    manifestEpoch := s.manifestEpoch + 1
    writtenEpoch := s.manifestEpoch + 1
    current := s.inventory
    manifestPublishedSeq := sstMaxSequenceFloor s.inventory
    manifestDirty := false
    unpublishedBelowFloor := false }

/-! ### Flushes and installs -/

def switchActiveToImm : Option State :=
  if s.imm.isSome || s.mem.isEmpty then none else some { s with mem := [], imm := some s.mem }

/-- Entries at or below the published floor are not replayed from an archive. -/
def belowFloor (t : Table) : Bool := t.any fun v => decide (v.sequence ≤ s.manifestPublishedSeq)

def flushImmToL0 (level : Key → Nat) : Option State :=
  match s.imm with
  | none => none
  | some t =>
    some
      { s with
        imm := none
        unpublishedBelowFloor := s.unpublishedBelowFloor || s.belowFloor t
        inventory :=
          { s.inventory with
            ssts := s.inventory.ssts ++ writeImmL0Files cfg level t
            flushed := s.inventory.flushed ++ t }
        manifestDirty := true }

/-- A bulk install pays for its MANIFEST, or every fourth time takes one to be written
later. -/
def persistBulkManifest : State :=
  if cfg.sync then persistManifest { s with bulkManifestDebt := 0 }
  else if s.bulkManifestDebt + 1 < bulkManifestEvery
    then { s with bulkManifestDebt := s.bulkManifestDebt + 1 }
  else takeManifestPersist { s with bulkManifestDebt := 0 }

/-- The file of a run is part of the store. -/
def installBulkRun (run : BulkRun) : State :=
  persistBulkManifest cfg
    { s with
      inventory :=
        { s.inventory with ssts := s.inventory.ssts ++
          [⟨run.family, maxLsmLevel, writeSstBulkArrays run⟩] }
      manifestDirty := true }

/-- A run is written and installed under the lock. -/
def flushBulkRun (family : Key) : Option State :=
  match s.bulkRuns.find? fun run => run.family == family with
  | none => none
  | some run =>
    some (installBulkRun cfg { s with bulkRuns := s.bulkRuns.filter fun r =>
      r.family != family } run)

/-- The oldest parked run is pinned while its file is written. -/
def popParkedBulkJob : Option State :=
  match s.parkedBulk with
  | [] => none
  | run :: rest => some { s with parkedBulk := rest, bulkEncodings := s.bulkEncodings ++ [run] }

def finishBulkSst (i : Nat) : Option State :=
  match s.bulkEncodings[i]? with
  | none => none
  | some run => some (installBulkRun cfg { s with bulkEncodings := s.bulkEncodings.eraseIdx i } run)

/-- Drop the oldest archived segments once a MANIFEST covers all of them. -/
def deleteWalArchives : State :=
  if s.manifestPublishedSeq < s.walArchiveMaxSeq then s
  else { s with archives := s.archives.drop walArchiveUnlinkBudget }

/-- Store the change log; `stored` is the sequence the file then covers, if the store
succeeds. -/
def persistChangelogBestEffort (stored : Option Nat) : State :=
  match stored with
  | none => s
  | some watermark =>
    let s := { s with changelogFlushesSinceStore := 0, changelogDiskWatermark := watermark }
    if s.lastSequence ≤ watermark then s.deleteWalArchives else s

def changelogStoreGateFires : Bool :=
  cfg.changelogInterval == 0 && decide (s.changelogDiskWatermark < s.lastSequence) &&
    (decide (cfg.changelogFlushDebounce ≤ s.changelogFlushesSinceStore) ||
      decide (cfg.walArchiveCap ≤ s.archives.length))

def persistChangelogAfterExplicitFlush (stored : Option Nat) : State :=
  if cfg.changelogInterval == 0 then
    let s := { s with changelogFlushesSinceStore := s.changelogFlushesSinceStore + 1 }
    if s.changelogStoreGateFires cfg then s.persistManifest.persistChangelogBestEffort stored else s
  else s

/-! ### Rotation -/

/-- Every way the memtables still depend on the log. -/
def walRotateDecision : Bool := s.mem.isEmpty && s.imm.isNone

def wallessCovered : Bool := decide (s.wallessSeqHigh ≤ s.manifestPublishedSeq)

def feedNeedsSegment : Bool :=
  if cfg.changelogInterval == 0 then decide (s.manifestPublishedSeq < s.lastSequence)
  else decide (s.changelogDiskWatermark < s.lastSequence)

def settled : Bool := !s.manifestDirty && s.wallessCovered && !s.feedNeedsSegment cfg

def archiveNow : Bool :=
  s.wallessCovered && !s.unpublishedBelowFloor &&
    (!s.settled cfg && decide (s.archives.length < cfg.walArchiveCap))

/-- The rotation writes a MANIFEST before it lets the segment go. -/
def publishesFirst : Bool := !s.settled cfg && (!s.archiveNow cfg || s.changelogStoreGateFires cfg)

/-- The rotation up to the point where it renames the segment or truncates it. -/
def prepareRotation (stored : Option Nat) : State :=
  let published := if s.publishesFirst cfg then s.persistManifest else s
  if decide (0 < cfg.changelogInterval) || s.changelogStoreGateFires cfg then
    published.persistChangelogBestEffort stored
  else published

def drainStaged : State := { s with wal := s.wal ++ s.staged, staged := [] }

def archiveSegment : State :=
  { s with archives := s.archives ++
    [s.wal], walArchiveMaxSeq := max s.walArchiveMaxSeq s.lastSequence, wal := [] }

def truncateSegment : State := { s with wal := [] }

def rotateWalNow (stored : Option Nat) : State :=
  let s := (s.prepareRotation cfg stored).drainStaged
  if s.archiveNow cfg then s.archiveSegment else s.truncateSegment

/-- Rotate once the memtables are empty; an empty segment stays. -/
def tryRotateWal (stored : Option Nat) : State :=
  if s.walRotateDecision then
    if s.drainStaged.wal.isEmpty then s.drainStaged else s.drainStaged.rotateWalNow cfg stored
  else s

end State

end PedraDb.Durable
