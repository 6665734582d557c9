import PedraDb.Batch

/-! Reading: versions, range tombstones and layers.

A table (a memtable or a sorted file) is the list of the operations put into it. Its
answer for a key is its newest version of that key, hidden by a newer range tombstone;
a lookup walks the tables from the newest one down and stops at the first that holds a
version of the key. Between the memtables and the files it asks the bulk runs, the
arrays that sorted ingest appends to without a log. -/
namespace PedraDb
open List

abbrev Table := List WriteOp

/-- Half-open cover `[start, stop)`. -/
def rangeTombstoneCovers (start stop key : Key) : Bool := decide (start ≤ key) && decide (key < stop)

/-- Whether a write touches a key: a point write its own, a range deletion all it
covers. -/
def writeOpCoversKey (kind : ValueType) (start stop key : Key) : Bool :=
  match kind with
  | .rangeDeletion => rangeTombstoneCovers start stop key
  | .value | .deletion => start == key

def WriteOp.covers (op : WriteOp) (key : Key) : Bool := writeOpCoversKey op.kind op.key op.value key

/-- Whether a write touches a key of `[start, stop)`. -/
def WriteOp.overlaps (op : WriteOp) (start stop : Key) : Bool :=
  match op.kind with
  | .rangeDeletion => decide (op.key < stop) && decide (start < op.value)
  | .value | .deletion => decide (start ≤ op.key) && decide (op.key < stop)

def ValueType.rank : ValueType → Nat
  | .deletion => 0
  | .value => 1
  | .rangeDeletion => 2

/-- The larger sequence is newer, then the larger kind. -/
def versionNewer (a b : WriteOp) : Bool :=
  decide (b.sequence < a.sequence) || (a.sequence == b.sequence && decide (b.kind.rank < a.kind.rank))

/-- The newest version stored under `key` and visible at `snap`; a range deletion is
stored under its start. -/
def newestVersion (key : Key) (snap : Nat) : Table → Option WriteOp
  | [] => none
  | v :: rest =>
    let best := newestVersion key snap rest
    if v.key == key && decide (v.sequence ≤ snap) then
      match best with
      | none => some v
      | some b => if versionNewer v b then some v else some b
    else best

/-- The range tombstones visible at `snap`. -/
def collectRangeTombstones (snap : Nat) (t : Table) : List WriteOp :=
  t.filter fun v => v.kind == .rangeDeletion && decide (v.sequence ≤ snap)

/-- Some tombstone covers the key and is newer than `pointSeq`. -/
def rangeDeleted (key : Key) (pointSeq : Nat) (tombs : List WriteOp) : Bool :=
  tombs.any fun t => rangeTombstoneCovers t.key t.value key && decide (pointSeq < t.sequence)

inductive Lookup where
  | found (value : Value)
  | deleted
  | notFound
  deriving DecidableEq

/-- The newest point version of a table with its sequence. The newest entry under the
key may be a range deletion that starts there, and then the table has no point. -/
def getEntry (t : Table) (key : Key) (snap : Nat) : Option (Nat × Lookup) :=
  match newestVersion key snap t with
  | none => none
  | some v =>
    match v.kind with
    | .rangeDeletion => none
    | .deletion => some (v.sequence, .deleted)
    | .value =>
      if rangeDeleted key v.sequence (collectRangeTombstones snap t) then some (v.sequence, .deleted)
      else some (v.sequence, .found v.value)

/-- A point that a tombstone of some newer table may hide. -/
def shadowed (key : Key) (seq : Nat) (tombs : List WriteOp) : Lookup → Lookup
  | .found v => if rangeDeleted key seq tombs then .deleted else .found v
  | look => look

/-- The walk from the newest table down; the tombstones met on the way go with it. -/
def walk (key : Key) (snap : Nat) : List Table → List WriteOp → Option Lookup × List WriteOp
  | [], tombs => (none, tombs)
  | t :: rest, tombs =>
    let tombs := tombs ++ collectRangeTombstones snap t
    match getEntry t key snap with
    | some (seq, look) => (some (shadowed key seq tombs look), tombs)
    | none => walk key snap rest tombs

/-! ### Bulk runs -/

/-- A bulk run: its entries and the family it is filed under. -/
structure BulkRun where
  family : Key
  entries : List WriteOp
  deriving DecidableEq

def cfPrefix (key : Key) : Key := if key.contains 0 then key.takeWhile (· != 0) else []

def defaultFamily : Key := [0x64, 0x65, 0x66, 0x61, 0x75, 0x6c, 0x74]

/-- The family whose run a key belongs to: its prefix if that is a physical family. -/
def bulkFamilyOfKey (physicalCfs : List Key) (key : Key) : Key :=
  if physicalCfs = [] then defaultFamily
  else if cfPrefix key = [] then defaultFamily
  else if physicalCfs.contains (cfPrefix key) then cfPrefix key else defaultFamily

def BulkRun.lookup (run : BulkRun) (key : Key) (snap : Nat) : Lookup :=
  match run.entries.find? (fun v => v.key == key) with
  | none => .notFound
  | some v =>
    if snap < v.sequence then .notFound
    else match v.kind with
      | .value => .found v.value
      | .deletion => .deleted
      | .rangeDeletion => .notFound

def BulkRun.hasWriteAfter (run : BulkRun) (key : Key) (snap : Nat) : Bool :=
  run.entries.any fun v => v.key == key && decide (snap < v.sequence)

/-- The first run of the family that knows the key. A memtable tombstone over the key
hides the run's value whatever its sequence. -/
def lookupRuns (key : Key) (snap : Nat) (family : Key) (tombs : List WriteOp) :
    List BulkRun → Option Lookup
  | [] => none
  | run :: rest =>
    if run.family = family then
      match run.lookup key snap with
      | .notFound => lookupRuns key snap family tombs rest
      | .found v => some (if rangeDeleted key 0 tombs then .deleted else .found v)
      | .deleted => some .deleted
    else lookupRuns key snap family tombs rest

/-- The visible version of `key` at `snap`: memtables first, then the bulk runs, then
the files, each from the newest down. -/
def lookupLayers (layers : List Table) (runs : List BulkRun) (family : Key) (files : List Table)
    (key : Key) (snap : Nat) : Lookup :=
  match walk key snap layers [] with
  | (some look, _) => look
  | (none, tombs) =>
    match lookupRuns key snap family tombs runs with
    | some look => look
    | none =>
      match walk key snap files tombs with
      | (some look, _) => look
      | (none, tombs) => if rangeDeleted key 0 tombs then .deleted else .notFound

def Lookup.value : Lookup → Option Value
  | .found v => some v
  | .deleted | .notFound => none

theorem newestVersion_mem {t : Table} {key : Key} {snap : Nat} {v : WriteOp}
    (h : newestVersion key snap t = some v) : v ∈ t ∧ v.key = key ∧ v.sequence ≤ snap := by
  induction t with
  | nil => cases h
  | cons w t ih =>
    simp only [newestVersion] at h
    split at h
    · rename_i hw
      simp only [Bool.and_eq_true, beq_iff_eq, decide_eq_true_eq] at hw
      split at h
      · cases h
        exact ⟨mem_cons_self, hw⟩
      · split at h
        · cases h
          exact ⟨mem_cons_self, hw⟩
        · cases h
          exact (ih (by assumption)).imp_left (mem_cons_of_mem _)
    · exact (ih h).imp_left (mem_cons_of_mem _)

theorem newestVersion_ge {t : Table} {key : Key} {snap : Nat} {op : WriteOp} (hop : op ∈ t)
    (hkey : op.key = key)
    (hseq : op.sequence ≤ snap) : ∃ v, newestVersion key snap t = some v ∧ op.sequence ≤ v.sequence := by
  induction t with
  | nil => cases hop
  | cons w t ih =>
    simp only [newestVersion]
    rcases mem_cons.mp hop with rfl | hop
    · have hw : (op.key == key && decide (op.sequence ≤ snap)) = true := by simp [hkey, hseq]
      rw [if_pos hw]
      cases newestVersion key snap t with
      | none => exact ⟨op, rfl, .refl⟩
      | some b =>
        by_cases hnew : versionNewer op b = true
        · exact ⟨op, if_pos hnew, .refl⟩
        · refine ⟨b, if_neg hnew, ?_⟩
          simp only [versionNewer, Bool.or_eq_true, decide_eq_true_eq, not_or, Nat.not_lt] at hnew
          exact hnew.1
    · obtain ⟨b, hb, hle⟩ := ih hop
      rw [hb]
      split
      · by_cases hnew : versionNewer w b = true
        · refine ⟨w, if_pos hnew, ?_⟩
          simp only [versionNewer, Bool.or_eq_true, Bool.and_eq_true, decide_eq_true_eq,
            beq_iff_eq] at hnew
          omega
        · exact ⟨b, if_neg hnew, hle⟩
      · exact ⟨b, rfl, hle⟩

/-- Nothing that is stored under the key and visible is newer. -/
theorem newestVersion_top {t : Table} {key : Key} {snap : Nat} {op v : WriteOp}
    (h : newestVersion key snap t = some v) (hop : op ∈ t) (hkey : op.key = key)
    (hseq : op.sequence ≤ snap) : versionNewer op v = false := by
  induction t generalizing v with
  | nil => cases hop
  | cons w t ih =>
    simp only [newestVersion] at h
    by_cases hw : (w.key == key && decide (w.sequence ≤ snap)) = true
    · rw [if_pos hw] at h
      cases hbest : newestVersion key snap t with
      | none =>
        simp only [hbest, Option.some.injEq] at h
        rcases mem_cons.mp hop with rfl | hop
        · simp [h, versionNewer]
        · obtain ⟨u, hu, _⟩ := newestVersion_ge hop hkey hseq
          simp [hbest] at hu
      | some b =>
        have hrest : op ∈ t → versionNewer op b = false := fun hop => ih hbest hop
        simp only [hbest] at h
        split at h
        · rename_i hnew
          cases h
          rcases mem_cons.mp hop with rfl | hop
          · simp [versionNewer]
          · have := hrest hop
            simp only [versionNewer, Bool.or_eq_true, Bool.or_eq_false_iff, Bool.and_eq_true,
              Bool.and_eq_false_iff, decide_eq_true_eq, decide_eq_false_iff_not, beq_iff_eq,
              beq_eq_false_iff_ne] at hnew this ⊢
            omega
        · rename_i hold
          cases h
          rcases mem_cons.mp hop with rfl | hop
          · simpa using hold
          · exact hrest hop
    · rw [if_neg hw] at h
      rcases mem_cons.mp hop with rfl | hop
      · simp [hkey, hseq] at hw
      · exact ih h hop

/-! ### What a snapshot does not see -/

section Above
variable {key : Key} {snap : Nat} {ops : List WriteOp} (hops : ∀ op ∈ ops, snap < op.sequence)
include hops

theorem newestVersion_none : newestVersion key snap ops = none := by
  induction ops with
  | nil => rfl
  | cons op ops ih =>
    have hop : ¬ op.sequence ≤ snap := Nat.not_le.mpr (hops op (by simp))
    simpa [newestVersion, hop] using ih fun o ho => hops o (mem_cons_of_mem _ ho)

theorem newestVersion_above (t : Table) : newestVersion key snap
    (t ++ ops) = newestVersion key snap t := by
  induction t with
  | nil => exact newestVersion_none hops
  | cons v t ih => simp [newestVersion, ih]

theorem collectRangeTombstones_nil : collectRangeTombstones snap ops = [] := by
  refine filter_eq_nil_iff.mpr fun op hop => ?_
  simp [Nat.not_le.mpr (hops op hop)]

theorem collectRangeTombstones_above (t : Table) :
    collectRangeTombstones snap (t ++ ops) = collectRangeTombstones snap t := by
  have hnone := collectRangeTombstones_nil hops
  simp only [collectRangeTombstones, filter_append] at hnone ⊢
  rw [hnone, append_nil]

end Above

end PedraDb
