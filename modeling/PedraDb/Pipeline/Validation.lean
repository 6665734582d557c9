import PedraDb.Pipeline.Publication

/-! What the validation of an optimistic transaction rules out.

A write and an operation of a batch are about the same thing if their spans agree: a key
or a range of keys. The probes of the store find every write after the snapshot that
touches the transaction, as long as no range deletion in a table is empty; the leader's
lists find every operation it has let through before. -/
namespace PedraDb
open List WriteOp
variable {t : Txn} {seq : Nat} {key : Key} {spill : Value → Result Value}

/-! ### Spans -/

inductive Span where
  | point (key : Key)
  | range (start stop : Key)
  deriving DecidableEq

namespace Span

def covers : Span → Key → Bool
  | .point k, key => k == key
  | .range start stop, key => rangeTombstoneCovers start stop key

def overlaps : Span → Key → Key → Bool
  | .point k, start, stop => decide (start ≤ k) && decide (k < stop)
  | .range a b, start, stop => decide (a < stop) && decide (start < b)

/-- Whether an operation of a transaction is about a key of the span. An empty range has
no keys. -/
def touches (span : Span) : BatchOp → Bool
  | .put key _ | .delete key => span.covers key
  | .deleteRange start stop => decide (start < stop) && span.overlaps start stop

end Span

def BatchOp.span : BatchOp → Span
  | .put key _ | .delete key => .point key
  | .deleteRange start stop => .range start stop

def WriteOp.span (op : WriteOp) : Span :=
  match op.kind with
  | .rangeDeletion => .range op.key op.value
  | .value | .deletion => .point op.key

theorem WriteOp.span_covers (op : WriteOp) (key : Key) : op.span.covers key = op.covers key := by
  simp only [span, covers, writeOpCoversKey]
  cases op.kind <;> rfl

theorem WriteOp.span_overlaps (op : WriteOp) (start stop : Key) :
    op.span.overlaps start stop = op.overlaps start stop := by
  simp only [span, overlaps]
  cases op.kind <;> rfl

theorem record_span {op : BatchOp} {r : WriteOp} (h : record spill seq op = .ok r) :
    r.span = op.span := by
  cases op with
  | put key value =>
    simp only [record, Except.map] at h
    split at h
    · cases h
    · cases h
      rfl
  | delete key =>
    cases h
    rfl
  | deleteRange start stop =>
    cases h
    rfl

/-- A range deletion in a table is not empty, and sequences leave room for the largest. -/
def WriteOp.proper (op : WriteOp) : Prop :=
  (op.kind = .rangeDeletion → op.key < op.value) ∧ op.sequence ≤ maxSequenceNumber

def BatchOp.nonempty : BatchOp → Bool
  | .put _ _ | .delete _ => true
  | .deleteRange start stop => decide (start < stop)

theorem record_proper {op : BatchOp} {r : WriteOp}
    (h : record spill seq op = .ok r) (hne : op.nonempty = true)
    (hmax : seq ≤ maxAssignableSequenceNumber) : r.proper := by
  have hseq := (record_ok h).2
  refine ⟨fun hkind => ?_, ?_⟩
  · cases op with
    | put key value | delete key => simp [(Prod.mk.inj (record_ok h).1).1] at hkind
    | deleteRange start stop =>
      cases h
      have hlt : start < stop := by simpa [BatchOp.nonempty] using hne
      exact hlt
  · rw [hseq]
    exact le_trans hmax (by decide)

/-! ### The probe of a table -/

section Table
variable {t : Table} {snap : Nat} {op : WriteOp}

/-- No range deletion that starts at the point's key is as new as the point. -/
def Atop (t : Table) (op : WriteOp) : Prop :=
  ∀ r ∈ t, r.kind = .rangeDeletion → r.key = op.key → r.sequence < op.sequence

section Max
variable (hmax : ∀ v ∈ t, v.sequence ≤ maxSequenceNumber)
include hmax

theorem tombstoneAfter_iff : tombstoneAfter t key snap = true ↔
    ∃ op ∈ t, op.kind = .rangeDeletion ∧ snap < op.sequence ∧ op.covers key = true := by
  simp only [tombstoneAfter, collectRangeTombstones, any_eq_true, mem_filter, Bool.and_eq_true,
    beq_iff_eq, decide_eq_true_eq]
  constructor
  · rintro ⟨v, ⟨hv, hkind, _⟩, hseq, hcovers⟩
    exact ⟨v, hv, hkind, hseq, (Layers.covers_range hkind).trans hcovers⟩
  · rintro ⟨v, hv, hkind, hseq, hcovers⟩
    exact ⟨v, ⟨hv, hkind, hmax v hv⟩, hseq, (Layers.covers_range hkind).symm.trans hcovers⟩

/-- A memtable answers with the newest entry of the key, which is none if that is a range
deletion. -/
theorem getEntry_after :
    ((getEntry t key maxSequenceNumber).any fun p => decide (snap < p.1)) = true ↔
      ∃ op ∈ t, op.kind ≠ .rangeDeletion ∧ op.key = key ∧ snap < op.sequence ∧ Atop t op := by
  cases hv : newestVersion key maxSequenceNumber t with
  | none =>
    simp only [getEntry, hv, Option.any_none, Bool.false_eq_true, false_iff, not_exists, not_and]
    intro op hop _ hkey
    obtain ⟨v, hsome, _⟩ := newestVersion_ge hop hkey (hmax op hop)
    simp [hv] at hsome
  | some v =>
    have hge : ∀ op ∈ t, op.key = key → op.sequence ≤ v.sequence := by
      intro op hop hkey
      obtain ⟨v', hv', hle⟩ := newestVersion_ge hop hkey (hmax op hop)
      cases hv.symm.trans hv'
      exact hle
    obtain ⟨hmem, hvkey, _⟩ := newestVersion_mem hv
    by_cases hkind : v.kind = .rangeDeletion
    · simp only [getEntry, hv, hkind, Option.any_none, Bool.false_eq_true, false_iff, not_exists,
        not_and]
      intro op hop _ hkey _ hatop
      have := hatop v hmem hkind (hvkey.trans hkey.symm)
      have := hge op hop hkey
      omega
    · have hentry : ((getEntry t key maxSequenceNumber).any fun p => decide (snap < p.1)) =
          decide (snap < v.sequence) := by
        simp only [getEntry, hv]
        split
        · exact absurd (by assumption) hkind
        · rfl
        · split <;> rfl
      rw [hentry, decide_eq_true_eq]
      constructor
      · refine fun hseq => ⟨v, hmem, hkind, hvkey, hseq, fun r hr hrkind hrkey => ?_⟩
        -- at the same sequence a range deletion is the newer entry
        have htop := newestVersion_top hv hr (hrkey.trans hvkey) (hmax r hr)
        have hrank : v.kind.rank < r.kind.rank := by
          cases hk : v.kind <;> simp_all [ValueType.rank]
        simp only [versionNewer, Bool.or_eq_false_iff, decide_eq_false_iff_not] at htop
        have := hge r hr (hrkey.trans hvkey)
        refine lt_of_le_of_ne this fun heq => ?_
        simp [heq, hrank] at htop
      · rintro ⟨op, hop, _, hkey, hseq, _⟩
        exact lt_of_lt_of_le hseq (hge op hop hkey)

theorem tableHasWriteAfter_iff : tableHasWriteAfter t key snap = true ↔
    ∃ op ∈ t, snap < op.sequence ∧ op.covers key = true ∧
      (op.kind ≠ .rangeDeletion → Atop t op) := by
  rw [tableHasWriteAfter, Bool.or_eq_true, getEntry_after hmax, tombstoneAfter_iff hmax]
  constructor
  · intro h
    rcases h with ⟨op, hop, hkind, hkey, hseq, hatop⟩ | ⟨op, hop, hkind, hseq, hcovers⟩
    · exact ⟨op, hop, hseq, (Layers.covers_point hkind).mpr hkey, fun _ => hatop⟩
    · exact ⟨op, hop, hseq, hcovers, fun hne => absurd hkind hne⟩
  · rintro ⟨op, hop, hseq, hcovers, hatop⟩
    by_cases hkind : op.kind = .rangeDeletion
    · exact .inr ⟨op, hop, hkind, hseq, hcovers⟩
    · exact .inl ⟨op, hop, hkind, (Layers.covers_point hkind).mp hcovers, hseq, hatop hkind⟩

/-- **The probe of a file is exact**: its newest point is not the newest entry of the key,
but the newest that is no range deletion. -/
theorem fileHasWriteAfter_iff : fileHasWriteAfter t key snap = true ↔
    ∃ op ∈ t, snap < op.sequence ∧ op.covers key = true := by
  rw [fileHasWriteAfter, Bool.or_eq_true, tombstoneAfter_iff hmax, pointAt]
  constructor
  · intro h
    rcases h with h | ⟨op, hop, _, hseq, hcovers⟩
    · cases hv : newestVersion key maxSequenceNumber (t.filter fun v => v.kind != .rangeDeletion) with
      | none => simp [hv] at h
      | some v =>
        obtain ⟨hmem, hkey, _⟩ := newestVersion_mem hv
        rw [mem_filter, bne_iff_ne] at hmem
        exact ⟨v, hmem.1, by simpa [hv] using h, (Layers.covers_point hmem.2).mpr hkey⟩
    · exact ⟨op, hop, hseq, hcovers⟩
  · rintro ⟨op, hop, hseq, hcovers⟩
    by_cases hkind : op.kind = .rangeDeletion
    · exact .inr ⟨op, hop, hkind, hseq, hcovers⟩
    · have hpoint : op ∈ t.filter fun v => v.kind != .rangeDeletion :=
        mem_filter.mpr ⟨hop, by simpa using hkind⟩
      obtain ⟨v, hv, hle⟩ := newestVersion_ge hpoint ((Layers.covers_point hkind).mp hcovers)
        (hmax op hop)
      exact .inl (by simpa [hv] using lt_of_lt_of_le hseq hle)

end Max

/-- A memtable without empty range deletions hides nothing: one that is newer than a point
of its start covers that key. -/
theorem tableHasWriteAfter_of_mem (hproper : ∀ v ∈ t, v.proper) (hop : op ∈ t)
    (hseq : snap < op.sequence) (hcovers : op.covers key = true) :
    tableHasWriteAfter t key snap = true := by
  refine (tableHasWriteAfter_iff fun v hv => (hproper v hv).2).mpr ?_
  by_cases h : op.kind ≠ .rangeDeletion → Atop t op
  · exact ⟨op, hop, hseq, hcovers, h⟩
  · simp only [Atop, Classical.not_imp, not_forall, Nat.not_lt] at h
    obtain ⟨hkind, r, hr, hrkind, hrkey, hle⟩ := h
    have hkey := hrkey.trans ((Layers.covers_point hkind).mp hcovers)
    refine ⟨r, hr, lt_of_lt_of_le hseq hle, ?_, fun hne => absurd hrkind hne⟩
    rw [Layers.covers_range hrkind, hkey]
    simp [rangeTombstoneCovers, hkey ▸ (hproper r hr).1 hrkind]

variable {start stop : Key}

/-- The write is about some key of `[start, stop)`. -/
def WriteOp.meets (op : WriteOp) (start stop : Key) : Prop :=
  ∃ key, start ≤ key ∧ key < stop ∧ op.covers key = true

theorem WriteOp.overlaps_point (hkind : op.kind ≠ .rangeDeletion) :
    op.overlaps start stop = true ↔ start ≤ op.key ∧ op.key < stop := by
  cases h : op.kind <;> simp_all [overlaps]

theorem WriteOp.overlaps_range (hkind : op.kind = .rangeDeletion) :
    op.overlaps start stop = true ↔ op.key < stop ∧ start < op.value := by
  simp [overlaps, hkind]

theorem WriteOp.meets_point (hkind : op.kind ≠ .rangeDeletion) :
    op.meets start stop ↔ start ≤ op.key ∧ op.key < stop := by
  simp only [meets, Layers.covers_point hkind]
  constructor
  · rintro ⟨key, hstart, hstop, hkey⟩
    exact hkey ▸ ⟨hstart, hstop⟩
  · exact fun ⟨hstart, hstop⟩ => ⟨op.key, hstart, hstop, rfl⟩

theorem WriteOp.overlaps_of_meets (h : op.meets start stop) : op.overlaps start stop = true := by
  by_cases hkind : op.kind = .rangeDeletion
  · obtain ⟨key, hstart, hstop, hcovers⟩ := h
    simp only [Layers.covers_range hkind, rangeTombstoneCovers, Bool.and_eq_true,
      decide_eq_true_eq] at hcovers
    exact (overlaps_range hkind).mpr
      ⟨List.lt_of_le_of_lt hcovers.1 hstop, List.lt_of_le_of_lt hstart hcovers.2⟩
  · exact (overlaps_point hkind).mpr ((meets_point hkind).mp h)

/-- The writes of a memtable that the probe of a range takes for one in it. -/
def InRange (start stop : Key) (op : WriteOp) : Prop :=
  op.kind = .rangeDeletion ∧ op.overlaps start stop = true ∨ start ≤ op.key ∧ op.key < stop

theorem inRange_of_overlaps (h : op.overlaps start stop = true) : InRange start stop op := by
  by_cases hkind : op.kind = .rangeDeletion
  · exact .inl ⟨hkind, h⟩
  · exact .inr ((overlaps_point hkind).mp h)

section Max
variable (hmax : ∀ v ∈ t, v.sequence ≤ maxSequenceNumber)
include hmax

theorem tombstoneMeets_iff : tombstoneMeets t start stop snap = true ↔
    ∃ op ∈ t, snap < op.sequence ∧ op.kind = .rangeDeletion ∧ op.overlaps start stop = true := by
  simp only [tombstoneMeets, collectRangeTombstones, any_eq_true, mem_filter, Bool.and_eq_true,
    beq_iff_eq, decide_eq_true_eq]
  constructor
  · rintro ⟨v, ⟨hv, hkind, _⟩, ⟨hseq, hstop⟩, hstart⟩
    exact ⟨v, hv, hseq, hkind, (overlaps_range hkind).mpr ⟨hstop, hstart⟩⟩
  · rintro ⟨v, hv, hseq, hkind, hover⟩
    obtain ⟨hstop, hstart⟩ := (overlaps_range hkind).mp hover
    exact ⟨v, ⟨hv, hkind, hmax v hv⟩, ⟨hseq, hstop⟩, hstart⟩

theorem tableRangeHasWriteAfter_iff : tableRangeHasWriteAfter t start stop snap = true ↔
    ∃ op ∈ t, snap < op.sequence ∧ InRange start stop op := by
  rw [tableRangeHasWriteAfter, Bool.or_eq_true, tombstoneMeets_iff hmax]
  simp only [any_eq_true, Bool.and_eq_true, decide_eq_true_eq, InRange]
  constructor
  · intro h
    rcases h with ⟨v, hv, hseq, htomb⟩ | ⟨v, hv, hin, hseq⟩
    · exact ⟨v, hv, hseq, .inl htomb⟩
    · exact ⟨v, hv, hseq, .inr hin⟩
  · rintro ⟨v, hv, hseq, h⟩
    rcases h with htomb | hin
    · exact .inl ⟨v, hv, hseq, htomb⟩
    · exact .inr ⟨v, hv, hin, hseq⟩

end Max

/-- A file that the range meets by its bounds counts every range deletion in it. -/
theorem SstFile.rangeHasWriteAfter_iff {f : SstFile}
    (hmax : ∀ v ∈ f.entries, v.sequence ≤ maxSequenceNumber) :
    f.rangeHasWriteAfter start stop snap = true ↔ ∃ op ∈ f.entries, snap < op.sequence ∧
      (InRange start stop op ∨
        op.kind = .rangeDeletion ∧ f.overlapsUserRange start stop = true) := by
  rw [SstFile.rangeHasWriteAfter, Bool.or_eq_true, tombstoneMeets_iff hmax]
  simp only [entriesInUserRange, any_eq_true, mem_filter, Bool.and_eq_true, Bool.or_eq_true,
    decide_eq_true_eq, beq_iff_eq]
  constructor
  · intro h
    rcases h with ⟨v, hv, hseq, htomb⟩ | ⟨⟨hover, _⟩, v, ⟨hv, hkind | hin⟩, hseq⟩
    · exact ⟨v, hv, hseq, .inl (.inl htomb)⟩
    · exact ⟨v, hv, hseq, .inr ⟨hkind, hover⟩⟩
    · exact ⟨v, hv, hseq, .inl (.inr hin)⟩
  · rintro ⟨v, hv, hseq, h⟩
    rcases h with (htomb | hin) | ⟨hkind, hover⟩
    · exact .inl ⟨v, hv, hseq, htomb⟩
    · exact .inr ⟨⟨SstFile.overlaps_of_mem hv hin.1 hin.2, v, hv, hseq⟩, v, ⟨hv, .inr hin⟩, hseq⟩
    · exact .inr ⟨⟨hover, v, hv, hseq⟩, v, ⟨hv, .inl hkind⟩, hseq⟩

end Table

/-! ### The probes of the store -/

variable {a a' : Accepted}

namespace Pipeline
variable {db : Db} {op : WriteOp} {snap : Nat}

/-- The write is in a table, or staged by a group on its way there. -/
def Db.knows (db : Db) (op : WriteOp) : Prop := db.stores op ∨ op ∈ db.unapplied

def Db.Proper (db : Db) : Prop := ∀ op, db.stores op → op.proper

/-- The write is in some source of the store. -/
def Db.written (db : Db) (op : WriteOp) : Prop :=
  db.knows op ∨ ∃ run ∈ db.bulkRuns, op ∈ run.entries

/-- Some write after the snapshot is about the key, in whatever source. -/
def Db.WrittenAfter (db : Db) (key : Key) (snap : Nat) : Prop :=
  ∃ op, db.written op ∧ snap < op.sequence ∧ op.covers key = true

/-- The entries that the probe of a key takes for a write of it. In a memtable a range
deletion hides the older points of its start; a bulk run is asked if it is filed under the
family of the key, and for entries stored under the key only. -/
inductive Db.InView (db : Db) (key : Key) (op : WriteOp) : Prop where
  | staged (hop : op ∈ db.unapplied) (hcovers : op.covers key = true)
  | mem (hop : op ∈ db.mem) (hcovers : op.covers key = true)
    (hatop : op.kind ≠ .rangeDeletion → Atop db.mem op)
  | file (f : SstFile) (hf : f ∈ db.ssts) (hop : op ∈ f.entries) (hcovers : op.covers key = true)
  | run (run : BulkRun) (hrun : run ∈ db.bulkRuns)
    (hfamily : run.family = bulkFamilyOfKey db.physicalCfs key) (hop : op ∈ run.entries)
    (hkey : op.key = key)

def Db.Seen (db : Db) (key : Key) (snap : Nat) : Prop :=
  ∃ op, db.InView key op ∧ snap < op.sequence

/-- When the probe of a key is right: wherever a write of the key after the snapshot is out
of its view, another one is in it, and wherever an empty range deletion of a bulk run is in
its view, some write of the key came after the snapshot. -/
structure Db.Clear (db : Db) (key : Key) (snap : Nat) : Prop where
  mem : ∀ op ∈ db.mem, snap < op.sequence → op.covers key = true → op.kind ≠ .rangeDeletion →
    ¬ Atop db.mem op → db.Seen key snap
  runs : ∀ run ∈ db.bulkRuns, ∀ op ∈ run.entries, snap < op.sequence → op.covers key = true →
    run.family ≠ bulkFamilyOfKey db.physicalCfs key ∨ op.key ≠ key → db.Seen key snap
  empty : ∀ run ∈ db.bulkRuns, run.family = bulkFamilyOfKey db.physicalCfs key →
    ∀ op ∈ run.entries, snap < op.sequence → op.key = key → op.covers key = false →
    db.WrittenAfter key snap

/-- The sequences of the tables leave room for the largest. -/
def Db.Bounded (db : Db) : Prop := ∀ op, db.stores op → op.sequence ≤ maxSequenceNumber

open Db

section Bounded
variable (hmax : db.Bounded)
include hmax

theorem keyHasWriteAfter_iff : db.keyHasWriteAfter key snap = true ↔ db.Seen key snap := by
  have hfile : ∀ f ∈ db.ssts, fileHasWriteAfter f.entries key snap = true ↔ _ := fun f hf =>
    fileHasWriteAfter_iff fun v hv => hmax v (.inr ⟨f, hf, hv⟩)
  simp only [keyHasWriteAfter, BulkRun.hasWriteAfter, Bool.or_eq_true, any_eq_true,
    Bool.and_eq_true, decide_eq_true_eq, beq_iff_eq,
    tableHasWriteAfter_iff fun v hv => hmax v (.inl hv)]
  constructor
  · intro h
    rcases h with ((⟨u, hu, hseq, hcovers⟩ | ⟨v, hv, hseq, hcovers, hatop⟩) | ⟨f, hf, hfound⟩) |
      ⟨run, hrun, hfamily, v, hv, hkey, hseq⟩
    · exact ⟨u, .staged hu hcovers, hseq⟩
    · exact ⟨v, .mem hv hcovers hatop, hseq⟩
    · obtain ⟨v, hv, hseq, hcovers⟩ := (hfile f hf).mp hfound
      exact ⟨v, .file f hf hv hcovers, hseq⟩
    · exact ⟨v, .run run hrun hfamily hv hkey, hseq⟩
  · rintro ⟨op, hview, hseq⟩
    cases hview with
    | staged hop hcovers => exact .inl (.inl (.inl ⟨op, hop, hseq, hcovers⟩))
    | mem hop hcovers hatop => exact .inl (.inl (.inr ⟨op, hop, hseq, hcovers, hatop⟩))
    | file f hf hop hcovers =>
      exact .inl (.inr ⟨f, hf, (hfile f hf).mpr ⟨op, hop, hseq, hcovers⟩⟩)
    | run run hrun hfamily hop hkey => exact .inr ⟨run, hrun, hfamily, op, hop, hkey, hseq⟩

end Bounded

/-- Some write after the snapshot is about a key of the range, in whatever source. -/
def Db.RangeWrittenAfter (db : Db) (start stop : Key) (snap : Nat) : Prop :=
  ∃ op, db.written op ∧ snap < op.sequence ∧ op.meets start stop

/-- The entries that the probe of a range takes for a write in it: what lies in the range
or meets it by the ends of a range deletion, and any range deletion of a file that meets
the range by its bounds. -/
inductive Db.InRangeView (db : Db) (start stop : Key) (op : WriteOp) : Prop where
  | staged (hop : op ∈ db.unapplied) (hover : op.overlaps start stop = true)
  | table (hop : db.stores op) (hin : InRange start stop op)
  | near (f : SstFile) (hf : f ∈ db.ssts) (hop : op ∈ f.entries) (hkind : op.kind = .rangeDeletion)
    (hover : f.overlapsUserRange start stop = true)

def Db.RangeSeen (db : Db) (start stop : Key) (snap : Nat) : Prop :=
  ∃ op, db.InRangeView start stop op ∧ snap < op.sequence

/-- When the probe of a range is right: wherever a bulk run has a write in the range after
the snapshot, some table has one in view, and wherever a range deletion in view deletes no
key of the range, some write there came after the snapshot. -/
structure Db.RangeClear (db : Db) (start stop : Key) (snap : Nat) : Prop where
  runs : ∀ run ∈ db.bulkRuns, ∀ op ∈ run.entries, snap < op.sequence → op.meets start stop →
    db.RangeSeen start stop snap
  apart : ∀ op, db.InRangeView start stop op → snap < op.sequence → op.kind = .rangeDeletion →
    ¬ op.meets start stop → db.RangeWrittenAfter start stop snap

section Range
variable {start stop : Key}

theorem Db.InRangeView.written (h : db.InRangeView start stop op) : db.written op := by
  cases h with
  | staged hop _ => exact .inl (.inr hop)
  | table hop _ => exact .inl (.inl hop)
  | near f hf hop _ _ => exact .inl (.inl (.inr ⟨f, hf, hop⟩))

/-- A point in view is in the range. -/
theorem Db.InRangeView.meets (h : db.InRangeView start stop op) (hkind : op.kind ≠ .rangeDeletion) :
    op.meets start stop := by
  refine (meets_point hkind).mpr ?_
  cases h with
  | staged _ hover => exact (overlaps_point hkind).mp hover
  | table _ hin => exact hin.resolve_left fun h => hkind h.1
  | near _ _ _ hrange _ => exact absurd hrange hkind

variable (hmax : db.Bounded) (hne : start < stop)
include hmax hne

theorem rangeHasWriteAfter_iff :
    db.rangeHasWriteAfter start stop snap = true ↔ db.RangeSeen start stop snap := by
  have hfile : ∀ f ∈ db.ssts, f.rangeHasWriteAfter start stop snap = true ↔ _ := fun f hf =>
    SstFile.rangeHasWriteAfter_iff fun v hv => hmax v (.inr ⟨f, hf, hv⟩)
  simp only [rangeHasWriteAfter, if_neg (List.not_le.mpr hne), Bool.or_eq_true, any_eq_true,
    Bool.and_eq_true, decide_eq_true_eq, tableRangeHasWriteAfter_iff fun v hv => hmax v (.inl hv)]
  constructor
  · intro h
    rcases h with (⟨u, hu, hseq, hover⟩ | ⟨v, hv, hseq, hin⟩) | ⟨f, hf, hfound⟩
    · exact ⟨u, .staged hu hover, hseq⟩
    · exact ⟨v, .table (.inl hv) hin, hseq⟩
    · obtain ⟨v, hv, hseq, hin | ⟨hkind, hover⟩⟩ := (hfile f hf).mp hfound
      · exact ⟨v, .table (.inr ⟨f, hf, hv⟩) hin, hseq⟩
      · exact ⟨v, .near f hf hv hkind hover, hseq⟩
  · rintro ⟨op, hview, hseq⟩
    cases hview with
    | staged hop hover => exact .inl (.inl ⟨op, hop, hseq, hover⟩)
    | table hop hin =>
      rcases hop with hop | ⟨f, hf, hop⟩
      · exact .inl (.inr ⟨op, hop, hseq, hin⟩)
      · exact .inr ⟨f, hf, (hfile f hf).mpr ⟨op, hop, hseq, .inl hin⟩⟩
    | near f hf hop hkind hover =>
      exact .inr ⟨f, hf, (hfile f hf).mpr ⟨op, hop, hseq, .inr ⟨hkind, hover⟩⟩⟩

/-- **The probe of a range is right exactly if what it misses and what it makes up changes
nothing.** -/
theorem rangeHasWriteAfter_exact :
    (db.rangeHasWriteAfter start stop snap = true ↔
      ∃ op, db.written op ∧ snap < op.sequence ∧
        ∃ key, start ≤ key ∧ key < stop ∧ op.covers key = true) ↔
      db.RangeClear start stop snap := by
  rw [rangeHasWriteAfter_iff hmax hne]
  constructor
  · intro h
    refine ⟨fun run hrun op hop hseq hmeets => ?_, fun op hview hseq _ _ => ?_⟩
    · exact h.mpr ⟨op, .inr ⟨run, hrun, hop⟩, hseq, hmeets⟩
    · exact h.mp ⟨op, hview, hseq⟩
  intro h
  constructor
  · rintro ⟨op, hview, hseq⟩
    by_cases hmeets : op.meets start stop
    · exact ⟨op, hview.written, hseq, hmeets⟩
    · exact h.apart op hview hseq (not_not.mp fun hkind => hmeets (hview.meets hkind)) hmeets
  · rintro ⟨op, hop, hseq, hmeets⟩
    have hover := overlaps_of_meets hmeets
    rcases hop with (hop | hop) | ⟨run, hrun, hop⟩
    · exact ⟨op, .table hop (inRange_of_overlaps hover), hseq⟩
    · exact ⟨op, .staged hop hover, hseq⟩
    · exact h.runs run hrun op hop hseq hmeets

end Range

/-- A put of a file in the range and a range deletion outside of it in the same file, both
after the snapshot. -/
theorem rangeHasWriteAfter_exact_layers :
    let db : Db := { Db.fresh [] with
      mem := [.put 4 [2] []],
      ssts := [⟨[.put 9 [2] [], ⟨.rangeDeletion, 9, [8], [9]⟩], true⟩],
      bulkRuns := [⟨defaultFamily, [.put 3 [2] []]⟩] }
    db.Bounded ∧ ((db.rangeHasWriteAfter [1] [3] 5 = true ↔
      ∃ op, db.written op ∧ 5 < op.sequence ∧
        ∃ key, [1] ≤ key ∧ key < [3] ∧ op.covers key = true) ↔ db.RangeClear [1] [3] 5) := by
  intro db
  have hmax : db.Bounded := by
    intro op hop
    simp only [stores, db, mem_cons, not_mem_nil, or_false, exists_eq_left] at hop
    rcases hop with rfl | rfl | rfl <;> decide
  exact ⟨hmax, rangeHasWriteAfter_exact hmax (by decide)⟩

/-- A put in a bulk run is missed, and a range deletion elsewhere in a file that meets the
range is taken for one in it. -/
theorem range_probe_wrong :
    (let op : WriteOp := .put 9 [2] []
      let db : Db := { Db.fresh [] with bulkRuns := [⟨defaultFamily, [op]⟩] }
      db.rangeHasWriteAfter [1] [3] 5 = false ∧ db.written op ∧ op.covers [2] = true) ∧
    let db : Db := { Db.fresh [] with
      ssts := [⟨[.put 3 [2] [], ⟨.rangeDeletion, 9, [8], [9]⟩], false⟩] }
    db.rangeHasWriteAfter [1] [3] 5 = true ∧
      ∀ op, db.written op → 5 < op.sequence → ∀ key, key < [3] → op.covers key = false := by
  refine ⟨⟨by decide, .inr ⟨_, mem_cons_self, mem_cons_self⟩, by decide⟩, by decide,
    fun op hop hseq key hkey => ?_⟩
  simp only [written, knows, stores, fresh] at hop
  have hop : op = .put 3 [2] [] ∨ op = ⟨.rangeDeletion, 9, [8], [9]⟩ := by simpa using hop
  rcases hop with rfl | rfl
  · simp [put] at hseq
  · have hlow : ¬ ([8] : Key) ≤ key := fun hle =>
      absurd (List.lt_of_le_of_lt hle hkey) (by decide)
    simp [covers, writeOpCoversKey, rangeTombstoneCovers, hlow]

section
variable (hproper : db.Proper) (hop : db.knows op) (hseq : snap < op.sequence)
include hproper hop hseq

theorem keyHasWriteAfter_of_knows (hcovers : op.covers key = true) :
    db.keyHasWriteAfter key snap = true := by
  have hmax : db.Bounded := fun v hv => (hproper v hv).2
  rcases hop with (hop | ⟨f, hf, hop⟩) | hop
  · have hfound := tableHasWriteAfter_of_mem (fun v hv => hproper v (.inl hv)) hop hseq hcovers
    simp [keyHasWriteAfter, hfound]
  · exact (keyHasWriteAfter_iff hmax).mpr ⟨op, .file f hf hop hcovers, hseq⟩
  · exact (keyHasWriteAfter_iff hmax).mpr ⟨op, .staged hop hcovers, hseq⟩

theorem rangeHasWriteAfter_of_knows {start stop : Key} (hne : start < stop)
    (hover : op.overlaps start stop = true) : db.rangeHasWriteAfter start stop snap = true := by
  refine (rangeHasWriteAfter_iff (fun v hv => (hproper v hv).2) hne).mpr ⟨op, ?_, hseq⟩
  rcases hop with hop | hop
  · exact .table hop (inRange_of_overlaps hover)
  · exact .staged hop hover

end

/-- The span is about a key the transaction reads or writes. -/
def Txn.touchedBy (t : Txn) (span : Span) : Bool :=
  match t.occ with
  | none => false
  | some (_, keys) => keys.any span.covers || t.ops.any span.touches

/-- The write came after the transaction's snapshot and touches it. -/
def Txn.missed (t : Txn) (op : WriteOp) : Bool :=
  match t.occ with
  | none => false
  | some (snap, _) => decide (snap < op.sequence) && t.touchedBy op.span

/-- **The store's probes find every write the transaction missed.** -/
theorem touchedAfter_of_missed {keys : List Key} (hproper : db.Proper) (hop : db.knows op)
    (hocc : t.occ = some (snap, keys)) (hmissed : t.missed op = true) :
    db.touchedAfter snap keys t.ops = true := by
  simp only [Txn.missed, Txn.touchedBy, hocc, Bool.and_eq_true, decide_eq_true_eq, Bool.or_eq_true,
    any_eq_true] at hmissed
  obtain ⟨hseq, htouch⟩ := hmissed
  simp only [touchedAfter, Bool.or_eq_true, any_eq_true]
  have hkey : ∀ key, op.span.covers key = true → db.keyHasWriteAfter key snap = true := by
    intro key hcovers
    rw [span_covers] at hcovers
    exact keyHasWriteAfter_of_knows hproper hop hseq hcovers
  rcases htouch with ⟨key, hmem, hcovers⟩ | ⟨o, hmem, htouches⟩
  · exact .inl ⟨key, hmem, hkey key hcovers⟩
  refine .inr ⟨o, hmem, ?_⟩
  cases o with
  | put key value => exact hkey key htouches
  | delete key => exact hkey key htouches
  | deleteRange start stop =>
    simp only [Span.touches, Bool.and_eq_true, decide_eq_true_eq, span_overlaps] at htouches
    exact rangeHasWriteAfter_of_knows hproper hop hseq htouches.1 htouches.2

/-! ### What the leader has let through -/

namespace Accepted

def has (a : Accepted) : Span → Prop
  | .point key => key ∈ a.keys
  | .range start stop => (start, stop) ∈ a.ranges

structure Le (a b : Accepted) : Prop where
  keys : a.keys ⊆ b.keys
  ranges : a.ranges ⊆ b.ranges

variable {b c : Accepted} {span : Span}

theorem Le.refl (a : Accepted) : a.Le a := ⟨Subset.refl _, Subset.refl _⟩

theorem Le.trans (hab : a.Le b) (hbc : b.Le c) : a.Le c :=
  ⟨Subset.trans hab.keys hbc.keys, Subset.trans hab.ranges hbc.ranges⟩

theorem Le.has (h : a.Le b) (hspan : a.has span) : b.has span := by
  cases span with
  | point key => exact h.keys hspan
  | range start stop => exact h.ranges hspan

variable (a)

theorem addOp_le (op : BatchOp) : a.Le (a.addOp op) := by
  cases op with
  | put | delete => exact ⟨subset_append_left _ _, Subset.refl _⟩
  | deleteRange => exact ⟨Subset.refl _, subset_append_left _ _⟩

theorem addOp_has (op : BatchOp) : (a.addOp op).has op.span := by
  cases op <;> simp [addOp, has, BatchOp.span]

theorem add_le (ops : List BatchOp) : a.Le (a.add ops) := by
  induction ops generalizing a with
  | nil => exact .refl a
  | cons op ops ih => exact (a.addOp_le op).trans (ih _)

theorem add_has {op : BatchOp} {ops : List BatchOp} (hop : op ∈ ops) : (a.add ops).has op.span := by
  induction ops generalizing a with
  | nil => cases hop
  | cons o ops ih =>
    rcases mem_cons.mp hop with rfl | hop
    · exact ((a.addOp op).add_le ops).has (a.addOp_has op)
    · exact ih _ hop

variable {a}

theorem touchesKey_of_has (h : a.has span) (hcovers : span.covers key = true) :
    a.touchesKey key = true := by
  simp only [touchesKey, Bool.or_eq_true, any_eq_true, contains_iff_mem]
  cases span with
  | point k =>
    obtain rfl : k = key := by simpa [Span.covers] using hcovers
    exact .inl h
  | range start stop => exact .inr ⟨(start, stop), h, hcovers⟩

theorem touchesOp_of_has {op : BatchOp} (h : a.has span) (htouches : span.touches op = true) :
    a.touchesOp op = true := by
  cases op with
  | put key value => exact touchesKey_of_has h htouches
  | delete key => exact touchesKey_of_has h htouches
  | deleteRange start stop =>
    simp only [Span.touches, Bool.and_eq_true] at htouches
    simp only [touchesOp, Bool.or_eq_true, any_eq_true]
    cases span with
    | point k => exact .inl ⟨k, h, htouches.2⟩
    | range a b => exact .inr ⟨(a, b), h, htouches.2⟩

end Accepted

/-! ### Validation -/

/-- The members that passed, and the leader's lists before and after. -/
structure Passed (db : Db) (a a' : Accepted) (passed : List Txn) : Prop where
  le : a.Le a'
  has : ∀ t ∈ passed, ∀ op ∈ t.ops, a'.has op.span
  missed : ∀ t ∈ passed, ∀ op, db.knows op → t.missed op = false
  before : ∀ t ∈ passed, ∀ span, a.has span → t.touchedBy span = false
  order : passed.Pairwise fun u t => ∀ op ∈ u.ops, t.touchedBy op.span = false

theorem Passed.nil (db : Db) (a : Accepted) : Passed db a a [] := ⟨.refl a, nofun, nofun, nofun, .nil⟩

/-- What was let through first is among what the next is checked against. -/
theorem Passed.cons {b c : Accepted} {rest : List Txn} (h : Passed db a b [t])
    (hrest : Passed db b c rest) :
    Passed db a c (t :: rest) := by
  have ht : t ∈ [t] := mem_singleton.mpr rfl
  refine ⟨h.le.trans hrest.le, ?_, forall_mem_cons.mpr ⟨h.missed t ht, hrest.missed⟩, ?_,
    pairwise_cons.mpr ⟨fun u hu op hop => ?_, hrest.order⟩⟩
  · exact forall_mem_cons.mpr ⟨fun op hop => hrest.le.has (h.has t ht op hop), hrest.has⟩
  · exact forall_mem_cons.mpr ⟨h.before t ht, fun u hu span hspan =>
      hrest.before u hu span (h.le.has hspan)⟩
  · exact hrest.before u hu op.span (h.has t ht op hop)

theorem validateOcc_passed (hproper : db.Proper) (h : validateOcc db a t = (a', .ok ())) :
    Passed db a a' [t] := by
  have hhas : ∀ u ∈ [t], ∀ op ∈ u.ops, (a.add t.ops).has op.span :=
    forall_mem_singleton.mpr fun _ hop => a.add_has hop
  unfold validateOcc at h
  split at h
  · -- a raw batch: nothing touches it
    rename_i hocc
    obtain ⟨rfl, _⟩ := Prod.mk.inj h
    refine ⟨a.add_le t.ops, hhas, forall_mem_singleton.mpr fun op _ => ?_,
      forall_mem_singleton.mpr fun span _ => ?_,
      pairwise_singleton _ _⟩
    · simp [Txn.missed, hocc]
    · simp [Txn.touchedBy, hocc]
  · rename_i snap keys hocc
    split at h
    · cases h
    split at h
    · cases h
    rename_i hpass
    obtain ⟨rfl, _⟩ := Prod.mk.inj h
    simp only [Bool.or_eq_true, not_or, Bool.not_eq_true, any_eq_false] at hpass
    obtain ⟨⟨hafter, hkeys⟩, hops⟩ := hpass
    refine ⟨a.add_le t.ops, hhas, forall_mem_singleton.mpr fun op hop => ?_,
      forall_mem_singleton.mpr fun span hspan => ?_,
      pairwise_singleton _ _⟩
    · by_contra hmissed
      have := touchedAfter_of_missed hproper hop hocc (by simpa using hmissed)
      rw [hafter] at this
      cases this
    · simp only [Txn.touchedBy, hocc, Bool.or_eq_false_iff, any_eq_false]
      refine ⟨fun key hkey hcovers => ?_, fun op hop htouches => ?_⟩
      · have := Accepted.touchesKey_of_has hspan hcovers
        rw [hkeys key hkey] at this
        cases this
      · have := Accepted.touchesOp_of_has hspan htouches
        rw [hops op hop] at this
        cases this

theorem validateOcc_refused {e : CoreError} (h : validateOcc db a t = (a', .error e)) : a' = a := by
  unfold validateOcc at h
  split at h
  · cases h
  · split at h
    · exact (Prod.mk.inj h).1.symm
    · split at h
      · exact (Prod.mk.inj h).1.symm
      · cases h

/-- **Every member that passes has missed no write the store knows of, and is touched by
no operation let through before it.** -/
theorem validateAll_passed (hproper : db.Proper) (a : Accepted) (members : List Txn) :
    Passed db a (validateAll db a members).1 (validateAll db a members).2 := by
  induction members generalizing a with
  | nil => exact .nil db a
  | cons t rest ih =>
    unfold validateAll
    split
    · rename_i a' e h
      rw [validateOcc_refused h]
      exact ih a
    · rename_i a' u h
      exact (validateOcc_passed hproper h).cons (ih a')

/-- A lone commit that passes has missed no write the store knows of. -/
theorem validateLone_missed (hproper : db.Proper) (h : validateLone db t = .ok ()) (hop : db.knows op)
    (hlast : op.sequence ≤ db.lastSequence) : t.missed op = false := by
  unfold validateLone at h
  split at h
  · rename_i hocc
    simp [Txn.missed, hocc]
  rename_i snap keys hocc
  split at h
  · cases h
  split at h
  · cases h
  rename_i hpass
  by_contra hmissed
  have htrue : t.missed op = true := by simpa using hmissed
  have hafter := touchedAfter_of_missed hproper hop hocc htrue
  simp only [Txn.missed, hocc, Bool.and_eq_true, decide_eq_true_eq] at htrue
  exact hpass (by simp [hafter]; omega)

end Pipeline
end PedraDb
