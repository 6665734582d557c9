import PedraDb.Layers.Read

/-! The memtable layers of a store and the moves of the flush pipeline.

A full memtable becomes the immutable one, is taken by a flush and pinned for readers, and
ends up as a file of level 0; or it is parked and written later. A table that was written
may stay in memory as a cache in front of the files: first in a pile, later folded into
one table, off the lock. The pile and the fold are trimmed to a capacity.

The lock around the flush pipeline admits one flush at a time; the fold has one worker.
A table is written to one file. -/
namespace PedraDb.Layers

def maxLsmLevel : Nat := 3

/-- A file and its level. -/
structure Sst where
  level : Nat
  table : Table
  deriving DecidableEq

/-- What the flush pipeline is at, off the lock. -/
inductive Flushing where
  | idle
  | writing (table : Table)
  | materializing (table : Table)
  deriving DecidableEq

structure Tables where
  mem : Table
  imm : Option Table
  /-- The table a flush took, kept for readers. -/
  pin : Option Table
  /-- Tables without a file yet, the oldest first. -/
  parked : List Table
  retiredPending : List Table
  retiredFold : Table
  /-- The tables taken for the fold, off the lock. -/
  folding : Option Table
  flushing : Flushing
  ssts : List Sst
  deriving DecidableEq

namespace Tables

def empty : Tables := ⟨[], none, none, [], [], [], none, .idle, []⟩

/-! ### Reading -/

/-- The layers without a file, as they are asked. -/
def memLayers (s : Tables) : List Table := [s.mem] ++ s.imm.toList ++ s.pin.toList ++ s.parked.reverse

/-- The tables kept as caches of files. An empty fold answers nothing. -/
def caches (s : Tables) : List Table := s.retiredPending.reverse ++ [s.retiredFold]

/-- The files of a level, the newest first. -/
def level (s : Tables) (l : Nat) : List Table :=
  ((s.ssts.filter fun f => f.level == l).map Sst.table).reverse

/-- The files as they are asked: levels ascend. -/
def files (s : Tables) : List (List Table) := (List.range (maxLsmLevel + 1)).map s.level

def lookup (s : Tables) (key : Key) (snap : Nat) : Lookup :=
  Layers.lookup (s.memLayers ++ s.caches) [] defaultFamily s.files key snap

/-! ### The caches -/

def approxMemoryUsage (t : Table) : Nat := (t.map fun v => v.key.length + v.value.length + 8).sum

/-- Drop the oldest tables of the pile until the rest fits. -/
def dropOldest (cap total : Nat) : List Table → List Table
  | [] => []
  | t :: rest => if cap < total then dropOldest cap (total - approxMemoryUsage t) rest else t :: rest

def fitting (cap : Nat) (pile : List Table) : List Table :=
  dropOldest cap (pile.map approxMemoryUsage).sum pile

/-- A fold over the capacity is dropped whole. -/
def fittingFold (cap : Nat) (fold : Table) : Table := if cap < approxMemoryUsage fold then [] else fold

section
variable (s : Tables)

def trimRetiredCache (cap : Nat) : Tables :=
  { s with
    retiredPending := fitting cap s.retiredPending
    retiredFold := fittingFold cap s.retiredFold }

/-- Keep a table that has a file now. -/
def retireMemAsL0Cache (t : Table) (cap : Nat) : Tables :=
  if t.isEmpty then s else trimRetiredCache { s with retiredPending := s.retiredPending ++ [t] } cap

def retireFlushPin (cap : Nat) : Tables :=
  match s.pin with
  | none => s
  | some t => retireMemAsL0Cache { s with pin := none } t cap

def takeRetiredPending : Option Tables :=
  match s.folding with
  | some _ => none
  | none => some { s with retiredPending := [], folding := some s.retiredPending.flatten }

def installRetiredFold (cap : Nat) : Option Tables :=
  match s.folding with
  | none => none
  | some built => some { s with retiredFold := fittingFold cap (s.retiredFold ++ built), folding := none }

/-! ### Switches and flushes -/

def stageFlushImm : Option Tables :=
  if s.imm.isSome || s.mem.isEmpty then none else some { s with mem := [], imm := some s.mem }

/-- Take the immutable memtable, or else the active one, for a flush. -/
def prepareFlushImm : Option Tables :=
  match s.flushing with
  | .idle =>
    match s.imm with
    | some t => some { s with imm := none, pin := some t, flushing := .writing t }
    | none =>
      if s.mem.isEmpty then none
      else some { s with mem := [], pin := some s.mem, flushing := .writing s.mem }
  | _ => none

/-- The file of the table is written: it becomes the newest of level 0. -/
def installL0 (cap : Nat) : Option Tables :=
  match s.flushing with
  | .writing t => some (retireFlushPin { s with ssts := s.ssts ++ [⟨0, t⟩], flushing := .idle } cap)
  | _ => none

/-- The file could not be written. If the slot is taken again the entries go back to the
active memtable. -/
def restoreImm : Option Tables :=
  match s.flushing with
  | .writing t =>
    match s.imm with
    | some _ => some { s with mem := s.mem ++ t, pin := none, flushing := .idle }
    | none => some { s with imm := some t, pin := none, flushing := .idle }
  | _ => none

def pushParkedUnflushed (t : Table) : Tables :=
  if t.isEmpty then s else { s with parked := s.parked ++ [t] }

def parkActiveMem : Tables := pushParkedUnflushed { s with mem := [] } s.mem

def parkImm : Option Tables :=
  match s.flushing, s.imm with
  | .idle, some t => some (pushParkedUnflushed { s with imm := none } t)
  | _, _ => none

def materializeParked : Option Tables :=
  match s.flushing, s.parked with
  | .idle, t :: _ => some { s with flushing := .materializing t }
  | _, _ => none

/-- The file of the oldest parked table is written. The table is dropped, or kept as a
cache if there were reads meanwhile. -/
def materialized (keep : Bool) (cap : Nat) : Option Tables :=
  match s.flushing with
  | .materializing t =>
    let s := { s with ssts := s.ssts ++ [⟨0, t⟩], flushing := .idle }
    if s.parked.head? = some t then
      let s := { s with parked := s.parked.tail }
      some (if keep then retireMemAsL0Cache s t cap else s)
    else some s
  | _ => none

end

def flushImmToL0 (cap : Nat) (s : Tables) (t : Table) : Tables :=
  if t.isEmpty then s else retireFlushPin { s with ssts := s.ssts ++ [⟨0, t⟩] } cap

/-- The whole of memory to level 0, under the lock: the immutable memtable, the parked
tables from the oldest on, the active memtable. -/
def flush (s : Tables) (cap : Nat) : Tables :=
  (s.imm.toList ++ s.parked ++ [s.mem]).foldl (flushImmToL0 cap)
    { s with mem := [], imm := none, parked := [] }

end Tables

/-- A move of the flush pipeline or of the fold. -/
inductive Switch where
  | stage
  | prepare
  | install (cap : Nat)
  | restore
  | parkActive
  | parkImm
  | materialize
  | materialized (keep : Bool) (cap : Nat)
  | flush (cap : Nat)
  | takeRetired
  | installFold (cap : Nat)
  deriving DecidableEq

def Tables.switch (s : Tables) : Switch → Option Tables
  | .stage => s.stageFlushImm
  | .prepare => s.prepareFlushImm
  | .install cap => s.installL0 cap
  | .restore => s.restoreImm
  | .parkActive => some s.parkActiveMem
  | .parkImm => s.parkImm
  | .materialize => s.materializeParked
  | .materialized keep cap => s.materialized keep cap
  | .flush cap => some (s.flush cap)
  | .takeRetired => s.takeRetiredPending
  | .installFold cap => s.installRetiredFold cap

end PedraDb.Layers
