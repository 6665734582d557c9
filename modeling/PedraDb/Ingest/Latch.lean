import PedraDb.Bulk

/-! The latch of sorted ingest.

Each batch is judged for each family by itself. A family whose puts come in ascending
order, above every key the latch has seen of it, for eight batches in a row, is latched; a
key out of order kills it for good. Deletions do neither: a family that is latched stays
so, whatever else the batch holds. -/
namespace PedraDb.Ingest

def bulkLatchStreak : Nat := 8

/-- How many keys of a batch may lie below the one before. -/
def bulkNearlySortedWindow : Nat := 8

inductive FamilyState where
  | probing (streak : Nat)
  | latched
  | dead
  deriving DecidableEq

/-- The families judged so far, and the largest key seen of each. -/
structure BulkLatch where
  state : Key → Option FamilyState
  highWater : Key → Option Key

inductive Verdict where
  | admissible
  | ineligible
  | kill
  deriving DecidableEq

namespace BulkLatch

def new : BulkLatch := ⟨fun _ => none, fun _ => none⟩

def isLatched (l : BulkLatch) (family : Key) : Bool := l.state family == some .latched

/-- The larger of a key and one that may be missing. -/
def maxKey (key : Key) : Option Key → Key
  | none => key
  | some m => if m < key then key else m

def ratchet (l : BulkLatch) (family key : Key) : BulkLatch :=
  { l with highWater := Function.update l.highWater family (some (maxKey key (l.highWater family))) }

/-- Pass over the keys of a batch and count those below the one before. -/
def judgeKeys : Option Key → Nat → List (Bool × Key) → Except Verdict Nat
  | _, inversions, [] => .ok inversions
  | prev, inversions, (isPut, key) :: rest =>
    if !isPut then .error .ineligible
    else if prev = some key then .error .kill
    else if prev.any fun p => decide (key < p) then
      if bulkNearlySortedWindow < inversions + 1 then .error .kill
        else judgeKeys (some key) (inversions + 1) rest
    else judgeKeys (some key) inversions rest

def keysHaveDuplicate (ops : List (Bool × Key)) : Bool := !decide (ops.map Prod.snd).Nodup

def smallest : List Key → Option Key
  | [] => none
  | key :: rest =>
    match smallest rest with
    | none => some key
    | some m => some (if m < key then m else key)

/-- The verdict on a family's operations of a batch. The keys of the store count for a
family the latch has not seen. -/
def judge (l : BulkLatch) (family : Key) (ops : List (Bool × Key)) (spanning : Bool)
    (familyMaxInDb : Option Key) : Verdict :=
  if spanning then .ineligible
  else
    match judgeKeys none 0 ops with
    | .error verdict => verdict
    | .ok inversions =>
      if inversions ≠ 0 && keysHaveDuplicate ops then .kill
      else
        match smallest (ops.map Prod.snd) with
        | none => .ineligible
        | some first =>
          if (l.highWater family <|> familyMaxInDb).any fun max =>
            decide (first ≤ max) then .kill else .admissible

def classifyFamily (l : BulkLatch) (family : Key) (ops : List (Bool × Key)) (spanning : Bool)
    (familyMaxInDb : Option Key) :
    BulkLatch :=
  let state := (l.state family).getD (.probing 0)
  if state = .dead then l
  else
    let ratcheted := ops.foldl (fun l op => l.ratchet family op.2) l
    let next : FamilyState :=
      match l.judge family ops spanning familyMaxInDb, state with
      | .admissible, .probing streak =>
        if bulkLatchStreak ≤ streak + 1 then .latched else .probing (streak + 1)
      | .admissible, state => state
      | .ineligible, .latched => .latched
      | .ineligible, _ => .probing 0
      | .kill, _ => .dead
    { ratcheted with state := Function.update l.state family (some next) }

end BulkLatch

section
variable (physicalCfs : List Key)

/-- The families an operation names. -/
def opFamilies : BatchOp → List Key
  | .put key _ => [bulkFamilyOfKey physicalCfs key]
  | .delete key => [bulkFamilyOfKey physicalCfs key]
  | .deleteRange start stop => [bulkFamilyOfKey physicalCfs start, bulkFamilyOfKey physicalCfs stop]

/-- The keys of a batch that the latch judges a family by; puts are marked. -/
def familyOps (family : Key) (batch : List BatchOp) : List (Bool × Key) :=
  batch.flatMap fun op =>
    match op with
    | .put key _ => if bulkFamilyOfKey physicalCfs key = family then [(true, key)] else []
    | .delete key => if bulkFamilyOfKey physicalCfs key = family then [(false, key)] else []
    | .deleteRange start stop =>
      (if bulkFamilyOfKey physicalCfs start = family then [(false, start)] else []) ++
        if bulkFamilyOfKey physicalCfs stop = family then [(false, stop)] else []

/-- A range deletion of the batch starts or ends in the family and leaves it. -/
def spans (family : Key) (batch : List BatchOp) : Bool :=
  batch.any fun op =>
    match op with
    | .deleteRange start stop =>
      bulkFamilyOfKey physicalCfs start != bulkFamilyOfKey physicalCfs stop &&
        (bulkFamilyOfKey physicalCfs start == family || bulkFamilyOfKey physicalCfs stop == family)
    | _ => false

def BulkLatch.classifyBatch (l : BulkLatch) (familyMaxInDb : Key → Option Key)
    (batch : List BatchOp) : BulkLatch :=
  (batch.flatMap (opFamilies physicalCfs)).dedup.foldl (fun l family =>
    l.classifyFamily family (familyOps physicalCfs family batch) (spans physicalCfs family batch)
      (familyMaxInDb family)) l

end

end PedraDb.Ingest
