import PedraDb.Lookup

/-! Sorted ingest: the bulk runs.

Once a column family's puts arrive in ascending order it is latched, and the puts of
asynchronous batches go to an array in memory, the family's run, instead of the log and
the memtable. The first batch routed there also moves the family's memtable entries into
the run, the newest of each key. -/
namespace PedraDb
open List
variable {t : Table}

/-- Whether a key belongs to a family: `default` takes the raw keys too. -/
def keyInCfFamily (key family : Key) : Bool :=
  if family = defaultFamily then
    if key.contains 0 then cfPrefix key == [] || cfPrefix key == defaultFamily else true
  else family.isPrefixOf key && (key.drop family.length).head? == some 0

def takeFamily (mem : Table) (family : Key) : Table × Table :=
  (mem.filter fun v => keyInCfFamily v.key family, mem.filter fun v => !keyInCfFamily v.key family)

/-- Place an entry in internal order: keys ascending, the newest version of a key first. -/
def insertInternal (v : WriteOp) : Table → Table
  | [] => [v]
  | w :: rest =>
    if w.key < v.key || (w.key == v.key && versionNewer w v) then w :: insertInternal v rest
    else v :: w :: rest

def sortInternal : Table → Table
  | [] => []
  | v :: rest => insertInternal v (sortInternal rest)

/-- The first entry of each key of a table in internal order. -/
def firstPerKey : Option Key → Table → Table
  | _, [] => []
  | last, v :: rest =>
    if last = some v.key then firstPerKey last rest else v :: firstPerKey (some v.key) rest

theorem insertInternal_perm (v : WriteOp) (t : Table) : (insertInternal v t).Perm (v :: t) := by
  induction t with
  | nil => exact .refl _
  | cons w t ih =>
    rw [insertInternal]
    split
    · exact (ih.cons w).trans (.swap v w t)
    · exact .refl _

theorem sortInternal_perm (t : Table) : (sortInternal t).Perm t := by
  induction t with
  | nil => exact .refl _
  | cons v t ih => exact (insertInternal_perm v _).trans (ih.cons v)

theorem mem_insertInternal {v w : WriteOp} : w ∈ insertInternal v t ↔ w = v ∨ w ∈ t :=
  (insertInternal_perm v t).mem_iff.trans mem_cons

theorem mem_sortInternal {w : WriteOp} : w ∈ sortInternal t ↔ w ∈ t := (sortInternal_perm t).mem_iff

theorem firstPerKey_sublist (last : Option Key) (t : Table) : (firstPerKey last t).Sublist t := by
  induction t generalizing last with
  | nil => exact .slnil
  | cons v t ih =>
    rw [firstPerKey]
    split
    · exact (ih last).cons v
    · exact (ih _).cons_cons v

theorem mem_firstPerKey {last : Option Key} {o : WriteOp} (ho : o ∈ firstPerKey last t) : o ∈ t :=
  (firstPerKey_sublist last t).subset ho

/-- Append to the family's run, which is made if there is none. -/
def pushRun (family : Key) (entries : List WriteOp) : List BulkRun → List BulkRun
  | [] => [⟨family, entries⟩]
  | run :: rest =>
    if run.family = family then { run with entries := run.entries ++ entries } :: rest
    else run :: pushRun family entries rest

theorem mem_pushRun {family : Key} {entries : List WriteOp} {runs : List BulkRun} {o : WriteOp}
    (ho : o ∈ (pushRun family entries runs).flatMap BulkRun.entries) :
    o ∈ entries ∨ o ∈ runs.flatMap BulkRun.entries := by
  induction runs with
  | nil => simpa [pushRun] using ho
  | cons run runs ih =>
    rw [pushRun] at ho
    rw [flatMap_cons, mem_append]
    split at ho
    · rw [flatMap_cons, mem_append, mem_append] at ho
      tauto
    · rw [flatMap_cons, mem_append] at ho
      rcases ho with ho | ho
      · exact .inr (.inl ho)
      · exact (ih ho).imp_right .inr

/-- Move a family's memtable entries into its run. Older versions of a key are dropped. -/
def absorbMemFamilyIntoRun (mem : Table) (runs : List BulkRun) (family : Key) : Table × List BulkRun :=
  let (taken, rest) := takeFamily mem family
  if taken = [] then (rest, runs) else (rest, pushRun family (firstPerKey none (sortInternal taken)) runs)

theorem absorbMemFamilyIntoRun_cases (mem : Table) (runs : List BulkRun) (family : Key) :
    (takeFamily mem family).1 = [] ∧ absorbMemFamilyIntoRun mem runs family =
    ((takeFamily mem family).2, runs) ∨
      (takeFamily mem family).1 ≠ [] ∧ absorbMemFamilyIntoRun mem runs family =
      ((takeFamily mem family).2,
          pushRun family (firstPerKey none (sortInternal (takeFamily mem family).1)) runs) := by
  by_cases h : (takeFamily mem family).1 = []
  · exact .inl ⟨h, if_pos h⟩
  · exact .inr ⟨h, if_neg h⟩

theorem mem_absorbMemFamilyIntoRun (mem : Table) (runs : List BulkRun) (family : Key) :
    (absorbMemFamilyIntoRun mem runs family).1 = (takeFamily mem family).2 ∧
      ∀ o ∈ (absorbMemFamilyIntoRun mem runs family).2.flatMap BulkRun.entries,
      o ∈ mem ∨ o ∈ runs.flatMap BulkRun.entries := by
  rcases absorbMemFamilyIntoRun_cases mem runs family with ⟨_, heq⟩ | ⟨_, heq⟩
  · rw [heq]
    exact ⟨rfl, fun o ho => .inr ho⟩
  · rw [heq]
    refine ⟨rfl, fun o ho => ?_⟩
    rcases mem_pushRun ho with ho | ho
    · exact .inl (mem_filter.mp (mem_sortInternal.mp (mem_firstPerKey ho))).1
    · exact .inr ho

/-- A batch split into what goes to a bulk run and what stays for the memtable. -/
def splitBatch (physicalCfs : List Key) (latched : Key → Bool) :
    List BatchOp → List (Key × Value) × List BatchOp
  | [] => ([], [])
  | op :: rest =>
    let (bulk, ladder) := splitBatch physicalCfs latched rest
    match op with
    | .put key value =>
      if latched (bulkFamilyOfKey physicalCfs key) then ((key, value) :: bulk, ladder)
      else (bulk, .put key value :: ladder)
    | other => (bulk, other :: ladder)

def insertPut (p : Key × Value) : List (Key × Value) → List (Key × Value)
  | [] => [p]
  | q :: rest => if q.1 < p.1 then q :: insertPut p rest else p :: q :: rest

def sortBulkKeyVals : List (Key × Value) → List (Key × Value)
  | [] => []
  | p :: rest => insertPut p (sortBulkKeyVals rest)

theorem sortBulkKeyVals_length (puts : List (Key × Value)) :
    (sortBulkKeyVals puts).length = puts.length := by
  have hinsert (p : Key × Value) (l : List (Key × Value)) : (insertPut p l).length = l.length + 1 := by
    induction l with
    | nil => rfl
    | cons q l ih =>
      simp only [insertPut]
      split
      · simp [ih]
      · simp
  induction puts with
  | nil => rfl
  | cons p puts ih => simp [sortBulkKeyVals, hinsert, ih]

def numberPuts : Nat → List (Key × Value) → List WriteOp
  | _, [] => []
  | seq, (key, value) :: rest => .put seq key (escapeInlineValue value) :: numberPuts (seq + 1) rest

end PedraDb
