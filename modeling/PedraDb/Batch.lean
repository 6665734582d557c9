import Mathlib.Algebra.GroupWithZero.Nat
import Mathlib.Data.List.Basic
import Mathlib.Order.Defs.LinearOrder

/-! Client batches and the operations they become.

A client hands over `BatchOp`s. Once a sequence number is assigned to each of
them they are `WriteOp`s: the form the WAL records, the memtable applies and a
reopen replays. Sequence numbers are the store's only clock; the largest one a
user write may take is `maxAssignableSequenceNumber`, the one above it being an
internal sentinel. -/
namespace PedraDb

/-- A user key. Keys are ordered bytewise. -/
abbrev Key := List UInt8
abbrev Value := List UInt8

def maxSequenceNumber : Nat := 2 ^ 56 - 1
def maxAssignableSequenceNumber : Nat := maxSequenceNumber - 1

/-- The kind of an internal key entry. -/
inductive ValueType where
  | deletion
  | value
  | rangeDeletion
  deriving DecidableEq

/-- One operation of a client batch. -/
inductive BatchOp where
  | put (key : Key) (value : Value)
  | delete (key : Key)
  | deleteRange (start stop : Key)
  deriving DecidableEq

/-- One operation with its sequence. A range deletion keeps its start in `key`
and its exclusive end in `value`. -/
structure WriteOp where
  kind : ValueType
  sequence : Nat
  key : Key
  value : Value
  deriving DecidableEq

def WriteOp.put (sequence : Nat) (key : Key) (value : Value) : WriteOp := ⟨.value, sequence, key, value⟩

def WriteOp.delete (sequence : Nat) (key : Key) : WriteOp := ⟨.deletion, sequence, key, []⟩

def WriteOp.deleteRange (sequence : Nat) (start stop : Key) : WriteOp :=
  ⟨.rangeDeletion, sequence, start, stop⟩

def inlineEscape : UInt8 := 0x01
def vlogValuePrefix : Value := [0x56, 0x4c, 0x47, 0x31]
def vlogBlobPrefix : Value := [0x56, 0x4c, 0x47, 0x33]

/-- Whether a stored value reads as a pointer into the value log. -/
def isVlogPtr (value : Value) : Bool :=
  (value.length == 20 && value.take 4 == vlogValuePrefix) ||
    (value.length == 24 && value.take 4 == vlogBlobPrefix)

/-- The stored form of an inline value: escaped if it could be misread as a pointer or
already starts with the marker. -/
def escapeInlineValue : Value → Value
  | [] => []
  | b :: rest =>
    if b == inlineEscape || isVlogPtr (b :: rest) then inlineEscape :: b :: rest else b :: rest

/-- The value a stored form stands for, where it is no pointer. -/
def unescapeInlineValue (stored : Value) : Value :=
  if stored.head? = some inlineEscape then stored.tail else stored

/-- An inline value is read back as it was written, and is not taken for a pointer. -/
theorem unescape_escapeInlineValue (value : Value) :
    unescapeInlineValue (escapeInlineValue value) = value := by
  cases value with
  | nil => rfl
  | cons b rest =>
    rw [escapeInlineValue]
    split
    · simp [unescapeInlineValue]
    · rename_i h
      simp only [Bool.or_eq_true, beq_iff_eq, not_or] at h
      simp [unescapeInlineValue, h.1]

/-- The user value of a stored one: the marker is stripped, a pointer is read from the value
log, which may fail. -/
def resolveStoredValue (readPtr : Value → Option Value) (stored : Value) : Option Value :=
  if stored.head? = some inlineEscape then some stored.tail
  else if isVlogPtr stored then readPtr stored
  else some stored

/-- An inline value resolves to what was written. -/
theorem resolveStoredValue_escape (readPtr : Value → Option Value) (value : Value) :
    resolveStoredValue readPtr (escapeInlineValue value) = some value := by
  cases value with
  | nil => rfl
  | cons b rest =>
    rw [escapeInlineValue]
    split
    · simp [resolveStoredValue]
    · rename_i h
      simp only [Bool.or_eq_true, beq_iff_eq, not_or] at h
      simp [resolveStoredValue, h.1, h.2]

/-- What a commit path can answer instead of a sequence. -/
inductive CoreError where
  | io (msg : String)
  | internal (msg : String)
  | durabilityFenced
  | transactionConflict
  | snapshotTooOld (requested earliest : Nat)
  | writeStall (l0Files limit : Nat)
  | writeStallMem (memBytes limit : Nat)
  | diskPressure (available need : Nat)
  deriving DecidableEq

abbrev Result (α : Type) := Except CoreError α

def CoreError.text : CoreError → String
  | .io msg => "io error: " ++ msg
  | .internal msg => "internal error: " ++ msg
  | .durabilityFenced => "database fenced after durability failure; close and reopen to recover"
  | .transactionConflict => "transaction conflict: key changed since snapshot"
  | .snapshotTooOld requested earliest =>
    s!"snapshot too old: requested sequence {requested}, earliest readable {earliest}"
  | .writeStall l0Files limit => s!"write stall: L0 has {l0Files} files (limit {limit})"
  | .writeStallMem memBytes limit => s!"write stall: memtable ~{memBytes}B (limit {limit}B)"
  | .diskPressure available need => s!"disk pressure: {available} bytes free (need {need} to write)"

def seqExhausted (seq max : Nat) : Bool := decide (max < seq)

def sequenceSpaceExhausted : CoreError := .internal "sequence number space exhausted"

/-- One operation with its sequence; the value of a put is what the spill stored. -/
def record (spill : Value → Result Value) (seq : Nat) : BatchOp → Result WriteOp
  | .put key value => (spill value).map (WriteOp.put seq key)
  | .delete key => .ok (.delete seq key)
  | .deleteRange start stop => .ok (.deleteRange seq start stop)

/-- The operation as a memtable holds it, its value inline. -/
def stamped (seq : Nat) : BatchOp → WriteOp
  | .put key value => .put seq key (escapeInlineValue value)
  | .delete key => .delete seq key
  | .deleteRange start stop => .deleteRange seq start stop

theorem stamped_sequence (seq : Nat) (op : BatchOp) : (stamped seq op).sequence = seq := by
    cases op <;> rfl

/-- The operations of a batch, numbered on from a sequence. -/
def stampedFrom : Nat → List BatchOp → List WriteOp
  | _, [] => []
  | seq, op :: rest => stamped seq op :: stampedFrom (seq + 1) rest

theorem stampedFrom_sequence {seq : Nat} {ops : List BatchOp} {v : WriteOp}
    (hv : v ∈ stampedFrom seq ops) :
    seq ≤ v.sequence ∧ v.sequence < seq + ops.length := by
  induction ops generalizing seq with
  | nil => cases hv
  | cons op ops ih =>
    rw [List.length_cons]
    rcases List.mem_cons.mp hv with rfl | hv
    · rw [stamped_sequence]
      omega
    · have := ih hv
      omega

/-- What an operation is about: its kind and its key, or the start of its range. -/
def target : BatchOp → ValueType × Key
  | .put key _ => (.value, key)
  | .delete key => (.deletion, key)
  | .deleteRange start _ => (.rangeDeletion, start)

/-- The records are the batch's operations, in order. -/
def Records (ops : List BatchOp) (recs : List WriteOp) : Prop :=
  recs.map (fun r => (r.kind, r.key)) = ops.map target

theorem record_ok {spill : Value → Result Value} {seq : Nat} {op : BatchOp} {r : WriteOp}
    (h : record spill seq op = .ok r) : (r.kind, r.key) = target op ∧ r.sequence = seq := by
  cases op with
  | put key value =>
    simp only [record, Except.map] at h
    split at h
    · cases h
    · cases h
      exact ⟨rfl, rfl⟩
  | delete key =>
    cases h
    exact ⟨rfl, rfl⟩
  | deleteRange start stop =>
    cases h
    exact ⟨rfl, rfl⟩

theorem foldl_max {α : Type} (f : α → Nat) (l : List α) (m n : Nat) :
    l.foldl (fun m a => max m (f a)) m ≤ n ↔ m ≤ n ∧ ∀ a ∈ l, f a ≤ n := by
  induction l generalizing m with
  | nil => simp
  | cons a l ih =>
    rw [List.foldl_cons, ih]
    simp only [List.mem_cons, forall_eq_or_imp, Nat.max_le]
    exact and_assoc

end PedraDb
