import PedraDb.Batch
import Mathlib.Data.List.Sort

/-! The change feed.

The feed is a list of changes with the highest sequence in it. Commits append to it,
flushes merge the newest change of each key into it, and its file is read back sorted. -/
namespace PedraDb.Feed

inductive ChangeKind where
  | put
  | delete
  | deleteRange
  deriving DecidableEq

def ChangeKind.fromValueType : ValueType → ChangeKind
  | .value => .put
  | .deletion => .delete
  | .rangeDeletion => .deleteRange

/-- One change. A range delete keeps its start as the key and its end as the value. -/
structure ChangeEntry where
  sequence : Nat
  key : Key
  kind : ChangeKind
  value : Value
  deriving DecidableEq

def ChangeEntry.fromWriteOp (op : WriteOp) : ChangeEntry :=
  ⟨op.sequence, op.key, .fromValueType op.kind, op.value⟩

structure ChangeLog where
  entries : List ChangeEntry
  maxSeq : Nat
  deriving DecidableEq

/-- A sequence the feed has not come to. -/
def seqAfterFeed (seq feedMax : Nat) : Bool := seqExhausted seq feedMax

namespace ChangeLog

def new : ChangeLog := ⟨[], 0⟩

/-- The highest sequence; an empty feed has none, whatever it held. -/
def maxSequence (c : ChangeLog) : Nat := if c.entries.isEmpty then 0 else c.maxSeq

/-- Entries are added behind. -/
def extend (c : ChangeLog) (more : List ChangeEntry) : ChangeLog :=
  ⟨c.entries ++ more, more.foldl (fun m e => max m e.sequence) c.maxSeq⟩

def replaceSorted (entries : List ChangeEntry) : ChangeLog :=
  let entries := entries.insertionSort fun a b => a.sequence ≤ b.sequence
  ⟨entries, (entries.getLast?.map (·.sequence)).getD 0⟩

/-- What is read back from the file, if there is one. -/
def loadOn : Option (List ChangeEntry) → ChangeLog
  | none => new
  | some entries => replaceSorted entries

end ChangeLog

/-! ### The highest sequence -/

/-- The recorded maximum is that of the entries. -/
def ChangeLog.Exact (c : ChangeLog) : Prop := ∀ n, c.maxSeq ≤ n ↔ ∀ e ∈ c.entries, e.sequence ≤ n

theorem ChangeLog.Exact.extend {c : ChangeLog} (h : c.Exact) (more : List ChangeEntry) :
    (c.extend more).Exact := by
  intro n
  simp only [ChangeLog.extend, foldl_max, h n, List.mem_append]
  exact ⟨fun hn e he => he.elim (hn.1 e) (hn.2 e), fun hn =>
    ⟨fun e he => hn e (.inl he), fun e he => hn e (.inr he)⟩⟩

theorem ChangeLog.Exact.maxSequence {c : ChangeLog} (h : c.Exact) : c.maxSequence = c.maxSeq := by
  rw [ChangeLog.maxSequence]
  split
  · rename_i hnil
    have : c.maxSeq ≤ 0 := (h 0).mpr (by simp [List.isEmpty_iff.mp hnil])
    omega
  · rfl

theorem ChangeLog.replaceSorted_exact (es : List ChangeEntry) : (replaceSorted es).Exact := by
  have hsorted := es.pairwise_insertionSort fun a b : ChangeEntry => a.sequence ≤ b.sequence
  generalize hl : es.insertionSort (fun a b : ChangeEntry => a.sequence ≤ b.sequence) = l at hsorted
  intro n
  simp only [replaceSorted, hl]
  rcases List.eq_nil_or_concat l with rfl | ⟨front, last, rfl⟩
  · simp
  rw [List.concat_eq_append] at hsorted ⊢
  simp only [List.getLast?_concat, Option.map_some, Option.getD_some]
  refine ⟨fun hlast e he => ?_, fun hall => hall last (by simp)⟩
  rcases List.mem_append.mp he with he | he
  · exact le_trans ((List.pairwise_append.mp hsorted).2.2 e he last (by simp)) hlast
  · obtain rfl : e = last := by simpa using he
    exact hlast

theorem ChangeLog.loadOn_exact (stored : Option (List ChangeEntry)) : (loadOn stored).Exact := by
  cases stored with
  | none =>
    intro n
    simp [loadOn, new]
  | some es => exact replaceSorted_exact es

@[simp] theorem ChangeLog.mem_loadOn {stored : Option (List ChangeEntry)} {e : ChangeEntry} :
    e ∈ (loadOn stored).entries ↔ e ∈ stored.getD [] := by
  cases stored <;> simp [loadOn, new, replaceSorted]

end PedraDb.Feed
