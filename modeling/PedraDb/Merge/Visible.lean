import PedraDb.Merge.Internal
import PedraDb.Library.Heap
import PedraDb.Library.Kway

/-! Scanning sorted streams at once.

`StreamingVisibleIter` keeps the next entry of every stream in `heads` and the numbers of
the streams that have one in a heap, ordered by these entries. It takes the first entry,
asks its stream for the next one, and gives the entry if it is the first of its user key
that the snapshot sees in the range. A stream that is past the end of the range is dropped
from the heap; when one stream is left the heap is not touched any more.

The rows are those of the reference scan over all entries at once
(`streamed_as_range`). -/
namespace PedraDb
open List
open Function (update update_of_ne update_self)
open Layers Bytes

/-! ### The iterator -/

/-- Whether a key is after the end of a range. -/
def pastEnd (key : Key) : Bound → Bool
  | .unbounded => false
  | .included e => decide (e < key)
  | .excluded e => decide (e ≤ key)

/-- The order of heads; streams without one come last. -/
def headBefore : Option WriteOp → Option WriteOp → Bool
  | some a, some b => decide (InternalBefore a b)
  | some _, none => true
  | none, _ => false

/-- The newest version of a user key, and whether the snapshot sees a value in it. -/
structure WindowKv where
  key : Key
  value : Value
  snapshotLive : Bool
  deriving DecidableEq

structure StreamingVisibleIter (n : Nat) where
  heap : Array (Fin n)
  heads : Fin n → Option WriteOp
  streams : Fin n → Table
  snapshot : Nat
  rangeDels : Table
  start : Bound
  stop : Bound
  limit : Option Nat
  emitted : Nat
  skipUser : Option Key

variable {it' : StreamingVisibleIter n} {kv : Key × Value}

namespace StreamingVisibleIter

/-- The heap holds the streams with a head; a stream whose head is past the end has none. -/
def fromPointStreams (streams : List Table) (rangeDels : Table) (snapshot : Nat)
    (start stop : Bound) (limit : Option Nat) :
    StreamingVisibleIter streams.length :=
  let heads : Fin streams.length → Option WriteOp := fun i => (streams.get i).head?.filter fun v =>
    !pastEnd v.key stop
  let heap := ((List.finRange streams.length).filter fun i => (heads i).isSome).toArray
  { heap := Heap.heapify (fun a b => headBefore (heads a) (heads b)) heap
    heads := heads
    streams := fun i => (streams.get i).tail
    snapshot := snapshot
    rangeDels := rangeDels
    start := start
    stop := stop
    limit := limit
    emitted := 0
    skipUser := none }

/-- The points of a stream that the snapshot sees. -/
def pointsAt (snapshot : Nat) (stream : Table) : Table :=
  stream.filter fun v => decide (v.sequence ≤ snapshot) && v.kind != .rangeDeletion

def new (streams : List Table) (snapshot : Nat) (start stop : Bound) (limit : Option Nat) :
    StreamingVisibleIter (streams.map (pointsAt snapshot)).length :=
  fromPointStreams (streams.map (pointsAt snapshot))
    (streams.flatMap (collectRangeTombstones snapshot)) snapshot start stop limit

variable {n : Nat}

section
variable (it : StreamingVisibleIter n)

def headLt (a b : Fin n) : Bool := headBefore (it.heads a) (it.heads b)

def inRange (key : Key) : Bool := userKeyInRange key it.start it.stop

def beyondEnd (key : Key) : Bool := pastEnd key it.stop

def skipsUser (key : Key) : Bool := decide (it.skipUser = some key)

def window (v : WriteOp) : WindowKv :=
  ⟨v.key, v.value, v.kind == .value && !rangeDeleted v.key v.sequence it.rangeDels⟩

def left : Nat := it.heap.size + ∑ i, (it.streams i).length

/-- The next entry of the only stream becomes its head; without one the heap is cleared. -/
def pull (si : Fin n) : StreamingVisibleIter n :=
  match it.streams si with
  | [] => { it with heads := update it.heads si none, heap := #[] }
  | v :: rest => { it with heads := update it.heads si (some v), streams := update it.streams si rest }

end

theorem pull_lt {it : StreamingVisibleIter n} {si : Fin n} {v : WriteOp} (h : it.heads si = some v) :
    ((it.pull si).heads si).toList.length + ((it.pull si).streams si).length <
      (it.heads si).toList.length + (it.streams si).length := by
  rw [pull]
  split
  · rename_i hnil
    simp [h, hnil]
  · rename_i w rest hcons
    simp [h, hcons]

/-- The entries of the only stream, up to the first that is given. -/
def single (it : StreamingVisibleIter n) (si : Fin n) : Option WindowKv × StreamingVisibleIter n :=
  match _h : it.heads si with
  | none => (none, it.pull si)
  | some v =>
    if it.snapshot < v.sequence then single (it.pull si) si
    else if it.skipsUser v.key then single (it.pull si) si
    else if !it.inRange v.key then
      if it.beyondEnd v.key
        then (none, { it.pull si with heap := #[], heads := update (it.pull si).heads si none })
      else single (it.pull si) si
    else (some (it.window v), { it.pull si with skipUser := some v.key })
termination_by (it.heads si).toList.length + (it.streams si).length
decreasing_by all_goals exact pull_lt _h

/-! ### Many streams -/

/-- A stream that left the heap is asked again. It comes back with its next entry, unless that
entry or the one it gave is past the end. -/
def refill (it : StreamingVisibleIter n) (si : Fin n) (heap : Array (Fin n)) : StreamingVisibleIter n :=
  let head := (it.streams si).head?
  let it' := { it with
    heap := heap
    heads := update it.heads si none
    streams := update it.streams si (it.streams si).tail }
  if (it.heads si).any fun v => it.beyondEnd v.key then it'
  else if head.any fun v => it.beyondEnd v.key then it'
  else
    let it' := { it' with heads := update it.heads si head }
    if head.isSome then { it' with heap := Heap.push it'.headLt heap si } else it'

theorem headBefore_strictWeak : Heap.StrictWeak headBefore := by
  constructor
  · intro a b h
    match a, b, h with
    | some a, some b, h => simpa [headBefore] using InternalBefore.asymm (by simpa [headBefore] using h)
    | some a, none, _ => rfl
  · intro a b h c
    match a, b, c, h with
    | some a, some b, some c, h =>
      simpa [headBefore] using InternalBefore.split (by simpa [headBefore] using h) c
    | some _, some _, none, _ => exact .inl rfl
    | some _, none, some _, _ => exact .inr rfl
    | some _, none, none, _ => exact .inl rfl

variable (it : StreamingVisibleIter n)

theorem headLt_strictWeak : Heap.StrictWeak it.headLt :=
  ⟨fun h => headBefore_strictWeak.asymm h, fun h c => headBefore_strictWeak.split h (it.heads c)⟩

theorem pop_left_lt {it : StreamingVisibleIter n} {si : Fin n} {heap : Array (Fin n)}
    (h : Heap.pop it.headLt it.heap = some (si, heap)) :
    (it.refill si heap).left < it.left := by
  have hsize : it.heap.size = heap.size + 1 := by
    simpa using (Heap.pop_spec it.headLt_strictWeak h).1.length_eq
  have hsum := Kway.sum_update List.length it.streams si (it.streams si).tail
  have hgone : heap.size + ∑ i, (update it.streams si (it.streams si).tail i).length < it.left := by
    rw [length_tail] at hsum
    simp only [left]
    omega
  simp only [refill]
  split
  · exact hgone
  split
  · exact hgone
  split
  · rename_i hsome
    have hpush := (Heap.push_perm (headLt { it with
        heap := heap, heads := update it.heads si (it.streams si).head?
        streams := update it.streams si (it.streams si).tail }) heap si).length_eq
    have hne : 0 < (it.streams si).length := by
      rw [length_pos_iff]
      rintro hnil
      simp [hnil] at hsome
    rw [length_tail] at hsum
    simp only [left, Array.length_toList, length_cons] at *
    omega
  · exact hgone

/-- The first entries of the streams, up to the first that is given. -/
def merge (it : StreamingVisibleIter n) : Option WindowKv × StreamingVisibleIter n :=
  match _h : Heap.pop it.headLt it.heap with
  | none => (none, it)
  | some (si, heap) =>
    match it.heads si with
    | none => merge (it.refill si heap)
    | some v =>
      if it.snapshot < v.sequence then merge (it.refill si heap)
      else if it.skipsUser v.key then merge (it.refill si heap)
      else if !it.inRange v.key then merge (it.refill si heap)
      else (some (it.window v), { it.refill si heap with skipUser := some v.key })
termination_by it.left
decreasing_by all_goals exact pop_left_lt _h

def nextWindowKv (it : StreamingVisibleIter n) : Option WindowKv × StreamingVisibleIter n :=
  if h : it.heap.size = 1 then it.single it.heap[0] else it.merge

theorem pull_left_le (si : Fin n) : (it.pull si).left ≤ it.left := by
  rw [pull]
  split
  · simp [left]
  · rename_i v rest hcons
    have hsum := Kway.sum_update List.length it.streams si rest
    rw [hcons, length_cons] at hsum
    simp only [left]
    omega

theorem pull_left_lt {it : StreamingVisibleIter n} (hheap : 0 < it.heap.size) (si : Fin n) :
    (it.pull si).left < it.left := by
  rw [pull]
  split
  · simpa [left] using hheap
  · rename_i v rest hcons
    have hsum := Kway.sum_update List.length it.streams si rest
    rw [hcons, length_cons] at hsum
    simp only [left]
    omega

theorem single_left_le (si : Fin n) : (it.single si).2.left ≤ (it.pull si).left := by
  fun_induction single it si with
  | case1 => exact le_rfl
  | case2 it v h _ ih => exact le_trans ih (pull_left_le _ si)
  | case3 it v h _ _ ih => exact le_trans ih (pull_left_le _ si)
  | case4 => simp [left]
  | case5 it v h _ _ _ _ ih => exact le_trans ih (pull_left_le _ si)
  | case6 => exact le_rfl

variable {it it' : StreamingVisibleIter n}

theorem merge_left_lt {row : WindowKv} (h : it.merge = (some row, it')) : it'.left < it.left := by
  fun_induction merge it with
  | case1 => cases h
  | case2 it si heap hpop _ ih => exact lt_trans (ih h) (pop_left_lt hpop)
  | case3 it si heap hpop v _ _ ih => exact lt_trans (ih h) (pop_left_lt hpop)
  | case4 it si heap hpop v _ _ _ ih => exact lt_trans (ih h) (pop_left_lt hpop)
  | case5 it si heap hpop v _ _ _ _ ih => exact lt_trans (ih h) (pop_left_lt hpop)
  | case6 it si heap hpop v =>
    cases h
    have hlt := pop_left_lt hpop
    exact hlt

theorem nextWindowKv_left_lt {row : WindowKv} (h : it.nextWindowKv = (some row, it')) :
    it'.left < it.left := by
  rw [nextWindowKv] at h
  split at h
  · have hle := single_left_le it it.heap[0]
    rw [h] at hle
    exact lt_of_le_of_lt hle (pull_left_lt (by omega) _)
  · exact merge_left_lt h

/-- The rows up to the first that the snapshot sees. -/
def nextLive (it : StreamingVisibleIter n) : Option (Key × Value) × StreamingVisibleIter n :=
  match _h : it.nextWindowKv with
  | (none, it') => (none, it')
  | (some row, it') =>
    if row.snapshotLive then (some (row.key, row.value), { it' with emitted := it'.emitted + 1 })
      else nextLive it'
termination_by it.left
decreasing_by exact nextWindowKv_left_lt _h

def next (it : StreamingVisibleIter n) : Option (Key × Value) × StreamingVisibleIter n :=
  if it.limit.any fun max => decide (max ≤ it.emitted) then (none, it) else it.nextLive

theorem nextLive_left_lt (h : it.nextLive = (some kv, it')) : it'.left < it.left := by
  fun_induction nextLive it with
  | case1 => cases h
  | case2 it row it₁ hnext _ =>
    cases h
    have hlt := nextWindowKv_left_lt hnext
    exact hlt
  | case3 it row it₁ hnext _ ih => exact lt_trans (ih h) (nextWindowKv_left_lt hnext)

theorem next_left_lt (h : it.next = (some kv, it')) : it'.left < it.left := by
  rw [next] at h
  split at h
  · cases h
  · exact nextLive_left_lt h

def collect (it : StreamingVisibleIter n) : List (Key × Value) :=
  match _h : it.next with
  | (none, _) => []
  | (some kv, it') => kv :: collect it'
termination_by it.left
decreasing_by exact next_left_lt _h

/-! ### The rows to come -/

def pending (it : StreamingVisibleIter n) (i : Fin n) : Table :=
  match it.heads i with
  | none => []
  | some v => v :: it.streams i

def content (it : StreamingVisibleIter n) : Table := it.heap.toList.flatMap it.pending

/-- Whether the snapshot sees an entry in the range. -/
def sees (it : StreamingVisibleIter n) (v : WriteOp) : Bool :=
  decide (v.sequence ≤ it.snapshot) && it.inRange v.key

/-- The versions that are still to be given. -/
def rows (it : StreamingVisibleIter n) : Table :=
  firstPerKey it.skipUser (sortInternal (it.content.filter it.sees))

/-- The heap is in order and holds each stream once, with a head; the streams are in order. -/
structure Ready (it : StreamingVisibleIter n) : Prop where
  ordered : Heap.Ordered it.headLt it.heap
  single : it.heap.toList.Nodup
  head : ∀ i ∈ it.heap.toList, (it.heads i).isSome = true
  sorted : ∀ i ∈ it.heap.toList, (it.pending i).Pairwise InternalBefore
  distinct : InternallyDistinct it.content

/-- Nothing but the streams, the heap and the key to skip has changed. -/
structure Follows (it it' : StreamingVisibleIter n) : Prop where
  snapshot : it'.snapshot = it.snapshot
  rangeDels : it'.rangeDels = it.rangeDels
  start : it'.start = it.start
  stop : it'.stop = it.stop
  limit : it'.limit = it.limit
  emitted : it'.emitted = it.emitted

/-- An entry has left that comes before all others, and with it some that are not in the range. -/
structure Popped (it : StreamingVisibleIter n) (v : WriteOp) (it' : StreamingVisibleIter n) : Prop where
  follows : Follows it it'
  skip : it'.skipUser = it.skipUser
  ready : Ready it'
  before : ∀ w ∈ it'.content, InternalBefore v w
  gone : ∃ dropped, it.content.Perm (v :: (it'.content ++ dropped)) ∧
    ∀ w ∈ dropped, it.inRange w.key = false

theorem Follows.trans {a b c : StreamingVisibleIter n} (h : Follows a b) (h' : Follows b c) :
    Follows a c :=
  ⟨h'.snapshot.trans h.snapshot, h'.rangeDels.trans h.rangeDels, h'.start.trans h.start,
    h'.stop.trans h.stop,
    h'.limit.trans h.limit, h'.emitted.trans h.emitted⟩

theorem Follows.inRange (h : Follows it it') (key : Key) : it'.inRange key = it.inRange key := by
  rw [StreamingVisibleIter.inRange, StreamingVisibleIter.inRange, h.start, h.stop]

theorem Follows.sees (h : Follows it it') (v : WriteOp) : it'.sees v = it.sees v := by
  rw [StreamingVisibleIter.sees, StreamingVisibleIter.sees, h.snapshot, h.inRange]

theorem Follows.window (h : Follows it it') (v : WriteOp) : it'.window v = it.window v := by
  rw [StreamingVisibleIter.window, StreamingVisibleIter.window, h.rangeDels]

section Popped
variable {v : WriteOp}

section
variable (hdistinct : InternallyDistinct it.content)
include hdistinct

theorem Popped.sorted (h : Popped it v it') :
    sortInternal (it.content.filter it.sees) =
      if it.sees v then v :: sortInternal (it'.content.filter it'.sees)
      else sortInternal (it'.content.filter it'.sees) := by
  obtain ⟨dropped, hperm, hdropped⟩ := h.gone
  have hmem (w : WriteOp) : w ∈ sortInternal (it.content.filter it.sees) ↔
      (w = v ∨ w ∈ it'.content) ∧ it.sees w = true := by
    rw [mem_sortInternal, mem_filter, hperm.mem_iff, mem_cons, mem_append]
    constructor
    · rintro ⟨h | h | h, hsees⟩
      · exact ⟨.inl h, hsees⟩
      · exact ⟨.inr h, hsees⟩
      · simp [StreamingVisibleIter.sees, hdropped w h] at hsees
    · rintro ⟨h | h, hsees⟩
      · exact ⟨.inl h, hsees⟩
      · exact ⟨.inr (.inl h), hsees⟩
  have hmem' (w : WriteOp) : w ∈ sortInternal (it'.content.filter it'.sees) ↔ w ∈ it'.content ∧
      it.sees w = true := by
    rw [mem_sortInternal, mem_filter, h.follows.sees]
  have hstrict := sortInternal_strict (hdistinct.sublist (filter_sublist (p := it.sees)))
  have hstrict' := sortInternal_strict (h.ready.distinct.sublist (filter_sublist (p := it'.sees)))
  split
  · rename_i hsees
    refine eq_of_strict hstrict (pairwise_cons.mpr ⟨fun w hw => h.before w ((hmem' w).mp hw).1,
      hstrict'⟩) fun w => ?_
    rw [hmem, mem_cons, hmem']
    constructor
    · rintro ⟨rfl | hw, hs⟩
      · exact .inl rfl
      · exact .inr ⟨hw, hs⟩
    · rintro (rfl | ⟨hw, hs⟩)
      · exact ⟨.inl rfl, hsees⟩
      · exact ⟨.inr hw, hs⟩
  · rename_i hsees
    refine eq_of_strict hstrict hstrict' fun w => ?_
    rw [hmem, hmem']
    constructor
    · rintro ⟨rfl | hw, hs⟩
      · exact absurd hs hsees
      · exact ⟨hw, hs⟩
    · rintro ⟨hw, hs⟩
      exact ⟨.inr hw, hs⟩

theorem Popped.rows_skip (h : Popped it v it')
    (hskip : it.sees v = false ∨ it.skipUser = some v.key) : it.rows = it'.rows := by
  rw [rows, rows, h.sorted hdistinct, h.skip]
  split
  · rename_i hsees
    have hskip := hskip.resolve_left (by simp [hsees])
    rw [firstPerKey, if_pos hskip]
  · rfl

theorem Popped.rows_give (h : Popped it v it') (hsees : it.sees v = true)
    (hskip : it.skipUser ≠ some v.key) : it.rows = v :: rows { it' with skipUser := some v.key } := by
  rw [rows, h.sorted hdistinct, if_pos hsees, firstPerKey, if_neg hskip]
  rfl

end

end Popped

theorem pastEnd_mono {stop : Bound} {key key' : Key} (hle : key ≤ key')
    (h : pastEnd key stop = true) : pastEnd key' stop = true := by
  cases stop with
  | unbounded => cases h
  | included e =>
    simp only [pastEnd, decide_eq_true_eq] at *
    exact Std.lt_of_lt_of_le h hle
  | excluded e =>
    simp only [pastEnd, decide_eq_true_eq] at *
    exact List.le_trans h hle

theorem not_inRange_of_beyondEnd {key : Key} (h : it.beyondEnd key = true) : it.inRange key = false := by
  rw [beyondEnd] at h
  rw [inRange, userKeyInRange, inBounds, Bool.and_eq_false_iff]
  right
  cases hstop : it.stop with
  | unbounded =>
    rw [hstop] at h
    cases h
  | included e | excluded e =>
    rw [hstop] at h
    simpa [pastEnd, Bound.below] using h

theorem InternalBefore.key_le {a b : WriteOp} (h : InternalBefore a b) : a.key ≤ b.key := by
  rcases h with h | ⟨h, -⟩
  · exact List.le_of_lt h
  · rw [h]
    exact List.le_refl _

theorem not_inRange_of_before {v w : WriteOp} (h : it.beyondEnd v.key = true)
    (hbefore : InternalBefore v w) : it.inRange w.key = false :=
  not_inRange_of_beyondEnd (pastEnd_mono (InternalBefore.key_le hbefore) h)

/-! ### One stream -/

section Single
variable {si : Fin n} {v : WriteOp}

theorem pending_some (h : it.heads si = some v) : it.pending si = v :: it.streams si := by
  rw [pending, h]

theorem ready_empty (hheap : it.heap = #[]) : Ready it := by
  have hnil : it.heap.toList = [] := by rw [hheap]
  refine ⟨fun i j hi => by simp [hheap] at hi, by simp [hnil], by simp [hnil], by simp [hnil], ?_⟩
  rw [content, hnil]
  exact .nil

theorem rows_empty (hheap : it.heap = #[]) : it.rows = [] := by
  rw [rows, content, hheap]
  rfl

theorem pull_popped (hready : Ready it) (hheap : it.heap = #[si] ∨ it.heap = #[] ∧ it.heads si = none)
    (hhead : it.heads si = some v) : Popped it v (it.pull si) ∧
      ((it.pull si).heap = #[si] ∨ (it.pull si).heap = #[] ∧ (it.pull si).heads si = none) := by
  have hheap := hheap.resolve_right fun h => by simp [hhead] at h
  have hcontent : it.content = v :: it.streams si := by simp [content, hheap, pending_some hhead]
  have hsorted := hready.sorted si (by simp [hheap])
  rw [pending_some hhead] at hsorted
  obtain ⟨hbefore, hsorted⟩ := pairwise_cons.mp hsorted
  have hdistinct := hready.distinct
  rw [hcontent] at hdistinct
  rw [pull]
  split
  · rename_i hnil
    refine ⟨⟨⟨rfl, rfl, rfl, rfl, rfl, rfl⟩, rfl, ready_empty rfl,
      by simp [content], [], ?_, by simp⟩, .inr ⟨rfl, update_self _ _ _⟩⟩
    rw [hcontent, hnil]
    exact .refl _
  · rename_i w rest hcons
    have hcontent' : content
      { it with heads := update it.heads si (some w), streams := update it.streams si rest } =
        w :: rest := by
      simp [content, hheap, pending]
    rw [hcons] at hbefore hsorted hdistinct hcontent
    refine ⟨⟨⟨rfl, rfl, rfl, rfl, rfl, rfl⟩, rfl,
      ⟨fun i j hi hj hij => ?_, by simp [hheap], ?_, ?_, ?_⟩, ?_, [], ?_, by simp⟩, .inl hheap⟩
    · have := hij.above
      simp [hheap] at hi hj
      omega
    · simp [hheap]
    · simpa [hheap, pending] using hsorted
    · rw [hcontent']
      exact hdistinct.sublist (sublist_cons_self _ _)
    · rw [hcontent']
      exact hbefore
    · rw [hcontent', hcontent, append_nil]

/-- What a call gives: no row if none is to come, else the first. -/
def Gives (it : StreamingVisibleIter n) (result : Option WindowKv × StreamingVisibleIter n) : Prop :=
  match result.1 with
  | none => it.rows = []
  | some row =>
    ∃ v, it.rows = v :: result.2.rows ∧ row = it.window v ∧ Ready result.2 ∧ Follows it result.2

theorem Gives.after {result : Option WindowKv × StreamingVisibleIter n} (h : Gives it' result)
    (hdistinct : InternallyDistinct it.content) (hpopped : Popped it v it')
    (hskip : it.sees v = false ∨ it.skipUser = some v.key) :
    Gives it result := by
  have hfollows := hpopped.follows
  rw [Gives] at *
  rw [hpopped.rows_skip hdistinct hskip]
  split
  · rename_i hnone
    rwa [hnone] at h
  · rename_i row hsome
    rw [hsome] at h
    obtain ⟨v, h₁, h₂, h₃, h₄⟩ := h
    exact ⟨v, h₁, by rw [h₂, hfollows.window], h₃, hfollows.trans h₄⟩

theorem Gives.row (hready : Ready it) (h : Popped it v it') (hsees : it.sees v = true)
    (hskip : it.skipsUser v.key = false) :
    Gives it (some (it.window v), { it' with skipUser := some v.key }) := by
  have hskip : it.skipUser ≠ some v.key := by simpa [skipsUser] using hskip
  have hready' := h.ready
  exact ⟨v, h.rows_give hready.distinct hsees hskip, rfl, { hready' with },
    ⟨h.follows.snapshot, h.follows.rangeDels, h.follows.start, h.follows.stop, h.follows.limit,
      h.follows.emitted⟩⟩

theorem single_gives (hready : Ready it)
    (hheap : it.heap = #[si] ∨ it.heap = #[] ∧ it.heads si = none) : Gives it (it.single si) := by
  fun_induction single it si with
  | case1 it hnone =>
    rcases hheap with hheap | ⟨hheap, -⟩
    · have := hready.head si (by simp [hheap])
      rw [hnone] at this
      cases this
    · exact rows_empty hheap
  | case2 it v hhead hseq ih =>
    obtain ⟨hpopped, hnext⟩ := pull_popped hready hheap hhead
    exact (ih hpopped.ready hnext).after hready.distinct hpopped (.inl (by simp [sees, not_le.mpr hseq]))
  | case3 it v hhead hseq hskip ih =>
    obtain ⟨hpopped, hnext⟩ := pull_popped hready hheap hhead
    exact (ih hpopped.ready hnext).after hready.distinct hpopped (.inr (by simpa [skipsUser] using hskip))
  | case4 it v hhead hseq hskip hrange hbeyond =>
    -- what comes later in the stream is past the end too
    obtain ⟨hpopped, -⟩ := pull_popped hready hheap hhead
    refine hpopped.rows_skip hready.distinct (.inl ?_) |>.trans ?_
    · rw [sees, not_inRange_of_beyondEnd hbeyond, Bool.and_false]
    have hnone : (it.pull si).content.filter (it.pull si).sees = [] := by
      refine filter_eq_nil_iff.mpr fun w hw => ?_
      rw [hpopped.follows.sees, sees, not_inRange_of_before hbeyond (hpopped.before w hw), Bool.and_false]
      exact Bool.false_ne_true
    rw [rows, hnone]
    rfl
  | case5 it v hhead hseq hskip hrange hbeyond ih =>
    obtain ⟨hpopped, hnext⟩ := pull_popped hready hheap hhead
    have hsees : it.sees v = false := by
      rw [Bool.not_eq_true'] at hrange
      rw [sees, hrange, Bool.and_false]
    exact (ih hpopped.ready hnext).after hready.distinct hpopped (.inl hsees)
  | case6 it v hhead hseq hskip hrange =>
    obtain ⟨hpopped, -⟩ := pull_popped hready hheap hhead
    have hrange : it.inRange v.key = true := by simpa using hrange
    exact Gives.row hready hpopped (by simp [sees, hrange, not_lt.mp hseq]) (by simpa using hskip)

end Single

/-! ### Many streams -/

section Merge
variable {si : Fin n} {v : WriteOp} {heap : Array (Fin n)}

theorem pop_first (hready : Ready it) (hpop : Heap.pop it.headLt it.heap = some (si, heap))
    (hhead : it.heads si = some v) :
    si ∉ heap.toList ∧ heap.toList.Nodup ∧ Heap.Ordered it.headLt heap ∧
    (∀ i ∈ heap.toList, i ∈ it.heap.toList) ∧
      it.content.Perm (v :: (it.streams si ++ heap.toList.flatMap it.pending)) ∧
      ∀ w ∈ it.streams si ++ heap.toList.flatMap it.pending, InternalBefore v w := by
  obtain ⟨hperm, hspec⟩ := Heap.pop_spec it.headLt_strictWeak hpop
  obtain ⟨hordered, hleast⟩ := hspec hready.ordered
  obtain ⟨hsi, hnodup⟩ := nodup_cons.mp (hperm.nodup_iff.mp hready.single)
  have hsub : ∀ i ∈ heap.toList, i ∈ it.heap.toList :=
    fun i hi => hperm.mem_iff.mpr (mem_cons_of_mem _ hi)
  have hcontent : it.content.Perm (v :: (it.streams si ++ heap.toList.flatMap it.pending)) := by
    have h := hperm.flatMap_right it.pending
    rwa [flatMap_cons, pending_some hhead] at h
  have hsorted := hready.sorted si (hperm.mem_iff.mpr mem_cons_self)
  rw [pending_some hhead] at hsorted
  refine ⟨hsi, hnodup, hordered, hsub, hcontent, fun w hw => ?_⟩
  rcases mem_append.mp hw with hw | hw
  · exact (pairwise_cons.mp hsorted).1 w hw
  have hsources : ∀ s ∈ heap.toList.map it.pending, s.Pairwise InternalBefore := fun s hs => by
    obtain ⟨i, hi, rfl⟩ := mem_map.mp hs
    exact hready.sorted i (hsub i hi)
  have hheads : ∀ s ∈ heap.toList.map it.pending, ∀ h ∈ s.head?, InternalBefore v h := fun s hs h hh => by
    obtain ⟨i, hi, rfl⟩ := mem_map.mp hs
    obtain ⟨u, hu⟩ := Option.isSome_iff_exists.mp (hready.head i (hsub i hi))
    rw [pending_some hu] at hh
    cases hh
    have hother : h ∈ it.streams si ++ heap.toList.flatMap it.pending := by
      refine mem_append_right _ (mem_flatMap.mpr ⟨i, hi, ?_⟩)
      rw [pending_some hu]
      exact mem_cons_self
    have hne := (pairwise_cons.mp (hready.distinct.perm hcontent)).1 h hother
    refine (InternalBefore.total hne).resolve_right fun hbefore => ?_
    have := hleast i (hsub i hi)
    rw [headLt, hu, hhead] at this
    simp [headBefore, hbefore] at this
  rw [flatMap_def] at hw
  exact Kway.before_all hsources hheads (fun _ _ _ => InternalBefore.trans) hw

theorem pending_other {i : Fin n} (hheads : it'.heads i = it.heads i)
    (hstreams : it'.streams i = it.streams i) : it'.pending i = it.pending i := by
  rw [pending, pending, hheads, hstreams]

section
variable (hready : Ready it)
include hready

section
variable (hpop : Heap.pop it.headLt it.heap = some (si, heap)) (hhead : it.heads si = some v)
include hpop hhead

theorem dropped_popped (hgone : ∀ w ∈ it.streams si, it.inRange w.key = false) (hfollows : Follows it it')
    (hskip : it'.skipUser = it.skipUser) (hheap : it'.heap = heap)
    (hheads : ∀ i, i ≠ si → it'.heads i = it.heads i)
    (hstreams : ∀ i, i ≠ si → it'.streams i = it.streams i) : Popped it v it' := by
  obtain ⟨hsi, hnodup, hordered, hsub, hperm, hbefore⟩ := pop_first hready hpop hhead
  have hne {i : Fin n} (hi : i ∈ heap.toList) : i ≠ si := fun heq => hsi (heq ▸ hi)
  have hpending : ∀ i ∈ heap.toList, it'.pending i = it.pending i := fun i hi =>
    pending_other (hheads i (hne hi)) (hstreams i (hne hi))
  have hcontent : it'.content = heap.toList.flatMap it.pending := by
    rw [content, hheap]
    exact flatMap_congr hpending
  refine ⟨hfollows, hskip, ⟨?_, ?_, ?_, ?_, ?_⟩, ?_, it.streams si, ?_, hgone⟩
  · rw [hheap]
    exact hordered.congr fun a ha b hb => by rw [headLt, headLt, hheads a (hne ha), hheads b (hne hb)]
  · rwa [hheap]
  · rw [hheap]
    exact fun i hi => (hheads i (hne hi)).symm ▸ hready.head i (hsub i hi)
  · rw [hheap]
    exact fun i hi => (hpending i hi).symm ▸ hready.sorted i (hsub i hi)
  · rw [hcontent]
    exact (hready.distinct.perm hperm).sublist ((sublist_append_right _ _).trans (sublist_cons_self _ _))
  · rw [hcontent]
    exact fun w hw => hbefore w (mem_append_right _ hw)
  · rw [hcontent]
    exact hperm.trans (perm_append_comm.cons _)

theorem pushed_popped {w : WriteOp} {rest : Table} (hcons : it.streams si = w :: rest)
    (hfollows : Follows it it')
    (hskip : it'.skipUser = it.skipUser) (hheap : it'.heap = Heap.push it'.headLt heap si)
    (hheads : it'.heads = update it.heads si (some w))
    (hstreams : it'.streams = update it.streams si rest) :
    Popped it v it' := by
  obtain ⟨hsi, hnodup, hordered, hsub, hperm, hbefore⟩ := pop_first hready hpop hhead
  have hne {i : Fin n} (hi : i ∈ heap.toList) : i ≠ si := fun heq => hsi (heq ▸ hi)
  have hothers : ∀ i ∈ heap.toList, it'.heads i = it.heads i :=
    fun i hi => by rw [hheads, update_of_ne (hne hi)]
  have hpending : ∀ i ∈ heap.toList, it'.pending i = it.pending i := fun i hi =>
    pending_other (hothers i hi) (by rw [hstreams, update_of_ne (hne hi)])
  have hsame : it'.pending si = it.streams si := by
    rw [pending, hheads, hstreams, update_self, update_self, hcons]
  have hpush : it'.heap.toList.Perm (si :: heap.toList) := hheap ▸ Heap.push_perm _ _ _
  have hcontent : it'.content.Perm (it.streams si ++ heap.toList.flatMap it.pending) := by
    have h := hpush.flatMap_right it'.pending
    rwa [flatMap_cons, hsame, flatMap_congr hpending] at h
  have hall {P : Fin n → Prop} (hP : P si) (hP' : ∀ i ∈ heap.toList, P i) :
      ∀ i ∈ it'.heap.toList, P i := fun i hi => by
    rcases mem_cons.mp (hpush.mem_iff.mp hi) with rfl | hi
    · exact hP
    · exact hP' i hi
  have hsorted := hready.sorted si ?_
  rw [pending_some hhead] at hsorted
  refine ⟨hfollows, hskip, ⟨?_, ?_, ?_, ?_, ?_⟩, ?_, [], ?_, by simp⟩
  · rw [hheap]
    refine Heap.Ordered.push it'.headLt_strictWeak ?_ si
    exact hordered.congr fun a ha b hb => by rw [headLt, headLt, hothers a ha, hothers b hb]
  · exact hpush.nodup_iff.mpr (nodup_cons.mpr ⟨hsi, hnodup⟩)
  · exact hall (by rw [hheads, update_self]; rfl) fun i hi =>
      (hothers i hi).symm ▸ hready.head i (hsub i hi)
  · exact hall (hsame.symm ▸ (pairwise_cons.mp hsorted).2) fun i hi =>
      (hpending i hi).symm ▸ hready.sorted i (hsub i hi)
  · exact ((hready.distinct.perm hperm).sublist (sublist_cons_self _ _)).perm hcontent.symm
  · exact fun u hu => hbefore u (hcontent.mem_iff.mp hu)
  · rw [append_nil]
    exact hperm.trans (hcontent.symm.cons _)
  · exact (Heap.pop_spec it.headLt_strictWeak hpop).1.mem_iff.mpr mem_cons_self

theorem refill_popped : Popped it v (it.refill si heap) := by
  obtain ⟨-, -, -, -, -, hbefore⟩ := pop_first hready hpop hhead
  have hsorted := hready.sorted si ((Heap.pop_spec it.headLt_strictWeak hpop).1.mem_iff.mpr mem_cons_self)
  rw [pending_some hhead] at hsorted
  have hheads {x : Option WriteOp} : ∀ i, i ≠ si → update it.heads si x i = it.heads i :=
    fun i hi => update_of_ne hi _ _
  have hstreams : ∀ i, i ≠ si → update it.streams si (it.streams si).tail i = it.streams i :=
    fun i hi => update_of_ne hi _ _
  simp only [refill]
  split
  · rename_i hbeyond
    refine dropped_popped hready hpop hhead (fun w hw => ?_) ⟨rfl, rfl, rfl, rfl, rfl,
      rfl⟩ rfl rfl hheads hstreams
    exact not_inRange_of_before (by simpa [hhead] using hbeyond) (hbefore w (mem_append_left _ hw))
  split
  · rename_i hbeyond
    refine dropped_popped hready hpop hhead ?_ ⟨rfl, rfl, rfl, rfl, rfl, rfl⟩ rfl rfl hheads hstreams
    cases hcons : it.streams si with
    | nil => simp
    | cons w rest =>
      rw [hcons] at hbeyond hsorted
      have hbeyond : it.beyondEnd w.key = true := hbeyond
      obtain ⟨hw, -⟩ := pairwise_cons.mp (pairwise_cons.mp hsorted).2
      exact forall_mem_cons.mpr ⟨not_inRange_of_beyondEnd hbeyond,
        fun u hu => not_inRange_of_before hbeyond (hw u hu)⟩
  · split
    · rename_i hsome
      cases hcons : it.streams si with
      | nil => simp [hcons] at hsome
      | cons w rest =>
        exact pushed_popped hready hpop hhead hcons ⟨rfl, rfl, rfl, rfl, rfl, rfl⟩ rfl rfl rfl rfl
    · rename_i hnone
      have hnil : it.streams si = [] := by simpa using hnone
      exact dropped_popped hready hpop hhead (by simp [hnil]) ⟨rfl, rfl, rfl, rfl, rfl,
        rfl⟩ rfl rfl hheads hstreams

end

theorem merge_gives : Gives it it.merge := by
  fun_induction merge it with
  | case1 it hpop =>
    have hnil : it.heap = #[] := by simpa using Heap.pop_none hpop
    exact rows_empty hnil
  | case2 it si heap hpop hnone _ =>
    have := hready.head si ((Heap.pop_spec it.headLt_strictWeak hpop).1.mem_iff.mpr mem_cons_self)
    rw [hnone] at this
    cases this
  | case3 it si heap hpop v hhead hseq ih =>
    have hpopped := refill_popped hready hpop hhead
    exact (ih hpopped.ready).after hready.distinct hpopped (.inl (by simp [sees, not_le.mpr hseq]))
  | case4 it si heap hpop v hhead hseq hskip ih =>
    have hpopped := refill_popped hready hpop hhead
    exact (ih hpopped.ready).after hready.distinct hpopped (.inr (by simpa [skipsUser] using hskip))
  | case5 it si heap hpop v hhead hseq hskip hrange ih =>
    have hpopped := refill_popped hready hpop hhead
    have hsees : it.sees v = false := by
      rw [Bool.not_eq_true'] at hrange
      rw [sees, hrange, Bool.and_false]
    exact (ih hpopped.ready).after hready.distinct hpopped (.inl hsees)
  | case6 it si heap hpop v hhead hseq hskip hrange =>
    have hrange : it.inRange v.key = true := by simpa using hrange
    exact Gives.row hready (refill_popped hready hpop hhead)
      (by simp [sees, hrange, not_lt.mp hseq]) (by simpa using hskip)

/-- **The next row.** A call gives the first of the rows to come. -/
theorem nextWindowKv_gives : Gives it it.nextWindowKv := by
  rw [nextWindowKv]
  split
  · rename_i hsize
    refine single_gives hready (.inl ?_)
    obtain ⟨a, ha⟩ := Array.size_eq_one_iff.mp hsize
    simp [ha]
  · exact merge_gives hready

end

end Merge

section Collect

def liveRow (it : StreamingVisibleIter n) (v : WriteOp) : Option (Key × Value) :=
  if v.kind == .value && !rangeDeleted v.key v.sequence it.rangeDels then some (v.key, v.value) else none

theorem Follows.liveRow (h : Follows it it') : it'.liveRow = it.liveRow := by
  funext v
  rw [StreamingVisibleIter.liveRow, StreamingVisibleIter.liveRow, h.rangeDels]

theorem nextLive_gives (hready : Ready it) :
    match it.nextLive with
    | (none, _) => it.rows.filterMap it.liveRow = []
    | (some kv, it') => it.rows.filterMap it.liveRow = kv :: it'.rows.filterMap it'.liveRow ∧ Ready it' ∧
        it'.limit = it.limit ∧ it'.emitted = it.emitted + 1 := by
  fun_induction nextLive it with
  | case1 it it' hnext =>
    have h := nextWindowKv_gives hready
    rw [hnext] at h
    have h : it.rows = [] := h
    rw [h, filterMap_nil]
  | case2 it row it' hnext hlive =>
    have h := nextWindowKv_gives hready
    rw [hnext] at h
    obtain ⟨v, hrows, rfl, hready', hfollows⟩ := h
    have hrow : it.liveRow v = some (v.key, v.value) := if_pos hlive
    refine ⟨?_, { hready' with }, hfollows.limit, ?_⟩
    · rw [hrows, filterMap_cons, hrow, ← hfollows.liveRow]
      rfl
    · exact congrArg (· + 1) hfollows.emitted
  | case3 it row it' hnext hlive ih =>
    have h := nextWindowKv_gives hready
    rw [hnext] at h
    obtain ⟨v, hrows, rfl, hready', hfollows⟩ := h
    have hrow : it.liveRow v = none := if_neg hlive
    have ih := ih hready'
    rw [hrows, filterMap_cons, hrow, ← hfollows.liveRow, ← hfollows.limit, ← hfollows.emitted]
    exact ih

/-- What the limit leaves of the rows. -/
def upTo (it : StreamingVisibleIter n) (rows : List (Key × Value)) : List (Key × Value) :=
  match it.limit with
  | none => rows
  | some max => rows.take (max - it.emitted)

theorem collect_rows (hready : Ready it) : it.collect = it.upTo (it.rows.filterMap it.liveRow) := by
  fun_induction collect it with
  | case1 it it' hnext =>
    rw [next] at hnext
    split at hnext
    · rename_i hlimit
      obtain ⟨max, hmax, hle⟩ : ∃ max, it.limit = some max ∧ max ≤ it.emitted := by
        simpa [Option.any_eq_true] using hlimit
      simp [upTo, hmax, Nat.sub_eq_zero_of_le hle]
    · have h := nextLive_gives hready
      rw [hnext] at h
      rw [h, upTo]
      split <;> simp
  | case2 it kv it' hnext ih =>
    rw [next] at hnext
    split at hnext
    · cases hnext
    rename_i hlimit
    have h := nextLive_gives hready
    rw [hnext] at h
    obtain ⟨hrows, hready', hlim, hemitted⟩ := h
    rw [ih hready', hrows, upTo, upTo, hlim, hemitted]
    cases hmax : it.limit with
    | none => rfl
    | some max =>
      have hlt : it.emitted < max := by simpa [hmax] using hlimit
      obtain ⟨k, hk⟩ : ∃ k, max - it.emitted = k + 1 := ⟨max - it.emitted - 1, by omega⟩
      have hk' : max - (it.emitted + 1) = k := by omega
      simp [hk, hk']

end Collect

theorem fromPointStreams_ready (streams : List Table) (rangeDels : Table) (snapshot : Nat)
    (start stop : Bound) (limit : Option Nat)
    (hsorted : ∀ s ∈ streams, s.Pairwise InternalBefore)
    (hdistinct : InternallyDistinct streams.flatten) :
    Ready (fromPointStreams streams rangeDels snapshot start stop limit) ∧
      ∀ v, (fromPointStreams streams rangeDels snapshot start stop limit).sees v = true →
        (v ∈ (fromPointStreams streams rangeDels snapshot start stop limit).content ↔
          v ∈ streams.flatten) := by
  generalize hit : fromPointStreams streams rangeDels snapshot start stop limit = it
  have hheads (i : Fin streams.length) : it.heads i = (streams.get i).head?.filter fun v =>
    !pastEnd v.key stop := by rw [← hit]; rfl
  have hstreams (i : Fin streams.length) : it.streams i = (streams.get i).tail := by rw [← hit]; rfl
  have hheapify := Heap.heapify_spec it.headLt_strictWeak
    ((List.finRange streams.length).filter fun i => (it.heads i).isSome).toArray
  have hheap : it.heap = Heap.heapify it.headLt ((List.finRange streams.length).filter fun i =>
      (it.heads i).isSome).toArray := by
    rw [← hit]
    rfl
  rw [← hheap] at hheapify
  obtain ⟨hordered, hperm⟩ := hheapify
  have hmem (i : Fin streams.length) : i ∈ it.heap.toList ↔ (it.heads i).isSome = true := by
    rw [hperm.mem_iff]
    simp
  -- a stream in the heap has all its entries left
  have hpending : ∀ i ∈ it.heap.toList, it.pending i = streams.get i := fun i hi => by
    obtain ⟨v, hv⟩ := Option.isSome_iff_exists.mp ((hmem i).mp hi)
    rw [pending_some hv, hstreams]
    have hfirst : (streams.get i).head? = some v := by
      rw [hheads] at hv
      exact (Option.filter_eq_some_iff.mp hv).1
    exact cons_head?_tail hfirst
  have hsub : it.content.Subperm streams.flatten := by
    have h : (it.heap.toList.flatMap it.pending).Perm
        (((List.finRange streams.length).filter fun i =>
          (it.heads i).isSome).flatMap streams.get) := by
      rw [flatMap_congr hpending]
      exact hperm.flatMap_right _
    have hall : (List.finRange streams.length).flatMap streams.get = streams.flatten := by
      rw [flatMap_def, map_get_finRange]
    rw [← hall]
    exact h.subperm.trans (filter_sublist.flatMap _).subperm
  refine ⟨⟨hordered, ?_, fun i hi => (hmem i).mp hi, fun i hi => ?_, hdistinct.subperm hsub⟩,
    fun v hsees => ⟨fun hv => hsub.subset hv, fun hv => ?_⟩⟩
  · exact hperm.nodup_iff.mpr ((nodup_finRange _).filter _)
  · rw [hpending i hi]
    exact hsorted _ (get_mem _ _)
  · obtain ⟨s, hs, hvs⟩ := mem_flatten.mp hv
    obtain ⟨i, rfl⟩ := mem_iff_get.mp hs
    have hrange : it.inRange v.key = true := (Bool.and_eq_true_iff.mp hsees).2
    have hstop : it.stop = stop := by rw [← hit]; rfl
    have hi : i ∈ it.heap.toList := by
      rw [hmem, hheads]
      cases hget : streams.get i with
      | nil =>
        rw [hget] at hvs
        cases hvs
      | cons h rest =>
        -- were the head past the end, all of the stream would be
        have hbefore := (pairwise_cons.mp (hget ▸ hsorted _ (get_mem streams i))).1
        have hend : pastEnd h.key stop = false := by
          rw [← Bool.not_eq_true]
          intro hpast
          have hbeyond : it.beyondEnd h.key = true := by rwa [beyondEnd, hstop]
          rw [hget] at hvs
          rcases mem_cons.mp hvs with rfl | hv
          · rw [not_inRange_of_beyondEnd hbeyond] at hrange
            cases hrange
          · rw [not_inRange_of_before hbeyond (hbefore v hv)] at hrange
            cases hrange
        simp [hend]
    refine mem_flatMap.mpr ⟨i, hi, ?_⟩
    rwa [hpending i hi]

end StreamingVisibleIter

open StreamingVisibleIter

/-- **Streamed as in one pass.** For streams in internal order in which no internal key comes
twice, the iterator gives the rows of the reference scan over all entries, for every
snapshot, range and limit. -/
theorem streamed_as_range (streams : List Table) (snapshot : Nat) (start stop : Bound)
    (limit : Option Nat)
    (hsorted : ∀ s ∈ streams, s.Pairwise InternalBefore)
    (hdistinct : InternallyDistinct streams.flatten) :
    (StreamingVisibleIter.new streams snapshot start stop limit).collect =
      visibleRangeLimited streams.flatten snapshot start stop limit := by
  have hpoints : (streams.map (pointsAt snapshot)).flatten = pointsAt snapshot streams.flatten := by
    rw [pointsAt, filter_flatten]
    rfl
  have hsub : (pointsAt snapshot streams.flatten).Sublist streams.flatten := filter_sublist
  have hsorted' : ∀ s ∈ streams.map (pointsAt snapshot), s.Pairwise InternalBefore := fun s hs => by
    obtain ⟨t, ht, rfl⟩ := mem_map.mp hs
    exact (hsorted t ht).sublist filter_sublist
  obtain ⟨hready, hcontent⟩ := fromPointStreams_ready (streams.map (pointsAt snapshot))
    (streams.flatMap (collectRangeTombstones snapshot))
    snapshot start stop limit hsorted' (hpoints ▸ hdistinct.sublist hsub)
  generalize hit : fromPointStreams (streams.map (pointsAt snapshot))
    (streams.flatMap (collectRangeTombstones snapshot))
    snapshot start stop limit = it at hready hcontent
  have hsees (v : WriteOp) : it.sees v =
    (decide (v.sequence ≤ snapshot) && userKeyInRange v.key start stop) := by rw [← hit]; rfl
  have hversions : sortInternal (it.content.filter it.sees) =
    sortInternal (streams.flatten.filter fun v =>
      v.kind != .rangeDeletion && decide (v.sequence ≤ snapshot) && userKeyInRange v.key start stop) := by
    refine eq_of_strict (sortInternal_strict (hready.distinct.sublist filter_sublist))
      (sortInternal_strict (hdistinct.sublist filter_sublist)) fun v => ?_
    rw [mem_sortInternal, mem_sortInternal, mem_filter, mem_filter,
      and_congr_left fun h => hcontent v h, hpoints,
      pointsAt, mem_filter, hsees]
    simp only [Bool.and_eq_true, and_assoc]
    tauto
  have hrows : it.rows.filterMap it.liveRow = visibleRange streams.flatten snapshot start stop := by
    have hskip : it.skipUser = none := by rw [← hit]; rfl
    have hdels : it.rangeDels = collectRangeTombstones snapshot streams.flatten := by
      rw [← hit, collectRangeTombstones, filter_flatten]
      rfl
    rw [rows, hskip, hversions, visibleRange, ← hdels]
    rfl
  have hlimit : it.limit = limit := by rw [← hit]; rfl
  have hemitted : it.emitted = 0 := by rw [← hit]; rfl
  rw [StreamingVisibleIter.new, hit, collect_rows hready, hrows, upTo, hlimit, hemitted]
  cases limit <;> rfl

/-- Three streams that share keys, with a range deletion in one of them. -/
def scanned : List Table :=
  [[.put 6 [5] [7], .put 2 [5] [6], .deleteRange 4 [6] [8]],
    [.delete 3 [5], .put 1 [7] [8], .put 5 [8] [5]], [.put 7 [9] [6]]]

theorem streamed_as_range_scanned :
    (StreamingVisibleIter.new scanned 6 (.included [5]) (.excluded [9]) (some 2)).collect =
        visibleRangeLimited scanned.flatten 6 (.included [5]) (.excluded [9]) (some 2) ∧
      visibleRangeLimited scanned.flatten 6 (.included [5]) (.excluded [9]) (some 2) =
      [([5], [7]), ([8], [5])] :=
  ⟨streamed_as_range scanned 6 (.included [5]) (.excluded [9]) (some 2) (by decide)
    (by unfold InternallyDistinct; decide),
    by decide +kernel⟩

end PedraDb
