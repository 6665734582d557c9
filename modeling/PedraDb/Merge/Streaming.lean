import PedraDb.Merge.Batch
import PedraDb.Library.Kway

/-! Compaction as a stream.

`KwayInternalMerge` holds the next entry of every input in a heap and gives the first of
them; `GcMergeSource` takes the merged entries up to the end of a user key, decides that
run with the range deletions met so far and hands out what is kept. Nothing else is in
memory.

Drained, the merge gives its inputs in internal order and the whole stream gives what the
batch gives (`streamed_as_batch`): a range deletion that covers a key starts no later than
at the key, so it has been met when the key's run is decided. -/
namespace PedraDb
open List
variable {v : WriteOp} {run entries : Table}

/-- A source of entries. `remaining` bounds how many it still has. -/
class CompactSource (S : Type) where
  nextEntry : S → Option (WriteOp × S)
  remaining : S → Nat
  remaining_lt : ∀ s v s', nextEntry s = some (v, s') → remaining s' < remaining s

open CompactSource (nextEntry remaining remaining_lt)

/-- All a source has, one entry after the other. -/
def drain {S : Type} [CompactSource S] (s : S) : Table :=
  match _h : nextEntry s with
  | none => []
  | some (v, s') => v :: drain s'
termination_by remaining s
decreasing_by exact remaining_lt s v s' _h

section Drain
variable {S : Type} [CompactSource S] {s s' : S}

theorem drain_none (h : nextEntry s = none) : drain s = [] := by
  rw [drain]
  split
  · rfl
  · rename_i h'
    rw [h] at h'
    cases h'

theorem drain_some (h : nextEntry s = some (v, s')) : drain s = v :: drain s' := by
  rw [drain]
  split
  · rename_i h'
    rw [h] at h'
    cases h'
  · rename_i h'
    rw [h] at h'
    cases h'
    rfl

end Drain

/-- The entries of a vector in turn. -/
instance : CompactSource Table where
  nextEntry
    | [] => none
    | v :: rest => some (v, rest)
  remaining := List.length
  remaining_lt := by
    intro s v s' h
    cases s with
    | nil => cases h
    | cons =>
      cases h
      exact Nat.lt_succ_self _

theorem drain_table (t : Table) : drain t = t := by
  induction t with
  | nil => exact drain_none rfl
  | cons v t ih => rw [drain_some (show nextEntry (v :: t) = some (v, t) from rfl), ih]

/-! ### The merge -/

/-- The next entry of a source. -/
structure MergeHead (n : Nat) where
  entry : WriteOp
  src : Fin n

open MergeHead

/-- Before another head: by internal key, then by source. -/
def MergeHead.before {n : Nat} (a b : MergeHead n) : Bool :=
  decide (InternalBefore a.entry b.entry) || (sameInternalKey a.entry b.entry && decide (a.src < b.src))

section Heads
variable {n : Nat} {a b : MergeHead n}

theorem MergeHead.before_iff :
    a.before b = true ↔ InternalBefore a.entry b.entry ∨ sameInternalKey a.entry b.entry = true ∧
    a.src < b.src := by
  simp [before]

theorem MergeHead.before_asymm (h : a.before b = true) : b.before a = false := by
  rw [← Bool.not_eq_true]
  rw [before_iff] at *
  rintro (hba | ⟨hsame, hlt⟩)
  · rcases h with hab | ⟨hsame, -⟩
    · exact hab.asymm hba
    · exact InternalBefore.irrefl _ ((InternalBefore.congr_left hsame).mpr hba)
  · rcases h with hab | ⟨-, hlt'⟩
    · exact InternalBefore.irrefl _ ((InternalBefore.congr_right hsame).mp hab)
    · omega

theorem MergeHead.before_split (h : a.before b = true) (c : MergeHead n) :
    a.before c = true ∨ c.before b = true := by
  rw [before_iff] at *
  rw [before_iff]
  rcases h with hab | ⟨hsame, hlt⟩
  · exact (hab.split c.entry).imp .inl .inl
  cases hca : sameInternalKey c.entry a.entry with
  | true =>
    by_cases hac : a.src < c.src
    · exact .inl (.inr ⟨by rwa [sameInternalKey_comm], hac⟩)
    · refine .inr (.inr ⟨?_, by omega⟩)
      obtain ⟨hk, hs, hkind⟩ := sameInternalKey_iff.mp hca
      obtain ⟨hk', hs', hkind'⟩ := sameInternalKey_iff.mp hsame
      exact sameInternalKey_iff.mpr ⟨hk.trans hk', hs.trans hs', hkind.trans hkind'⟩
  | false =>
    rcases InternalBefore.total hca with hlt' | hlt'
    · exact .inr (.inl ((InternalBefore.congr_right hsame).mp hlt'))
    · exact .inl (.inl hlt')

end Heads

def popHead {n : Nat} : List (MergeHead n) → Option (MergeHead n × List (MergeHead n))
  | [] => none
  | h :: rest =>
    match popHead rest with
    | none => some (h, [])
    | some (least, others) =>
      if least.before h then some (least, h :: others) else some (h, least :: others)

structure KwayInternalMerge (S : Type) (n : Nat) where
  streams : Fin n → S
  heap : List (MergeHead n)
  last : Option WriteOp

open KwayInternalMerge

namespace KwayInternalMerge
variable {S : Type} [CompactSource S] {n : Nat}

/-- Put the next entry of a source on the heap. -/
def refill (m : KwayInternalMerge S n) (src : Fin n) : KwayInternalMerge S n :=
  match nextEntry (m.streams src) with
  | some (v, s') => { m with streams := Function.update m.streams src s', heap := ⟨v, src⟩ :: m.heap }
  | none => m

/-- The heap starts with the first entry of each stream. -/
def fromStreams (streams : List S) : KwayInternalMerge S streams.length :=
  (List.finRange streams.length).foldl refill ⟨streams.get, [], none⟩

/-- The first head leaves the heap and its source is asked again. -/
def pop (m : KwayInternalMerge S n) : Option (WriteOp × KwayInternalMerge S n) :=
  (popHead m.heap).map fun (head, others) => (head.entry, refill { m with heap := others } head.src)

def left (m : KwayInternalMerge S n) : Nat := m.heap.length + ∑ i, remaining (m.streams i)

variable (m : KwayInternalMerge S n)

theorem refill_left_le (src : Fin n) : (m.refill src).left ≤ m.left := by
  rw [refill]
  split
  · rename_i v s' h
    have hlt := remaining_lt _ _ _ h
    have hothers := Kway.sum_update remaining m.streams src s'
    simp only [left, length_cons]
    omega
  · exact le_rfl

theorem popHead_spec {heap others : List (MergeHead n)} {head : MergeHead n}
    (h : popHead heap = some (head, others)) :
    heap.Perm (head :: others) ∧ ∀ o ∈ others, o.before head = false := by
  induction heap generalizing head others with
  | nil => cases h
  | cons a heap ih =>
    rw [popHead] at h
    split at h
    · rename_i hnone
      cases h
      cases heap with
      | nil => exact ⟨.refl _, by simp⟩
      | cons b heap =>
        rw [popHead] at hnone
        split at hnone
        · cases hnone
        · split at hnone <;> cases hnone
    · rename_i least others' hrest
      obtain ⟨hperm, hleast⟩ := ih hrest
      split at h
      · rename_i hbefore
        cases h
        exact ⟨(hperm.cons a).trans (.swap _ _ _), forall_mem_cons.mpr ⟨before_asymm hbefore, hleast⟩⟩
      · rename_i hbefore
        cases h
        refine ⟨hperm.cons a, fun o ho => ?_⟩
        rcases mem_cons.mp ho with rfl | ho
        · simpa using hbefore
        rw [← Bool.not_eq_true]
        intro hoa
        rcases before_split hoa least with h | h
        · rw [hleast o ho] at h
          cases h
        · exact hbefore h

theorem pop_left_lt {m m' : KwayInternalMerge S n} (h : m.pop = some (v, m')) : m'.left < m.left := by
  simp only [pop, Option.map_eq_some_iff] at h
  obtain ⟨⟨head, others⟩, hpop, heq⟩ := h
  cases heq
  have hlength := (popHead_spec hpop).1.length_eq
  have hle := refill_left_le { m with heap := others } head.src
  simp only [left, length_cons] at *
  omega

/-- The next merged entry; one with the internal key of the last is skipped. -/
def next (m : KwayInternalMerge S n) : Option (WriteOp × KwayInternalMerge S n) :=
  match _h : m.pop with
  | none => none
  | some (v, m') =>
    if m.last.any (sameInternalKey v) then next m' else some (v, { m' with last := some v })
termination_by m.left
decreasing_by exact pop_left_lt _h

theorem refill_last (src : Fin n) : (m.refill src).last = m.last := by
  rw [refill]
  split <;> rfl

theorem next_left_lt {m m' : KwayInternalMerge S n} (h : m.next = some (v, m')) : m'.left < m.left := by
  fun_induction next m with
  | case1 => cases h
  | case2 m u m₁ hpop _ ih => exact lt_trans (ih h) (pop_left_lt hpop)
  | case3 m u m₁ hpop _ =>
    cases h
    have hlt := pop_left_lt hpop
    exact hlt

instance : CompactSource (KwayInternalMerge S n) where
  nextEntry := next
  remaining := left
  remaining_lt _ _ _ h := next_left_lt h

/-! ### What the merge gives -/

/-- What the sources on the heap have left. -/
def sources (m : KwayInternalMerge S n) : List Table :=
  m.heap.map fun h => h.entry :: drain (m.streams h.src)

/-- A heap with one head of each source, none of it before the last entry that was given. -/
structure Ordered (m : KwayInternalMerge S n) : Prop where
  single : (m.heap.map src).Nodup
  sorted : ∀ s ∈ m.sources, s.Pairwise InternalBefore
  distinct : InternallyDistinct m.sources.flatten
  fresh : ∀ v, m.last = some v → ∀ w ∈ m.sources.flatten, InternalBefore v w

/-- A source that is asked for its next entry comes back to the heap with all it had, unless that
is nothing; the other sources stay as they are. -/
theorem refill_spec {m : KwayInternalMerge S n} {src : Fin n} (hsrc : src ∉ m.heap.map MergeHead.src) :
    (∀ i, i ≠ src → (m.refill src).streams i = m.streams i) ∧
    (((m.refill src).sources = drain (m.streams src) :: m.sources ∧
          (m.refill src).heap.map MergeHead.src = src :: m.heap.map MergeHead.src) ∨
        drain (m.streams src) = [] ∧ m.refill src = m) := by
  rw [refill]
  split
  · rename_i v s' h
    refine ⟨fun i hi => Function.update_of_ne hi _ _, .inl ⟨?_, rfl⟩⟩
    simp only [sources, map_cons, Function.update_self, drain_some h, List.cons.injEq, true_and]
    refine map_congr_left fun o ho => ?_
    rw [Function.update_of_ne]
    rintro rfl
    exact hsrc (mem_map_of_mem ho)
  · rename_i h
    exact ⟨fun _ _ => rfl, .inr ⟨drain_none h, rfl⟩⟩

theorem pop_none {m : KwayInternalMerge S n} (h : m.pop = none) : m.sources = [] := by
  simp only [pop, Option.map_eq_none_iff] at h
  rw [sources]
  cases hheap : m.heap with
  | nil => rfl
  | cons a heap =>
    rw [hheap, popHead] at h
    split at h
    · cases h
    · split at h <;> cases h

theorem pop_spec {m m' : KwayInternalMerge S n} (hm : m.Ordered) (h : m.pop = some (v, m')) :
    ∃ rest others, m.sources.Perm ((v :: rest) :: others) ∧
    (∀ s ∈ others, ∀ w ∈ s.head?, InternalBefore v w) ∧
      (m'.sources = rest :: others ∨ rest = [] ∧ m'.sources = others) ∧
      (m'.heap.map MergeHead.src).Nodup ∧ m'.last = m.last := by
  simp only [pop, Option.map_eq_some_iff] at h
  obtain ⟨⟨head, others⟩, hpop, heq⟩ := h
  cases heq
  obtain ⟨hperm, hleast⟩ := popHead_spec hpop
  have hsingle := (hperm.map MergeHead.src).nodup_iff.mp hm.single
  obtain ⟨hsrc, hsingle⟩ := nodup_cons.mp hsingle
  have hsources : m.sources.Perm ((head.entry :: drain (m.streams head.src)) ::
      others.map fun h => h.entry :: drain (m.streams h.src)) := hperm.map _
  refine ⟨_, _, hsources, ?_, ?_, ?_, refill_last _ _⟩
  · rintro s hs w hw
    obtain ⟨o, ho, rfl⟩ := mem_map.mp hs
    cases hw
    have hdistinct := hm.distinct.perm hsources.flatten
    have hother : o.entry ∈ (others.map fun h => h.entry :: drain (m.streams h.src)).flatten :=
      mem_flatten.mpr ⟨_, mem_map_of_mem ho, mem_cons_self⟩
    have hne := (pairwise_cons.mp hdistinct).1 o.entry (mem_append_right _ hother)
    refine (InternalBefore.total hne).resolve_right fun hbefore => ?_
    have := hleast o ho
    rw [← Bool.not_eq_true, MergeHead.before_iff] at this
    exact this (.inl hbefore)
  · rcases (refill_spec (m := { m with heap := others }) hsrc).2 with ⟨h, -⟩ | ⟨hnil, h⟩
    · exact .inl h
    · rw [h]
      exact .inr ⟨hnil, rfl⟩
  · rcases (refill_spec (m := { m with heap := others }) hsrc).2 with ⟨-, h⟩ | ⟨-, h⟩
    · rw [h]
      exact nodup_cons.mpr ⟨hsrc, hsingle⟩
    · rw [h]
      exact hsingle

/-- A merge in order gives what its sources have, in order. -/
theorem drain_drains {m : KwayInternalMerge S n} (hm : m.Ordered) :
    Kway.Drains InternalBefore m.sources (drain m) := by
  cases hpop : m.pop with
  | none =>
    have hnext : nextEntry m = none := by
      show next m = none
      rw [next]
      split
      · rfl
      · rename_i h
        rw [hpop] at h
        cases h
    rw [drain_none hnext, pop_none hpop]
    exact .done
  | some p =>
    obtain ⟨v, m'⟩ := p
    obtain ⟨rest, others, hperm, hleast, hsources, hsingle, hlast⟩ := pop_spec hm hpop
    obtain ⟨hsorted, hothers⟩ := forall_mem_cons.mp fun s hs => hm.sorted s (hperm.mem_iff.mpr hs)
    obtain ⟨hv, hsorted⟩ := pairwise_cons.mp hsorted
    have hflat : m'.sources.flatten = rest ++ others.flatten := by
      rcases hsources with h | ⟨hnil, h⟩
      · rw [h, flatten_cons]
      · rw [h, hnil, nil_append]
    have hall : m.sources.flatten.Perm (v :: m'.sources.flatten) := by
      rw [hflat]
      exact hperm.flatten
    have hvall : ∀ w ∈ m'.sources.flatten, InternalBefore v w := by
      rw [hflat]
      exact forall_mem_append.mpr ⟨hv, fun w => Kway.before_all hothers hleast fun _ _ _ =>
        InternalBefore.trans⟩
    -- no internal key comes twice, so nothing is skipped
    have hnext : nextEntry m = some (v, { m' with last := some v }) := by
      show next m = _
      rw [next]
      split
      · rename_i h
        rw [hpop] at h
        cases h
      rename_i h
      rw [hpop] at h
      cases h
      refine if_neg fun hsame => ?_
      obtain ⟨u, hu, hsame⟩ : ∃ u, m.last = some u ∧ sameInternalKey v u = true := by
        simpa [Option.any_eq_true] using hsame
      have hbefore := hm.fresh u hu v (hall.mem_iff.mpr mem_cons_self)
      rw [sameInternalKey_comm, hbefore.not_same] at hsame
      cases hsame
    have hlt := next_left_lt hnext
    have hm' : Ordered { m' with last := some v } := by
      refine ⟨hsingle, ?_, (hm.distinct.perm hall).sublist (sublist_cons_self _ _), fun u hu w hw => ?_⟩
      · show ∀ s ∈ m'.sources, _
        rcases hsources with h | ⟨-, h⟩
        · rw [h]
          exact forall_mem_cons.mpr ⟨hsorted, hothers⟩
        · rw [h]
          exact hothers
      · cases hu
        exact hvall w hw
    rw [drain_some hnext]
    have ih : Kway.Drains InternalBefore m'.sources (drain { m' with last := some v }) := drain_drains hm'
    refine .next hperm hleast ?_
    rcases hsources with h | ⟨hnil, h⟩
    · rwa [← h]
    · rw [hnil]
      exact .drop (h ▸ ih)
termination_by m.left

theorem foldl_refill {srcs : List (Fin n)} {m : KwayInternalMerge S n} (hnodup : srcs.Nodup)
    (hsrcs : ∀ i ∈ srcs, i ∉ m.heap.map MergeHead.src) (hsingle : (m.heap.map MergeHead.src).Nodup) :
    ((srcs.foldl refill m).heap.map MergeHead.src).Nodup ∧ (srcs.foldl refill m).last = m.last ∧
      (∀ s ∈ (srcs.foldl refill m).sources, s ∈ m.sources ∨ ∃ i ∈ srcs, s = drain (m.streams i)) ∧
      (srcs.foldl refill m).sources.flatten.Perm
      (srcs.flatMap (fun i => drain (m.streams i)) ++ m.sources.flatten) := by
  induction srcs generalizing m with
  | nil => exact ⟨hsingle, rfl, fun s hs => .inl hs, .refl _⟩
  | cons src srcs ih =>
    obtain ⟨hsrc, hnodup⟩ := nodup_cons.mp hnodup
    obtain ⟨hsrc', hsrcs⟩ := forall_mem_cons.mp hsrcs
    obtain ⟨hothers, hspec⟩ := refill_spec hsrc'
    have hdrain {i : Fin n} (hi : i ∈ srcs) : drain ((m.refill src).streams i) = drain (m.streams i) := by
      rw [hothers i]
      rintro rfl
      exact hsrc hi
    have hflatMap : srcs.flatMap (fun i => drain ((m.refill src).streams i)) = srcs.flatMap fun i =>
      drain (m.streams i) :=
      flatMap_congr fun i hi => hdrain hi
    have hheap : (∀ i ∈ srcs, i ∉ (m.refill src).heap.map MergeHead.src) ∧
        ((m.refill src).heap.map MergeHead.src).Nodup := by
      rcases hspec with ⟨-, h⟩ | ⟨-, h⟩
      · rw [h]
        refine ⟨fun i hi hmem => ?_, nodup_cons.mpr ⟨hsrc', hsingle⟩⟩
        rcases mem_cons.mp hmem with rfl | hmem
        · exact hsrc hi
        · exact hsrcs i hi hmem
      · rw [h]
        exact ⟨hsrcs, hsingle⟩
    obtain ⟨h₁, h₂, h₃, h₄⟩ := ih hnodup hheap.1 hheap.2
    refine ⟨h₁, h₂.trans (refill_last m src), fun s hs => ?_, h₄.trans ?_⟩
    · rcases h₃ s hs with h | ⟨i, hi, h⟩
      · rcases hspec with ⟨hsources, -⟩ | ⟨-, hsame⟩
        · rw [hsources] at h
          exact (mem_cons.mp h).elim (fun h => .inr ⟨src, mem_cons_self, h⟩) .inl
        · rw [hsame] at h
          exact .inl h
      · exact .inr ⟨i, mem_cons_of_mem _ hi, h.trans (hdrain hi)⟩
    · rw [hflatMap, flatMap_cons]
      rcases hspec with ⟨hsources, -⟩ | ⟨hnil, hsame⟩
      · rw [hsources, flatten_cons, ← append_assoc]
        exact perm_append_comm.append_right _
      · rw [hsame, hnil, nil_append]

/-- **The merge.** Drained, it gives the entries of its streams in internal order. -/
theorem drain_fromStreams {streams : List S} (hsorted : ∀ s ∈ streams, (drain s).Pairwise InternalBefore)
    (hdistinct : InternallyDistinct (streams.flatMap drain)) :
    drain (fromStreams streams) = sortInternal (streams.flatMap drain) := by
  obtain ⟨hsingle, hlast, hsources, hperm⟩ :=
    foldl_refill (m := ⟨streams.get, [], none⟩) (nodup_finRange streams.length)
    (fun _ _ => not_mem_nil) .nil
  have hall : (List.finRange streams.length).flatMap (fun i => drain (streams.get i)) =
      streams.flatMap drain := by
    conv => rhs; rw [← map_get_finRange streams, flatMap_map]
  have hperm : (fromStreams streams).sources.flatten.Perm (streams.flatMap drain) := by
    rw [← hall, ← append_nil (List.flatMap _ _)]
    exact hperm
  have hm : (fromStreams streams).Ordered := by
    refine ⟨hsingle, fun s hs => ?_, hdistinct.perm hperm.symm, fun v hv => ?_⟩
    · rcases hsources s hs with h | ⟨i, -, rfl⟩
      · cases h
      · exact hsorted _ (get_mem streams i)
    · exact nomatch hlast.symm.trans hv
  have hdrains := drain_drains hm
  exact eq_of_strict (hdrains.pairwise hm.sorted fun _ _ _ => InternalBefore.trans)
    (sortInternal_strict hdistinct) fun v =>
    (hdrains.perm.trans hperm).mem_iff.trans mem_sortInternal.symm

end KwayInternalMerge

/-! ### Runs decided as they end -/

structure GcMergeSource (M : Type) where
  merge : M
  gc : CompactGcOptions
  tombs : Table
  run : Table
  out : Table

namespace GcMergeSource
variable {M : Type} [CompactSource M]

def new (merge : M) (gc : CompactGcOptions) : GcMergeSource M := ⟨merge, gc, [], [], []⟩

/-- Decide the run that has ended and queue what is kept of it. -/
def closeRun (g : GcMergeSource M) : GcMergeSource M :=
  let tombs := g.tombs ++ g.run.filter fun v => v.kind == .rangeDeletion
  { g with tombs := tombs, run := [], out := g.out ++ PedraDb.closeRun g.gc tombs g.run }

def next (g : GcMergeSource M) : Option (WriteOp × GcMergeSource M) :=
  match g.out with
  | v :: out => some (v, { g with out := out })
  | [] =>
    match _h : nextEntry g.merge with
    | some (v, merge) =>
      if v.sequence < g.gc.minSequence then next { g with merge := merge }
      else if g.run.getLast?.any fun w => w.key != v.key
        then next { g.closeRun with merge := merge, run := [v] }
      else next { g with merge := merge, run := g.run ++ [v] }
    | none => if _hrun : g.run = [] then none else next g.closeRun
termination_by 2 * remaining g.merge + if g.run = [] then 0 else 1
decreasing_by
  · have := remaining_lt _ _ _ _h
    omega
  · have := remaining_lt _ _ _ _h
    split <;> split <;> omega
  · have := remaining_lt _ _ _ _h
    split <;> split <;> omega
  · simp [closeRun, _hrun]

def left (g : GcMergeSource M) : Nat := remaining g.merge + g.run.length + g.out.length

theorem closeRun_left_le (g : GcMergeSource M) : g.closeRun.left ≤ g.left := by
  have : (PedraDb.closeRun g.gc (g.tombs ++ g.run.filter fun v =>
    v.kind == .rangeDeletion) g.run).length ≤ g.run.length :=
    length_filter_le _ _
  simp only [left, closeRun, length_append, length_nil]
  omega

theorem next_left_lt {g g' : GcMergeSource M} (h : g.next = some (v, g')) : g'.left < g.left := by
  fun_induction next g with
  | case1 g u out hout =>
    cases h
    simp [left, hout]
  | case2 g hout u merge hnext _ ih =>
    have := remaining_lt _ _ _ hnext
    have := ih h
    simp only [left] at *
    omega
  | case3 g hout u merge hnext _ _ ih =>
    have := remaining_lt _ _ _ hnext
    have := ih h
    have := closeRun_left_le g
    simp only [left, closeRun, length_nil, length_singleton] at *
    omega
  | case4 g hout u merge hnext _ _ ih =>
    have := remaining_lt _ _ _ hnext
    have := ih h
    simp only [left, length_append, length_singleton] at *
    omega
  | case5 => cases h
  | case6 g hout hnext _ ih => exact lt_of_lt_of_le (ih h) (closeRun_left_le g)

instance : CompactSource (GcMergeSource M) where
  nextEntry := next
  remaining := left
  remaining_lt _ _ _ h := next_left_lt h

/-- What is queued, and what the entries to come will give. -/
def whole (g : GcMergeSource M) : Table :=
  g.out ++ closeRuns g.gc g.tombs
    (userKeyRuns (g.run ++ (drain g.merge).filter fun v => decide (g.gc.minSequence ≤ v.sequence)))

/-- The run that is buffered is of one user key. -/
def OneKey (g : GcMergeSource M) : Prop := ∀ v ∈ g.run, ∀ w ∈ g.run, v.key = w.key

theorem userKeyRuns_nil : userKeyRuns [] = [] := splitBy_nil _

theorem userKeyRuns_oneKey (hne : run ≠ []) (hkey : ∀ v ∈ run, ∀ w ∈ run, v.key = w.key) :
    userKeyRuns run = [run] :=
  splitBy_of_isChain hne
    (List.Pairwise.isChain (pairwise_of_forall_mem_list fun v hv w hw => by simp [hkey v hv w hw]))

theorem userKeyRuns_next {rest : Table} (hkey : ∀ v ∈ run, ∀ w ∈ run, v.key = w.key)
    (hother : (run.getLast?.any fun w => w.key != v.key) = true) :
    userKeyRuns (run ++ v :: rest) = run :: userKeyRuns (v :: rest) := by
  obtain ⟨w, hw, hne⟩ : ∃ w, run.getLast? = some w ∧ w.key ≠ v.key := by
    simpa [Option.any_eq_true] using hother
  have hrun : run ≠ [] := by
    rintro rfl
    cases hw
  have hcut : ∀ x ∈ run.getLast?, (x.key == v.key) = false := fun x hx => by
    rw [hw] at hx
    cases hx
    simpa using hne
  calc userKeyRuns (run ++ v :: rest) = userKeyRuns run ++ userKeyRuns (v :: rest) :=
    splitBy_append_cons rest hcut
    _ = run :: userKeyRuns (v :: rest) := by rw [userKeyRuns_oneKey hrun hkey, singleton_append]

theorem next_spec (g : GcMergeSource M) (hkey : g.OneKey) :
    match g.next with
    | none => g.whole = []
    | some (v, g') => g.whole = v :: g'.whole ∧ g'.OneKey := by
  fun_induction next g with
  | case1 g u out hout => exact ⟨by simp [whole, hout], hkey⟩
  | case2 g hout u merge hnext hfloor ih =>
    have hwhole : g.whole = whole { g with merge := merge } := by
      simp [whole, drain_some hnext, not_le.mpr hfloor]
    rw [hwhole]
    exact ih hkey
  | case3 g hout u merge hnext hfloor hother ih =>
    have hwhole : g.whole = whole { g.closeRun with merge := merge, run := [u] } := by
      simp [whole, closeRun, hout, drain_some hnext, not_lt.mp hfloor, userKeyRuns_next hkey hother,
        closeRuns]
    rw [hwhole]
    exact ih (by simp [OneKey])
  | case4 g hout u merge hnext hfloor hsame ih =>
    have hwhole : g.whole = whole { g with merge := merge, run := g.run ++ [u] } := by
      simp [whole, drain_some hnext, not_lt.mp hfloor]
    rw [hwhole]
    refine ih ?_
    have hlast : ∀ x ∈ g.run, x.key = u.key := fun x hx => by
      obtain ⟨w, hw⟩ : ∃ w, g.run.getLast? = some w := ⟨_, getLast?_eq_some_getLast (ne_nil_of_mem hx)⟩
      have hwu : w.key = u.key := by simpa [hw] using hsame
      exact (hkey x hx w (mem_of_getLast? hw)).trans hwu
    intro x hx y hy
    have hall : ∀ x ∈ g.run ++ [u], x.key = u.key := by
      simpa [or_imp, forall_and] using hlast
    exact (hall x hx).trans (hall y hy).symm
  | case5 g hout hnext hrun => simp [whole, hout, hrun, drain_none hnext, userKeyRuns_nil, closeRuns]
  | case6 g hout hnext hrun ih =>
    have hwhole : g.whole = g.closeRun.whole := by
      simp [whole, closeRun, hout, drain_none hnext, userKeyRuns_oneKey hrun hkey, closeRuns,
        userKeyRuns_nil]
    rw [hwhole]
    exact ih (by simp [OneKey, closeRun])

theorem drain_whole (g : GcMergeSource M) (hkey : g.OneKey) : drain g = g.whole := by
  have hspec := next_spec g hkey
  cases hnext : nextEntry g with
  | none =>
    rw [show g.next = none from hnext] at hspec
    rw [drain_none hnext, hspec]
  | some p =>
    obtain ⟨v, g'⟩ := p
    rw [show g.next = some (v, g') from hnext] at hspec
    have hlt := next_left_lt hnext
    rw [drain_some hnext, hspec.1, drain_whole g' hspec.2]
termination_by g.left

/-- Drained, the source gives the runs of what the merge gives, each decided in turn. -/
theorem drain_new (merge : M) (gc : CompactGcOptions) : drain (new merge gc) =
      closeRuns gc [] (userKeyRuns ((drain merge).filter fun v =>
        decide (gc.minSequence ≤ v.sequence))) :=
  drain_whole _ (by simp [OneKey, new])

end GcMergeSource

/-! ### As the batch -/

section Batch
open Layers
variable {gc : CompactGcOptions} {l : Table}

theorem keptPoints_congr {tombs tombs' points : Table}
    (h : ∀ v ∈ points, rangeDeleted v.key v.sequence tombs = rangeDeleted v.key v.sequence tombs') :
    keptPoints gc tombs points = keptPoints gc tombs' points := by
  simp only [keptPoints]
  split
  · rfl
  · split
    · refine filter_congr fun v hv => ?_
      rw [h v (mem_of_mem_head? (by simpa using hv))]
    · rfl

/-- What is kept of a run depends on the range deletions over its key alone, and these start no
later than at the key. -/
theorem mem_closeRuns_strict (hl : l.Pairwise InternalBefore) : v ∈ closeRuns gc [] (userKeyRuns l) ↔
      v ∈ closeRun gc (deletionsOf l) (l.filter fun w => w.key == v.key) := by
  have hsame {before after : List Table} {run : Table} (hruns : userKeyRuns l = before ++ run :: after) :
      closeRun gc ([] ++ deletionsOf (before ++ [run]).flatten) run =
        closeRun gc (deletionsOf l) run := by
    have hflat : l = (before ++ [run]).flatten ++ after.flatten := by
      rw [← flatten_userKeyRuns l, hruns]
      simp
    have hafter : ∀ w ∈ run, ∀ t ∈ after.flatten, w.key < t.key := by
      have hsep := userKeyRuns_separate (hl.imp InternalBefore.le)
      rw [hruns] at hsep
      intro w hw t ht
      obtain ⟨b, hb, ht⟩ := mem_flatten.mp ht
      exact (pairwise_cons.mp (pairwise_append.mp hsep).2.1).1 b hb w hw t ht
    have hkept : keptPoints gc ([] ++ deletionsOf (before ++ [run]).flatten) (pointsOf run) =
        keptPoints gc (deletionsOf l) (pointsOf run) := by
      refine keptPoints_congr fun w hw => ?_
      rw [Bool.eq_iff_iff, rangeDeleted_iff, rangeDeleted_iff, nil_append]
      have hw := (mem_filter.mp hw).1
      conv => rhs; rw [hflat]
      constructor
      · rintro ⟨t, ht, h⟩
        exact ⟨t, by rw [deletionsOf, filter_append]; exact mem_append_left _ ht, h⟩
      · rintro ⟨t, ht, hcovers, hlt⟩
        rw [deletionsOf, filter_append] at ht
        refine ⟨t, (mem_append.mp ht).resolve_right fun ht => ?_, hcovers, hlt⟩
        rw [rangeTombstoneCovers, Bool.and_eq_true, decide_eq_true_eq] at hcovers
        exact List.not_lt.mpr hcovers.1 (hafter w hw t (mem_filter.mp ht).1)
    simp only [closeRun, hkept]
  rw [mem_closeRuns_iff]
  constructor
  · rintro ⟨before, run, after, hruns, hv⟩
    have hrun : run ∈ userKeyRuns l := by
      rw [hruns]
      simp
    rw [hsame hruns] at hv
    rwa [← userKeyRuns_filter hl hrun (mem_filter.mp hv).1]
  · intro hv
    obtain ⟨run, hrun, hvrun⟩ := exists_userKeyRuns (mem_filter.mp (mem_filter.mp hv).1).1
    obtain ⟨before, after, hruns⟩ := append_of_mem hrun
    refine ⟨before, run, after, hruns, ?_⟩
    rwa [hsame hruns, userKeyRuns_filter hl hrun hvrun]

theorem head?_strict {p : Table} (hp : p.Pairwise InternalBefore) :
    p.head? = some v ↔ v ∈ p ∧ ∀ u ∈ p, u = v ∨ InternalBefore v u := by
  cases p with
  | nil => simp
  | cons w p =>
    obtain ⟨hw, -⟩ := pairwise_cons.mp hp
    rw [head?_cons, Option.some.injEq]
    constructor
    · rintro rfl
      exact ⟨mem_cons_self, fun u hu => (mem_cons.mp hu).imp_right (hw u)⟩
    · rintro ⟨hv, hfirst⟩
      rcases mem_cons.mp hv with rfl | hv
      · rfl
      · rcases hfirst w mem_cons_self with rfl | h
        · rfl
        · exact absurd h (hw v hv).asymm

theorem keptPoints_snapshot {oldest : Nat} (h : gc.oldestSnapshot = some oldest) (tombs points : Table) :
    keptPoints gc tombs points = keptVersions oldest gc.bottommost points := by
  rw [keptPoints, h]
  rfl

theorem mem_keptPoints_latest {tombs points : Table} (hnone : gc.oldestSnapshot = none)
    (hlatest : gc.keepOnlyLatest = true)
    (hp : points.Pairwise InternalBefore) (hkind : v.kind ≠ .rangeDeletion) :
    v ∈ keptPoints gc tombs points ↔
      (v ∈ points ∧ ∀ u ∈ points, u = v ∨ InternalBefore v u) ∧ latestStays gc tombs v = true := by
  simp only [keptPoints, hnone, hlatest, if_true, mem_filter, Option.mem_toList, head?_strict hp]
  refine and_congr_right fun _ => ?_
  rw [latestStays]
  cases hv : v.kind with
  | value => simp
  | deletion => simp
  | rangeDeletion => exact absurd hv hkind

theorem latestStays_congr {tombs tombs' : Table} (h : ∀ t, t ∈ tombs ↔ t ∈ tombs') :
    latestStays gc tombs v = latestStays gc tombs' v := by
  have hdeleted : rangeDeleted v.key v.sequence tombs = rangeDeleted v.key v.sequence tombs' := by
    rw [Bool.eq_iff_iff, rangeDeleted_iff, rangeDeleted_iff]
    simp [h]
  rw [latestStays, latestStays, hdeleted]

theorem mem_closeRun {tombs : Table} :
    v ∈ closeRun gc tombs run ↔ v ∈ run ∧
      if v.kind = .rangeDeletion then (gc.oldestSnapshot.isNone && gc.keepOnlyLatest &&
        gc.bottommost) = false
      else v ∈ keptPoints gc tombs (pointsOf run) := by
  rw [closeRun, mem_filter]
  refine and_congr_right fun _ => ?_
  split
  · rw [Bool.not_eq_true']
  · rw [contains_iff_mem]

theorem mem_gcCompactEntries (hdistinct : InternallyDistinct entries)
    (hl : l = sortInternal (entries.filter fun v => decide (gc.minSequence ≤ v.sequence))) :
    v ∈ gcCompactEntries entries gc ↔ v ∈ l ∧
      if v.kind = .rangeDeletion then (gc.oldestSnapshot.isNone && gc.keepOnlyLatest &&
        gc.bottommost) = false
      else v ∈ keptPoints gc (deletionsOf l) (pointsOf (l.filter fun w => w.key == v.key)) := by
  have hlive : InternallyDistinct (entries.filter fun v => decide (gc.minSequence ≤ v.sequence)) :=
    hdistinct.sublist filter_sublist
  simp only [gcCompactEntries]
  generalize (entries.filter fun v => decide (gc.minSequence ≤ v.sequence)) = live at hlive hl
  have hstrict := sortInternal_strict hlive
  have hmem : ∀ v, v ∈ live ↔ v ∈ l := fun v => by rw [hl, mem_sortInternal]
  rw [← hl] at hstrict
  have hmap : mapOf (pointsOf live) = pointsOf l := by
    rw [mapOf_eq (hlive.sublist filter_sublist)]
    refine eq_of_strict (sortInternal_strict (hlive.sublist filter_sublist))
      (hstrict.sublist filter_sublist) fun v => ?_
    rw [mem_filter, mem_sortInternal, mem_filter, hmem]
  have hpoints := hstrict.sublist (filter_sublist (p := fun w => w.kind != .rangeDeletion))
  have hkey : pointsOf (l.filter fun w => w.key == v.key) = (pointsOf l).filter fun w =>
      w.key == v.key := by
    rw [pointsOf, pointsOf, filter_filter, filter_filter]
    exact filter_congr fun w _ => Bool.and_comm _ _
  rw [hmap, hkey]
  have hvs := hpoints.sublist (filter_sublist (p := fun w => w.key == v.key))
  have hmemvs : v ∈ (pointsOf l).filter (fun w => w.key == v.key) ↔ v ∈ l ∧ v.kind ≠ .rangeDeletion := by
    simp
  have hrange : v ∈ deletionsOf live ↔ v ∈ l ∧ v.kind = .rangeDeletion := by
    simp [hmem]
  by_cases hkind : v.kind = .rangeDeletion
  · -- range deletions go only with a latest-only rewrite at the bottom
    rw [if_pos hkind]
    have hnot {kept : Table} (hkept : kept.Sublist (pointsOf l)) : v ∉ kept := fun h => by
      simpa [hkind] using hkept.subset h
    have hfirst :=
      hnot ((filter_sublist (p := latestStays gc (deletionsOf live))).trans
        (firstPerKey_sublist none _))
    split
    · rename_i oldest holdest
      have hkept :=
        hnot (flatten_userKeyRuns _ ▸ flatMap_sublist (keptVersions_sublist oldest gc.bottommost)
          (userKeyRuns _))
      simp [gcSnapshotSafe, mem_sortInternal, hkept, hmem, hkind, holdest]
    · rename_i hnone
      cases gc.keepOnlyLatest <;> cases gc.bottommost <;>
        simp [mem_sortInternal, hfirst, hmem, hkind, hnone]
  · rw [if_neg hkind]
    have hin {kept : Table} (hkept : kept.Sublist ((pointsOf l).filter fun w => w.key == v.key)) :
        v ∈ l ∧ v ∈ kept ↔ v ∈ kept := and_iff_right_of_imp fun h => (hmemvs.mp (hkept.subset h)).1
    split
    · rename_i oldest holdest
      rw [keptPoints_snapshot holdest, hin (keptVersions_sublist _ _ _), gcSnapshotSafe,
        mem_sortInternal, mem_append, hrange,
        mem_flatMap_userKeyRuns (keptVersions_sublist oldest gc.bottommost) hpoints]
      exact or_iff_left fun h => hkind h.2
    · rename_i hnone
      cases hlatest : gc.keepOnlyLatest with
      | false =>
        simp only [keptPoints, hnone, hlatest]
        simp [mem_sortInternal, hmem, hkind]
      | true =>
        have hfirst : v ∈ (firstPerKey none (pointsOf l)).filter
              (latestStays gc (deletionsOf live)) ↔
            v ∈ l ∧ v ∈ keptPoints gc (deletionsOf l)
              ((pointsOf l).filter fun w => w.key == v.key) := by
          have hstays : latestStays gc (deletionsOf live) v =
              latestStays gc (deletionsOf l) v := latestStays_congr fun t => by simp [hmem]
          rw [mem_keptPoints_latest hnone hlatest hvs hkind, mem_filter,
            mem_firstPerKey_iff hpoints none (by simp), hstays]
          simp only [mem_filter]
          simp [and_assoc]
        rw [← hfirst]
        cases gc.bottommost <;> simp [mem_sortInternal, hkind]

/-- **Runs and batch.** The runs of a table decided in turn are the batch. -/
theorem closeRuns_as_batch (hdistinct : InternallyDistinct entries) :
    closeRuns gc []
    (userKeyRuns (sortInternal (entries.filter fun v => decide (gc.minSequence ≤ v.sequence)))) =
      gcCompactEntries entries gc := by
  have hl :=
    sortInternal_strict
    (hdistinct.sublist (filter_sublist (p := fun v => decide (gc.minSequence ≤ v.sequence))))
  have hcloses :
    (closeRuns gc [] (userKeyRuns
      (sortInternal (entries.filter fun v => decide (gc.minSequence ≤ v.sequence))))).Pairwise
      InternalBefore := by
    refine List.Pairwise.sublist (closeRuns_sublist _ [] _) ?_
    rwa [flatten_userKeyRuns]
  refine eq_of_strict hcloses (gcCompactEntries_strict hdistinct gc) fun v => ?_
  rw [mem_closeRuns_strict hl, mem_closeRun, mem_gcCompactEntries hdistinct rfl, mem_filter]
  simp

end Batch

/-- **Streamed as in one batch.** For streams in internal order in which no internal key comes
twice, the drained source is the batch's output, in strictly ascending order. -/
theorem streamed_as_batch (streams : List Table) (gc : CompactGcOptions)
    (hsorted : ∀ s ∈ streams, s.Pairwise InternalBefore)
    (hdistinct : InternallyDistinct streams.flatten) :
    drain (GcMergeSource.new (KwayInternalMerge.fromStreams streams) gc) =
    gcCompactEntries streams.flatten gc ∧
      (drain (GcMergeSource.new (KwayInternalMerge.fromStreams streams) gc)).Pairwise InternalBefore := by
  have hflatMap : streams.flatMap drain = streams.flatten := by
    rw [flatMap_def, map_congr_left fun s _ => drain_table s, map_id']
  have hmerge := drain_fromStreams (fun s hs => (drain_table s).symm ▸ hsorted s hs)
    (hflatMap ▸ hdistinct)
  rw [hflatMap] at hmerge
  have hlive : ((sortInternal streams.flatten).filter fun v => decide (gc.minSequence ≤ v.sequence)) =
      sortInternal (streams.flatten.filter fun v => decide (gc.minSequence ≤ v.sequence)) := by
    refine eq_of_strict ((sortInternal_strict hdistinct).sublist filter_sublist)
      (sortInternal_strict (hdistinct.sublist filter_sublist)) fun v => ?_
    rw [mem_filter, mem_sortInternal, mem_sortInternal, mem_filter]
  have hdrain := GcMergeSource.drain_new (fromStreams streams) gc
  rw [hmerge, hlive] at hdrain
  refine ⟨hdrain.trans (closeRuns_as_batch hdistinct), ?_⟩
  have hstrict := (sortInternal_strict hdistinct).sublist
    (filter_sublist (p := fun v => decide (gc.minSequence ≤ v.sequence)))
  rw [hlive, ← flatten_userKeyRuns (sortInternal _)] at hstrict
  rw [hdrain]
  exact hstrict.sublist (closeRuns_sublist _ [] _)

/-- Two streams with all kinds of entries. -/
def twoStreams : List Table :=
  [[.put 6 [5] [7], .put 2 [5] [6], .deleteRange 4 [6] [9]],
    [.delete 3 [5], .put 1 [7] [8], .put 5 [8] [5]]]

theorem streamed_as_batch_two :
    (drain (GcMergeSource.new (KwayInternalMerge.fromStreams twoStreams) ⟨0, true, none, false⟩) =
      gcCompactEntries twoStreams.flatten ⟨0, true, none, false⟩ ∧
        (drain (GcMergeSource.new (KwayInternalMerge.fromStreams twoStreams)
          ⟨0, true, none, false⟩)).Pairwise InternalBefore) ∧
      gcCompactEntries twoStreams.flatten ⟨0, true, none, false⟩ =
      [.put 6 [5] [7], .deleteRange 4 [6] [9], .put 5 [8] [5]] :=
  ⟨streamed_as_batch twoStreams ⟨0, true, none, false⟩ (by decide)
    (by unfold InternallyDistinct; decide), by decide +kernel⟩

end PedraDb
