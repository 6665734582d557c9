import PedraDb.Durable.Filter
import PedraDb.Merge.Internal

/-! A merge in spans of keys.

A large merge is cut at user keys sampled from the first keys of the inputs' blocks, and
each span is merged on its own. A stream of a span begins at the first block whose first key
is in the span. The block before it may reach into the span: its entries from there on are
in no span, as the span before ends at the cut. Where every cut falls between blocks the
spans together are the merge. -/
namespace PedraDb.Levels
open List
open Chunks (Cut)
open Durable (compactShouldSplitAt mergedEntryBytes)
variable {v : WriteOp}

/-! ### Streams -/

/-- A table: its blocks, as the index lists them; one without an index has its entries in
memory. -/
structure Input where
  index : List Table
  eager : Table
  deriving DecidableEq

open Input

namespace Input
variable (t : Input)

def isLazy : Bool := !t.index.isEmpty

def entries : Table := if t.isLazy then t.index.flatten else t.eager

def firstUserKey (block : Table) : Key := (block.head?.map WriteOp.key).getD []

/-- Where a stream begins: blocks whose first key is below `lo` are passed over. -/
def streamFrom (lo : Option Key) : Table :=
  if t.isLazy then (t.index.dropWhile fun b => lo.any fun lo =>
    decide (firstUserKey b < lo)).flatten else t.eager

def iterInternalBetween (lo hiExcl : Option Key) : Table :=
  (t.streamFrom lo).takeWhile fun v => hiExcl.all fun hi => decide (v.key < hi)

/-- No block reaches over the cut. -/
def cutBetween (cut : Key) : Bool :=
  if t.isLazy then t.index.all fun b => !decide (firstUserKey b < cut) || b.all fun v =>
    decide (v.key < cut)
  else t.eager.all fun v => decide (cut ≤ v.key)

/-- Blocks are not empty, and the entries are in order. -/
structure Sorted : Prop where
  blocks : ∀ b ∈ t.index, b ≠ []
  entries : t.entries.Pairwise fun a b => a.key ≤ b.key

end Input

/-! ### Spans -/

def sampleSpanSplits (tables : List Input) (parts : Nat) : List Key :=
  let keys := (tables.flatMap fun t => t.index.map firstUserKey).foldr insertFamily []
  if keys.length < parts then []
  else (List.range' 1 (parts - 1)).map fun i =>
    keys.getD (min (keys.length * i / parts) (keys.length - 1)) []

/-- Each span begins where the one before ends. -/
def spansFrom (lo : Option Key) : List Key → List (Option Key × Option Key)
  | [] => [(lo, none)]
  | cut :: rest => (lo, some cut) :: spansFrom (some cut) rest

/-- The files of a span: cut at user keys once they are large, as long as the budget lasts. -/
def cutChunks (target budget : Nat) : Nat → Nat → Option Key → Table → List Table
  | _, _, _, [] => [[]]
  | out, acc, lastUser, v :: rest =>
    let startNew := compactShouldSplitAt acc target && decide (out + 1 < budget) &&
      lastUser.any (· != v.key)
    -- with a target of 0 the files after one that ends all end at once, up to the last
    let ended := if startNew then (if target = 0 then budget - 1 - out else 1) else 0
    let chunks := cutChunks target budget (out + ended)
      (if startNew then mergedEntryBytes v else acc + mergedEntryBytes v) (some v.key) rest
    replicate ended [] ++ (v :: chunks.headD []) :: chunks.tail

def writeMergedTablesSpan (tables : List Input) (target budget : Nat)
    (span : Option Key × Option Key) : List Table :=
  if tables.isEmpty then []
  else cutChunks target budget 0 0 none
    (mergeInternal (tables.map fun t => t.iterInternalBetween span.1 span.2))

def writeMergedTables (tables : List Input) (target budget : Nat) : List Table :=
  writeMergedTablesSpan tables target budget (none, none)

/-- How many spans a merge is cut into, at most. -/
def spanParts (spans budget : Nat) : Nat := min spans (max budget 1)

def writeMergedTablesParallel (tables : List Input) (spans target budget : Nat) : List (List Table) :=
  if spanParts spans budget ≤ 1 then [writeMergedTables tables target budget]
  else
    let splits := sampleSpanSplits tables (spanParts spans budget)
    (spansFrom none splits).map (writeMergedTablesSpan tables target
      (max (budget / (splits.length + 1)) 1))

/-- Every cut of the merge falls between blocks. -/
def aligned (tables : List Input) (spans budget : Nat) : Bool :=
  decide (spanParts spans budget ≤ 1) ||
    (sampleSpanSplits tables (spanParts spans budget)).all fun cut => tables.all fun t => t.cutBetween cut

/-! ### One stream -/

section Stream
variable {t : Input} {lo hi : Option Key}

/-- The keys from `lo` on and below `hi`. -/
def Within (lo hi : Option Key) (key : Key) : Prop := (∀ l ∈ lo, l ≤ key) ∧ ∀ h ∈ hi, key < h

theorem firstUserKey_le {block : Table} (hblock : block.Pairwise fun a b => a.key ≤ b.key)
    (hv : v ∈ block) :
    firstUserKey block ≤ v.key := by
  cases block with
  | nil => cases hv
  | cons w block =>
    rcases mem_cons.mp hv with rfl | hv
    · exact List.le_refl _
    · exact (pairwise_cons.mp hblock).1 v hv

theorem streamFrom_sublist (t : Input) (lo : Option Key) : (t.streamFrom lo).Sublist t.entries := by
  rw [streamFrom, entries]
  split
  · exact (dropWhile_sublist _).flatten
  · exact List.Sublist.refl _

theorem iterInternalBetween_sublist (t : Input) (lo hi : Option Key) :
    (t.iterInternalBetween lo hi).Sublist t.entries :=
  (takeWhile_sublist _).trans (streamFrom_sublist t lo)

theorem dropWhile_ge {cut : Key} {blocks : List Table} (hne : ∀ b ∈ blocks, b ≠ [])
    (hsorted : blocks.flatten.Pairwise fun a b => a.key ≤ b.key)
    (hv : v ∈ (blocks.dropWhile fun b => decide (firstUserKey b < cut)).flatten) : cut ≤ v.key := by
  induction blocks with
  | nil => cases hv
  | cons b blocks ih =>
    obtain ⟨hb, hrest, hcross⟩ := pairwise_append.mp hsorted
    rw [dropWhile_cons] at hv
    split at hv
    · exact ih (fun b hb => hne b (mem_cons_of_mem _ hb)) hrest hv
    · rename_i hge
      have hfirst : cut ≤ firstUserKey b := List.not_lt.mp (by simpa using hge)
      rcases mem_append.mp hv with hv | hv
      · exact List.le_trans hfirst (firstUserKey_le hb hv)
      · obtain ⟨w, hw⟩ := exists_mem_of_ne_nil b (hne b mem_cons_self)
        exact List.le_trans hfirst (List.le_trans (firstUserKey_le hb hw) (hcross w hw v hv))

/-- Where no table without an index has an entry below the span, a stream stays in it. -/
theorem iterInternalBetween_within (h : t.Sorted)
    (hlo : ∀ l ∈ lo, t.isLazy = false → ∀ v ∈ t.eager, l ≤ v.key)
    (hv : v ∈ t.iterInternalBetween lo hi) : Within lo hi v.key := by
  refine ⟨fun l hl => ?_, fun e he => ?_⟩
  · have hv := (takeWhile_sublist _).subset hv
    have hsorted := h.entries
    obtain rfl := Option.mem_def.mp hl
    rw [streamFrom] at hv
    rw [entries] at hsorted
    split at hv
    · rename_i hlazy
      rw [if_pos hlazy] at hsorted
      exact dropWhile_ge h.blocks hsorted hv
    · rename_i heager
      exact hlo l rfl (Bool.eq_false_of_not_eq_true heager) v hv
  · obtain rfl := Option.mem_def.mp he
    exact of_decide_eq_true (all_eq_true.mp all_takeWhile v hv)

theorem mem_streamFrom (hcut : ∀ l ∈ lo, t.cutBetween l = true) (hv : v ∈ t.entries)
    (hge : ∀ l ∈ lo, l ≤ v.key) : v ∈ t.streamFrom lo := by
  rw [entries] at hv
  rw [streamFrom]
  split at hv
  · rename_i hlazy
    rw [← takeWhile_append_dropWhile (p := fun b => lo.any fun l => decide (firstUserKey b < l))
      (l := t.index), flatten_append,
      mem_append] at hv
    rw [if_pos hlazy]
    refine hv.resolve_left fun hv => ?_
    -- a block that is passed over is below the cut, all of it
    obtain ⟨b, hb, hvb⟩ := mem_flatten.mp hv
    have hlow := all_eq_true.mp all_takeWhile b hb
    have hmem := (takeWhile_sublist _).subset hb
    cases lo with
    | none => cases hlow
    | some cut =>
      have hblock := hcut cut rfl
      rw [cutBetween, if_pos hlazy] at hblock
      have hblock := all_eq_true.mp hblock b hmem
      simp only [of_decide_eq_true hlow, decide_true, Bool.not_true, Bool.false_or, all_eq_true,
        decide_eq_true_eq] at hblock
      exact List.not_lt.mpr (hge cut rfl) (hblock v hvb)
  · rename_i heager
    rwa [if_neg heager]

/-- A stream in order is read up to its last key below the end. -/
theorem mem_takeWhile_below {stream : Table} (hsorted : stream.Pairwise fun a b => a.key ≤ b.key)
    (hv : v ∈ stream) (hlt : ∀ e ∈ hi, v.key < e) :
    v ∈ stream.takeWhile fun w => hi.all fun e => decide (w.key < e) := by
  induction stream with
  | nil => cases hv
  | cons w rest ih =>
    obtain ⟨hw, hrest⟩ := pairwise_cons.mp hsorted
    have hwv : w.key ≤ v.key := by
      rcases mem_cons.mp hv with rfl | hv
      · exact List.le_refl _
      · exact hw v hv
    have hin : (hi.all fun e => decide (w.key < e)) = true := by
      cases hi with
      | none => rfl
      | some e => exact decide_eq_true (List.lt_of_le_of_lt hwv (hlt e rfl))
    rw [takeWhile_cons, if_pos hin]
    exact mem_cons.mpr ((mem_cons.mp hv).imp_right (ih hrest))

theorem mem_iterInternalBetween (h : t.Sorted) (hcut : ∀ l ∈ lo, t.cutBetween l = true) :
    v ∈ t.iterInternalBetween lo hi ↔ v ∈ t.entries ∧ Within lo hi v.key := by
  constructor
  · intro hv
    refine ⟨(iterInternalBetween_sublist t lo hi).subset hv,
      iterInternalBetween_within h (fun l hl heager w hw => ?_) hv⟩
    have hcut := hcut l hl
    rw [cutBetween, heager, if_neg Bool.false_ne_true] at hcut
    exact of_decide_eq_true (all_eq_true.mp hcut w hw)
  · rintro ⟨hv, hge, hlt⟩
    exact mem_takeWhile_below (h.entries.sublist (streamFrom_sublist t lo))
      (mem_streamFrom hcut hv hge) hlt

/-- Where no internal key is repeated, an entry is in one part only. -/
theorem part_unique {α : Type} {f : α → Table} {parts : List α}
    (h : InternallyDistinct (parts.map f).flatten) {a b : α} (ha : a ∈ parts) (hb : b ∈ parts)
    (hva : v ∈ f a) (hvb : v ∈ f b) : a = b := by
  by_contra hne
  have happart := pairwise_map.mp (pairwise_flatten.mp h).2
  have : Std.Symm fun a b => ∀ x ∈ f a, ∀ y ∈ f b, sameInternalKey x y = false :=
    ⟨fun a b hab x hx y hy => by rw [sameInternalKey_comm, hab y hy x hx]⟩
  have hsame := happart.forall ha hb hne v hva v hvb
  rw [sameInternalKey_iff.mpr ⟨rfl, rfl, rfl⟩] at hsame
  cases hsame

/-- What a block holds from a cut on is in no span: the spans from the cut on pass over the
block, and those before it end there. -/
theorem block_passed_over {cut : Key} {b : Table} (h : t.Sorted) (hlazy : t.isLazy = true)
    (hdistinct : InternallyDistinct t.entries) (hb : b ∈ t.index) (hv : v ∈ b)
    (hfirst : firstUserKey b < cut) (hge : cut ≤ v.key)
    (hside : (∃ l ∈ lo, cut ≤ l) ∨ ∃ e ∈ hi, e ≤ cut) : v ∉ t.iterInternalBetween lo hi := by
  intro hmem
  rcases hside with ⟨l, hl, hle⟩ | ⟨e, he, hle⟩
  · have hstream := (takeWhile_sublist _).subset hmem
    obtain rfl := Option.mem_def.mp hl
    have hsorted := h.entries
    rw [streamFrom, if_pos hlazy] at hstream
    rw [entries, if_pos hlazy] at hsorted hdistinct
    obtain ⟨b', hb', hv'⟩ := mem_flatten.mp hstream
    rw [← map_id t.index] at hdistinct
    obtain rfl : b' = b :=
      part_unique (f := id) hdistinct ((dropWhile_sublist _).subset hb') hb hv' hv
    cases b' with
    | nil => cases hv
    | cons w rest =>
      have hw : l ≤ w.key :=
        dropWhile_ge h.blocks hsorted (mem_flatten.mpr ⟨_, hb', mem_cons_self⟩)
      exact List.not_lt.mpr (List.le_trans hle hw) hfirst
  · obtain rfl := Option.mem_def.mp he
    have hlt : v.key < e := of_decide_eq_true (all_eq_true.mp all_takeWhile v hmem)
    exact List.not_lt.mpr (List.le_trans hle hge) hlt

end Stream

/-! ### The spans together -/

section Spans
variable {tables : List Input} {lo : Option Key} {splits : List Key}

theorem spansFrom_lo {span : Option Key × Option Key} (h : span ∈ spansFrom lo splits) :
    span.1 = lo ∨ ∃ cut ∈ splits, span.1 = some cut := by
  induction splits generalizing lo with
  | nil => exact .inl (by rw [mem_singleton.mp h])
  | cons cut rest ih =>
    rcases mem_cons.mp h with rfl | h
    · exact .inl rfl
    · rcases ih h with h | ⟨c, hc, h⟩
      · exact .inr ⟨cut, mem_cons_self, h⟩
      · exact .inr ⟨c, mem_cons_of_mem _ hc, h⟩

theorem spansFrom_cut {P : Key → Prop} (hsplits : ∀ cut ∈ splits, P cut)
    {span : Option Key × Option Key} (h : span ∈ spansFrom none splits) :
    ∀ l ∈ span.1, P l := by
  intro l hl
  rcases spansFrom_lo h with h | ⟨cut, hcut, h⟩
  · rw [h] at hl
    cases hl
  · rw [h] at hl
    cases hl
    exact hsplits _ hcut

theorem spansFrom_cover {key : Key} (hlo : ∀ l ∈ lo, l ≤ key) :
    ∃ span ∈ spansFrom lo splits, Within span.1 span.2 key := by
  induction splits generalizing lo with
  | nil => exact ⟨_, mem_singleton_self _, hlo, by simp⟩
  | cons cut rest ih =>
    by_cases hlt : key < cut
    · exact ⟨_, mem_cons_self, hlo, by simpa using hlt⟩
    · obtain ⟨span, hspan, hin⟩ := @ih (some cut) (by simpa using List.not_lt.mp hlt)
      exact ⟨span, mem_cons_of_mem _ hspan, hin⟩

theorem spansFrom_apart (hsplits : splits.Pairwise (· ≤ ·)) :
    (spansFrom lo splits).Pairwise fun a b =>
    ∀ key key', Within a.1 a.2 key → Within b.1 b.2 key' → key < key' := by
  induction splits generalizing lo with
  | nil => exact pairwise_singleton _ _
  | cons cut rest ih =>
    obtain ⟨hcut, hrest⟩ := pairwise_cons.mp hsplits
    refine pairwise_cons.mpr ⟨fun span hspan key key' hin hin' => ?_, ih hrest⟩
    have hlt : key < cut := hin.2 cut rfl
    rcases spansFrom_lo hspan with h | ⟨c, hc, h⟩
    · exact Std.lt_of_lt_of_le hlt (hin'.1 cut h)
    · exact Std.lt_of_lt_of_le hlt (List.le_trans (hcut c hc) (hin'.1 c h))

theorem spansFrom_ordered (hsplits : splits.Pairwise (· ≤ ·)) :
    (spansFrom lo splits).Pairwise fun a b => ∃ e ∈ a.2, ∃ l ∈ b.1, e ≤ l := by
  induction splits generalizing lo with
  | nil => exact pairwise_singleton _ _
  | cons cut rest ih =>
    obtain ⟨hcut, hrest⟩ := pairwise_cons.mp hsplits
    refine pairwise_cons.mpr ⟨fun span hspan => ⟨cut, rfl, ?_⟩, ih hrest⟩
    rcases spansFrom_lo hspan with h | ⟨c, hc, h⟩
    · exact ⟨cut, h, List.le_refl _⟩
    · exact ⟨c, h, hcut c hc⟩

/-- A span begins at a cut or after it, or ends at it or before. -/
theorem spansFrom_side {cut : Key} (hsplits : splits.Pairwise (· ≤ ·)) (hcut : cut ∈ splits)
    {span : Option Key × Option Key} (h : span ∈ spansFrom lo splits) :
    (∃ l ∈ span.1, cut ≤ l) ∨ ∃ e ∈ span.2, e ≤ cut := by
  induction splits generalizing lo with
  | nil => cases hcut
  | cons c rest ih =>
    obtain ⟨hc, hrest⟩ := pairwise_cons.mp hsplits
    rcases mem_cons.mp h with rfl | h
    · refine .inr ⟨c, rfl, ?_⟩
      rcases mem_cons.mp hcut with rfl | hcut
      · exact List.le_refl _
      · exact hc cut hcut
    · rcases mem_cons.mp hcut with rfl | hcut
      · left
        rcases spansFrom_lo h with h | ⟨l, hl, h⟩
        · exact ⟨_, h, List.le_refl _⟩
        · exact ⟨l, h, hc l hl⟩
      · exact ih hrest hcut h

theorem spansFrom_ends {cut : Key} (hcut : cut ∈ splits) :
    ∃ l, (l, some cut) ∈ spansFrom lo splits := by
  induction splits generalizing lo with
  | nil => cases hcut
  | cons c rest ih =>
    rcases mem_cons.mp hcut with rfl | hcut
    · exact ⟨lo, mem_cons_self⟩
    · obtain ⟨l, hl⟩ := ih hcut
      exact ⟨l, mem_cons_of_mem _ hl⟩

theorem spansFrom_last (lo : Option Key) (splits : List Key) :
    ∃ l, (l, none) ∈ spansFrom lo splits := by
  induction splits generalizing lo with
  | nil => exact ⟨lo, mem_cons_self⟩
  | cons c rest ih =>
    obtain ⟨l, hl⟩ := ih (some c)
    exact ⟨l, mem_cons_of_mem _ hl⟩

theorem sampleSpanSplits_sorted (tables : List Input) (parts : Nat) :
    (sampleSpanSplits tables parts).Pairwise (· ≤ ·) := by
  rw [sampleSpanSplits]
  generalize (tables.flatMap fun t => t.index.map firstUserKey) = firsts
  have hkeys := families_sorted firsts
  generalize firsts.foldr insertFamily [] = keys at hkeys ⊢
  split
  · exact .nil
  refine pairwise_map.mpr ((@pairwise_lt_range' 1 (parts - 1) 1 Nat.one_pos).imp fun {i j} hij => ?_)
  -- a later sample is of the same key or a later one
  have hle : min (keys.length * i / parts) (keys.length - 1) ≤ min (keys.length * j / parts)
    (keys.length - 1) :=
    by have := Nat.div_le_div_right (c := parts) (Nat.mul_le_mul_left keys.length (le_of_lt hij)); omega
  have hj : min (keys.length * j / parts) (keys.length - 1) ≤ keys.length - 1 := Nat.min_le_right _ _
  generalize min (keys.length * i / parts) (keys.length - 1) = m at hle ⊢
  generalize min (keys.length * j / parts) (keys.length - 1) = n at hle hj ⊢
  rcases Nat.eq_or_lt_of_le hle with rfl | hlt
  · exact List.le_refl _
  · have hn : n < keys.length := by omega
    have hm : m < keys.length := lt_trans hlt hn
    simp only [getD_eq_getElem?_getD, getElem?_eq_getElem hm, getElem?_eq_getElem hn, Option.getD_some]
    exact List.le_of_lt (pairwise_iff_getElem.mp hkeys m n _ hn hlt)

theorem cutChunks_cut (target budget out acc : Nat) (last : Option Key) (t : Table) :
    Cut WriteOp.key last t (cutChunks target budget out acc last t) := by
  induction t generalizing out acc last with
  | nil => exact .nil
  | cons v t ih =>
    simp only [cutChunks]
    split
    · rename_i hnew
      cases last with
      | none => simp at hnew
      | some k => exact .replicate _ (by simpa using (Bool.and_eq_true_iff.mp hnew).2) (.next (ih ..))
    · exact .next (ih ..)

theorem skipRepeated_distinct {last : Option WriteOp} {t : Table}
    (h : InternallyDistinct (last.toList ++ t)) : skipRepeated last t = t := by
  induction t generalizing last with
  | nil => rfl
  | cons v t ih =>
    have hnew : last.any (sameInternalKey v) = false := by
      cases last with
      | none => rfl
      | some l =>
        rw [Option.any_some, sameInternalKey_comm]
        exact (pairwise_cons.mp h).1 v mem_cons_self
    rw [skipRepeated, hnew, if_neg Bool.false_ne_true, ih (h.sublist (sublist_append_right _ _))]

/-- A merge of entries without a repeated internal key is their arrangement. -/
theorem mergeInternal_distinct {inputs : List Table} (h : InternallyDistinct inputs.flatten) :
    mergeInternal inputs = sortInternal inputs.flatten :=
  skipRepeated_distinct (h.perm (sortInternal_perm _).symm)

theorem writeMergedTablesSpan_flatten (tables : List Input) (target budget : Nat)
    (span : Option Key × Option Key) :
    (writeMergedTablesSpan tables target budget span).flatten =
    mergeInternal (tables.map fun t => t.iterInternalBetween span.1 span.2) := by
  rw [writeMergedTablesSpan]
  split
  · rename_i hempty
    rw [List.isEmpty_iff.mp hempty]
    rfl
  · exact (cutChunks_cut ..).flatten

/-- What is in the spans, in order, where every cut falls between blocks. -/
structure Merged (tables : List Input) (span : Option Key × Option Key) (t : Table) : Prop where
  strict : t.Pairwise InternalBefore
  mem : ∀ v, v ∈ t ↔ v ∈ (tables.map entries).flatten ∧ Within span.1 span.2 v.key

/-- A span writes, in order, what its streams read. -/
theorem span_entries (hdistinct : InternallyDistinct (tables.map entries).flatten)
    (target budget : Nat) (span : Option Key × Option Key) :
    (writeMergedTablesSpan tables target budget span).flatten.Pairwise InternalBefore ∧
      ∀ v, v ∈ (writeMergedTablesSpan tables target budget span).flatten ↔
        ∃ t ∈ tables, v ∈ t.iterInternalBetween span.1 span.2 := by
  have hsub : ((tables.map fun t => t.iterInternalBetween span.1 span.2).flatten).Sublist
      (tables.map entries).flatten := by
    clear hdistinct
    induction tables with
    | nil => exact List.Sublist.refl _
    | cons t tables ih => exact (iterInternalBetween_sublist t _ _).append ih
  have hsome := hdistinct.sublist hsub
  rw [writeMergedTablesSpan_flatten, mergeInternal_distinct hsome]
  refine ⟨sortInternal_strict hsome, fun v => ?_⟩
  simp only [mem_sortInternal, mem_flatten, mem_map, exists_exists_and_eq_and]

theorem merged_span (hsorted : ∀ t ∈ tables, t.Sorted)
    (hdistinct : InternallyDistinct (tables.map entries).flatten)
    {span : Option Key × Option Key}
    (hcut : ∀ l ∈ span.1, ∀ t ∈ tables, t.cutBetween l = true) (target budget : Nat) :
    Merged tables span (writeMergedTablesSpan tables target budget span).flatten := by
  obtain ⟨hstrict, hmem⟩ := span_entries hdistinct target budget span
  refine ⟨hstrict, fun v => ?_⟩
  rw [hmem]
  simp only [mem_flatten, mem_map, exists_exists_and_eq_and]
  constructor
  · rintro ⟨t, ht, hv⟩
    have := (mem_iterInternalBetween (hsorted t ht) fun l hl => hcut l hl t ht).mp hv
    exact ⟨⟨t, ht, this.1⟩, this.2⟩
  · rintro ⟨⟨t, ht, hv⟩, hin⟩
    exact ⟨t, ht,
      (mem_iterInternalBetween (hsorted t ht) fun l hl => hcut l hl t ht).mpr ⟨hv, hin⟩⟩

theorem nodup_of_distinct {t : Table} (h : InternallyDistinct t) : t.Nodup := by
  refine h.imp fun {a b} hab heq => ?_
  rw [heq, sameInternalKey_iff.mpr ⟨rfl, rfl, rfl⟩] at hab
  cases hab

/-- With every cut between blocks the spans together write what one merge writes. -/
theorem parallel_of_aligned (hsorted : ∀ t ∈ tables, t.Sorted)
    (hdistinct : InternallyDistinct (tables.map Input.entries).flatten)
    (spans target budget : Nat) (haligned : aligned tables spans budget = true) :
    (writeMergedTablesParallel tables spans target budget).flatten.flatten =
    (writeMergedTables tables target budget).flatten ∧
    (writeMergedTablesParallel tables spans target budget).flatten.flatten.Perm
    (tables.map Input.entries).flatten ∧
    (writeMergedTablesParallel tables spans target budget).Pairwise fun a b =>
    ∀ v ∈ a.flatten, ∀ w ∈ b.flatten, v.key < w.key := by
  have hnone : ∀ l ∈ (none : Option Key), ∀ t ∈ tables, t.cutBetween l = true := nofun
  have hseq := @merged_span tables hsorted hdistinct (none, none) hnone target budget
  have hall : ∀ v, v ∈ (writeMergedTables tables target budget).flatten ↔
      v ∈ (tables.map entries).flatten := by
    intro v
    rw [writeMergedTables, hseq.mem]
    simp [Within]
  have hperm : (writeMergedTables tables target budget).flatten.Perm (tables.map entries).flatten := by
    have hnodup : (writeMergedTables tables target budget).flatten.Nodup :=
      hseq.strict.imp fun {a b} (hab : InternalBefore a b) (heq : a = b) =>
        InternalBefore.irrefl b (heq ▸ hab)
    exact (perm_ext_iff_of_nodup hnodup (nodup_of_distinct hdistinct)).mpr hall
  rw [writeMergedTablesParallel]
  split
  · exact ⟨by simp, by simpa using hperm, pairwise_singleton _ _⟩
  rename_i hparts
  rw [aligned, decide_eq_false hparts, Bool.false_or] at haligned
  have hsplits := sampleSpanSplits_sorted tables (spanParts spans budget)
  dsimp only
  generalize sampleSpanSplits tables (spanParts spans budget) = splits at haligned hsplits ⊢
  generalize max (budget / (splits.length + 1)) 1 = spanBudget
  -- each span begins at a cut or at the start
  have hspan : ∀ span ∈ spansFrom none splits,
      Merged tables span (writeMergedTablesSpan tables target spanBudget span).flatten := by
    intro span hspan
    refine merged_span hsorted hdistinct (spansFrom_cut (fun cut hcut t ht => ?_) hspan) target spanBudget
    exact all_eq_true.mp (all_eq_true.mp haligned _ hcut) t ht
  have hapart : ((spansFrom none splits).map (writeMergedTablesSpan tables target spanBudget)).Pairwise
      fun a b => ∀ v ∈ a.flatten, ∀ w ∈ b.flatten, v.key < w.key := by
    refine pairwise_map.mpr ((spansFrom_apart hsplits).imp_of_mem fun {a b} ha hb h v hv w hw => ?_)
    exact h v.key w.key (((hspan a ha).mem v).mp hv).2 (((hspan b hb).mem w).mp hw).2
  have heq :
    ((spansFrom none splits).map (writeMergedTablesSpan tables target spanBudget)).flatten.flatten =
      (writeMergedTables tables target budget).flatten := by
    refine eq_of_strict ?_ hseq.strict fun v => ?_
    · rw [flatten_flatten]
      refine pairwise_flatten.mpr ⟨fun t ht => ?_,
        pairwise_map.mpr (hapart.imp fun h v hv w hw => .inl (h v hv w hw))⟩
      obtain ⟨files, hfiles, rfl⟩ := mem_map.mp ht
      obtain ⟨span, hin, rfl⟩ := mem_map.mp hfiles
      exact (hspan span hin).strict
    · rw [hall, mem_flatten]
      constructor
      · rintro ⟨t, ht, hv⟩
        obtain ⟨files, hfiles, ht⟩ := mem_flatten.mp ht
        obtain ⟨span, hin, rfl⟩ := mem_map.mp hfiles
        exact (((hspan span hin).mem v).mp (mem_flatten.mpr ⟨t, ht, hv⟩)).1
      · intro hv
        obtain ⟨span, hin, hwithin⟩ := @spansFrom_cover none splits v.key nofun
        obtain ⟨t, ht, hv⟩ := mem_flatten.mp (((hspan span hin).mem v).mpr ⟨hv, hwithin⟩)
        exact ⟨t, mem_flatten.mpr ⟨_, mem_map_of_mem hin, ht⟩, hv⟩
  exact ⟨heq, heq ▸ hperm, hapart⟩

/-- A cut inside a block loses the block's entries from there on, and one above entries of a
table without an index repeats these. -/
theorem aligned_of_perm (hsorted : ∀ t ∈ tables, t.Sorted)
    (hdistinct : InternallyDistinct (tables.map Input.entries).flatten) {spans target budget : Nat}
    (hperm : (writeMergedTablesParallel tables spans target budget).flatten.flatten.Perm
      (tables.map Input.entries).flatten) : aligned tables spans budget = true := by
  rw [aligned, Bool.or_eq_true, decide_eq_true_eq]
  by_cases hparts : spanParts spans budget ≤ 1
  · exact .inl hparts
  refine .inr (all_eq_true.mpr fun cut hcut => all_eq_true.mpr fun t ht => ?_)
  rw [writeMergedTablesParallel, if_neg hparts] at hperm
  have hsplits := sampleSpanSplits_sorted tables (spanParts spans budget)
  dsimp only at hperm
  generalize sampleSpanSplits tables (spanParts spans budget) = splits at hcut hsplits hperm
  generalize max (budget / (splits.length + 1)) 1 = spanBudget at hperm
  rw [flatten_flatten, map_map] at hperm
  by_contra hcross
  rw [cutBetween] at hcross
  split at hcross
  · rename_i hlazy
    obtain ⟨b, hb, hcross⟩ : ∃ b ∈ t.index, ¬ (!decide (firstUserKey b < cut) ||
        b.all fun v => decide (v.key < cut)) = true := by simpa using hcross
    simp only [Bool.or_eq_true, Bool.not_eq_true', decide_eq_false_iff_not, all_eq_true,
      decide_eq_true_eq, not_or, not_not, not_forall] at hcross
    obtain ⟨hfirst, v, hv, hge⟩ := hcross
    have hentry : v ∈ t.entries := by
      rw [entries, if_pos hlazy]
      exact mem_flatten.mpr ⟨b, hb, hv⟩
    have hwritten := hperm.mem_iff.mpr (mem_flatten.mpr ⟨_, mem_map_of_mem ht, hentry⟩)
    obtain ⟨files, hfiles, hv'⟩ := mem_flatten.mp hwritten
    obtain ⟨span, hspan, rfl⟩ := mem_map.mp hfiles
    obtain ⟨t', ht', hread⟩ := ((span_entries hdistinct target spanBudget span).2 v).mp hv'
    obtain rfl : t' = t :=
      part_unique hdistinct ht' ht ((iterInternalBetween_sublist ..).subset hread) hentry
    have hdistinct' : InternallyDistinct t'.entries :=
      (pairwise_flatten.mp hdistinct).1 _ (mem_map_of_mem ht)
    exact block_passed_over (hsorted t' ht) hlazy hdistinct' hb hv hfirst (List.not_lt.mp hge)
      (spansFrom_side hsplits hcut hspan) hread
  · rename_i heager
    obtain ⟨v, hv, hlt⟩ : ∃ v ∈ t.eager, ¬ cut ≤ v.key := by simpa using hcross
    -- the span that ends at the cut and the last one both read the entry
    have hread (lo hi : Option Key) (hhi : ∀ e ∈ hi, v.key < e) :
        v ∈ (writeMergedTablesSpan tables target spanBudget (lo, hi)).flatten := by
      refine ((span_entries hdistinct target spanBudget (lo, hi)).2 v).mpr ⟨t, ht, ?_⟩
      have hin := (hsorted t ht).entries
      rw [entries, if_neg heager] at hin
      rw [iterInternalBetween, streamFrom, if_neg heager]
      exact mem_takeWhile_below hin hv hhi
    obtain ⟨l, hends⟩ := @spansFrom_ends none splits cut hcut
    obtain ⟨l', hlast⟩ := spansFrom_last none splits
    have hnodup := (nodup_flatten.mp (hperm.nodup_iff.mpr (nodup_of_distinct hdistinct))).2
    have : Std.Symm fun a b => List.Disjoint
        ((flatten ∘ writeMergedTablesSpan tables target spanBudget) a)
        ((flatten ∘ writeMergedTablesSpan tables target spanBudget) b) := ⟨fun _ _ h => h.symm⟩
    have happart := (pairwise_map.mp hnodup).forall hends hlast (by simp)
    exact happart (hread l (some cut) (by simpa using hlt)) (hread l' none (by simp))

/-- **The spans together write what one merge writes exactly if** every cut falls between
blocks: the entries of the inputs, and no key in two spans. -/
theorem parallel_as_sequential (hsorted : ∀ t ∈ tables, t.Sorted)
    (hdistinct : InternallyDistinct (tables.map Input.entries).flatten)
    (spans target budget : Nat) :
    ((writeMergedTablesParallel tables spans target budget).flatten.flatten =
          (writeMergedTables tables target budget).flatten ∧
        (writeMergedTablesParallel tables spans target budget).flatten.flatten.Perm
          (tables.map Input.entries).flatten ∧
        (writeMergedTablesParallel tables spans target budget).Pairwise fun a b =>
          ∀ v ∈ a.flatten, ∀ w ∈ b.flatten, v.key < w.key) ↔
      aligned tables spans budget = true := by
  constructor
  · intro h
    exact aligned_of_perm hsorted hdistinct h.2.1
  · intro haligned
    exact parallel_of_aligned hsorted hdistinct spans target budget haligned

end Spans

/-- Tables with a block for each list of keys, in two spans. -/
def blocksOf (seq : Nat) (blocks : List (List UInt8)) : Input :=
  ⟨blocks.map fun b => b.map fun k => .put seq [k] [5], []⟩

theorem between_sorted : ∀ t ∈ [blocksOf 1 [[20, 30]], blocksOf 2 [[10], [25]]], t.Sorted := by
  simp only [forall_mem_cons]
  exact ⟨⟨by decide, by decide⟩, ⟨by decide, by decide⟩, nofun⟩

/-- The second table's blocks meet the cut at the key 20. -/
theorem parallel_as_sequential_between :
    (writeMergedTablesParallel [blocksOf 1 [[20, 30]],
      blocksOf 2 [[10], [25]]] 2 100 2).flatten.flatten.Perm
    ([blocksOf 1 [[20, 30]], blocksOf 2 [[10], [25]]].map Input.entries).flatten :=
  ((parallel_as_sequential between_sorted (show List.Pairwise _ _ by decide) 2 100 2).mpr
    (by decide +kernel)).2.1

/-- A block from 10 to 30 and a cut at 20: the entry of the key 30 is in no span. -/
theorem block_across_cut : aligned [blocksOf 1 [[10, 30]], blocksOf 2 [[20]]] 2 2 = false ∧
    .put 1 [30] [5] ∈ (writeMergedTables [blocksOf 1 [[10, 30]], blocksOf 2 [[20]]] 100 2).flatten ∧
    .put 1 [30] [5] ∉ (writeMergedTablesParallel [blocksOf 1 [[10, 30]],
      blocksOf 2 [[20]]] 2 100 2).flatten.flatten := by
  decide +kernel

/-! ### The files of a job -/

/-- What a span of a prepared job keeps of its streams. -/
def spanKept (gc : CompactGcOptions) (tables : List Input) (span : Option Key × Option Key) : Table :=
  rewrite gc (tables.map fun t => t.iterInternalBetween span.1 span.2)

/-- The files of a span of a prepared job, with the versions it may drop. -/
def writeSpan (gc : CompactGcOptions) (tables : List Input) (target budget : Nat)
    (span : Option Key × Option Key) : List Table :=
  if tables.isEmpty then [] else cutChunks target budget 0 0 none (spanKept gc tables span)

/-- The files of each span of a job; the sequential one has one span. -/
def writeJob (gc : CompactGcOptions) (tables : List Input) (spans target budget : Nat) :
    List (List Table) :=
  if spanParts spans budget ≤ 1 then [writeSpan gc tables target budget (none, none)]
  else
    let splits := sampleSpanSplits tables (spanParts spans budget)
    (spansFrom none splits).map (writeSpan gc tables target (max (budget / (splits.length + 1)) 1))

/-- What a span keeps from below its window has no key that an earlier span keeps. -/
def straysApart (gc : CompactGcOptions) (tables : List Input) (spans budget : Nat) : Bool :=
  decide (spanParts spans budget ≤ 1) ||
    decide ((spansFrom none (sampleSpanSplits tables (spanParts spans budget))).Pairwise fun a b =>
      ∀ v ∈ spanKept gc tables b, (b.1.any fun lo => decide (v.key < lo)) = true →
        ∀ w ∈ spanKept gc tables a, w.key ≠ v.key)

def Below (a b : Table) : Prop := ∀ v ∈ a, ∀ w ∈ b, v.key < w.key

/-- Spans take the number of each file from one counter, in any order. -/
inductive Numbered : Nat → List (List Table) → List (Nat × Table) → Prop where
  | done {next : Nat} {spans : List (List Table)} (h : spans.flatten = []) : Numbered next spans []
  | write {next : Nat} {before after : List (List Table)} {file : Table} {files : List Table}
    {out : List (Nat × Table)}
    (h : Numbered (next + 1) (before ++ files :: after) out) :
    Numbered next (before ++ (file :: files) :: after) ((next, file) :: out)

theorem Numbered.numbers {next : Nat} {spans : List (List Table)} {out : List (Nat × Table)}
    (h : Numbered next spans out) :
    out.map Prod.fst = range' next out.length ∧ (out.map Prod.snd).Perm spans.flatten := by
  induction h with
  | done h => simp [h]
  | write h ih =>
    refine ⟨by rw [map_cons, ih.1, length_cons, range'_succ], ?_⟩
    simp only [flatten_append, flatten_cons, cons_append, map_cons] at ih ⊢
    exact (ih.2.cons _).trans perm_middle.symm

/-- The spans can always go on to the end. -/
theorem Numbered.exists (next : Nat) (spans : List (List Table)) : ∃ out, Numbered next spans out := by
  induction h : spans.flatten.length generalizing next spans with
  | zero => exact ⟨[], .done (length_eq_zero_iff.mp h)⟩
  | succ n ih =>
    have hne : spans.flatten ≠ [] := fun hnil => by simp [hnil] at h
    obtain ⟨files, hmem, hfiles⟩ := flatten_ne_nil_iff.mp hne
    obtain ⟨before, after, rfl⟩ := append_of_mem hmem
    obtain ⟨file, files, rfl⟩ := exists_cons_of_ne_nil hfiles
    obtain ⟨out, hout⟩ := ih (next + 1) (before ++ files :: after)
      (by simp only [flatten_append, flatten_cons, length_append, length_cons] at h ⊢; omega)
    exact ⟨_, .write hout⟩

theorem cutChunks_ne_nil {target budget out acc : Nat} {last : Option Key} {t : Table} :
    cutChunks target budget out acc last t ≠ [] := by
  cases t with
  | nil => simp [cutChunks]
  | cons v t => simp [cutChunks]

section Files
variable {tables : List Input} {budget : Nat} {span : Option Key × Option Key}
    (gc : CompactGcOptions) (target : Nat)

theorem cutChunks_length (acc : Nat) (last : Option Key) (t : Table) {out : Nat} (hout : out < budget) :
    (cutChunks target budget out acc last t).length ≤ budget - out := by
  induction t generalizing out acc last with
  | nil =>
    rw [cutChunks, length_singleton]
    omega
  | cons v t ih =>
    simp only [cutChunks]
    generalize hnew : (compactShouldSplitAt acc target && decide (out + 1 < budget) &&
      last.any (· != v.key)) = startNew
    have hlt : out + (if startNew then (if target = 0 then budget - 1 - out else 1) else 0) < budget := by
      cases startNew with
      | false => exact hout
      | true =>
        have : out + 1 < budget := by simp_all
        simp only [if_true]
        split <;> omega
    have ih := ih (if startNew then mergedEntryBytes v else acc + mergedEntryBytes v) (some v.key) hlt
    simp only [length_append, length_replicate, length_cons, length_tail]
    omega

theorem writeSpan_length (hbudget : 0 < budget) :
    (writeSpan gc tables target budget span).length ≤ budget := by
  rw [writeSpan]
  split
  · exact Nat.zero_le _
  · exact cutChunks_length target 0 none _ hbudget

theorem writeSpans_length (hbudget : 0 < budget) (lo : Option Key) (splits : List Key) :
    ((spansFrom lo splits).map (writeSpan gc tables target budget)).flatten.length ≤
    (splits.length + 1) * budget := by
  induction splits generalizing lo with
  | nil => simpa [spansFrom] using writeSpan_length gc target hbudget
  | cons cut rest ih =>
    have hfirst := @writeSpan_length tables _ (lo, some cut) gc target hbudget
    have ih := ih (some cut)
    rw [spansFrom, map_cons, flatten_cons, length_append, length_cons, Nat.succ_mul]
    omega

theorem writeJob_length (spans : Nat) (hbudget : 0 < budget) :
    (writeJob gc tables spans target budget).flatten.length ≤ budget := by
  rw [writeJob]
  split
  · simpa using writeSpan_length gc target hbudget
  have hsplits : (sampleSpanSplits tables (spanParts spans budget)).length + 1 ≤ budget := by
    have : spanParts spans budget ≤ max budget 1 := Nat.min_le_right _ _
    rw [sampleSpanSplits]
    split
    · exact hbudget
    · rw [length_map, length_range']
      omega
  have hone : 1 ≤ budget / ((sampleSpanSplits tables (spanParts spans budget)).length + 1) :=
    (Nat.one_le_div_iff (Nat.succ_pos _)).mpr hsplits
  dsimp only
  rw [max_eq_left hone]
  exact (writeSpans_length gc target hone none _).trans (Nat.mul_div_le ..)

theorem writeJob_nil (spans : Nat) : (writeJob gc [] spans target budget).flatten = [] := by
  rw [writeJob]
  split
  · rfl
  · refine flatten_eq_nil_iff.mpr fun files h => ?_
    obtain ⟨span, -, rfl⟩ := mem_map.mp h
    rfl

theorem writeSpan_apart : (writeSpan gc tables target budget span).Pairwise Below := by
  rw [writeSpan]
  split
  · exact .nil
  · have hsorted :=
      (mergeInternal_pairwise (tables.map fun t => t.iterInternalBetween span.1 span.2)).imp
      InternalLe.key_le
    exact ((cutChunks_cut ..).apart (hsorted.sublist (rewrite_sublist gc _)) (by simp)).1

theorem writeSpan_flatten (gc : CompactGcOptions) (tables : List Input) (target budget : Nat)
    (span : Option Key × Option Key) :
    (writeSpan gc tables target budget span).flatten = spanKept gc tables span := by
  rw [writeSpan]
  split
  · rename_i hempty
    rw [spanKept, List.isEmpty_iff.mp hempty, rewrite]
    split <;> rfl
  · exact (cutChunks_cut ..).flatten

variable {gc target}

theorem mem_spanKept (hv : v ∈ spanKept gc tables span) :
    ∃ t ∈ tables, v ∈ t.iterInternalBetween span.1 span.2 := by
  simpa using mem_of_mem_rewrite hv

/-- A span keeps nothing from above its window. -/
theorem spanKept_lt (hv : v ∈ spanKept gc tables span) : ∀ e ∈ span.2, v.key < e := by
  intro e he
  obtain ⟨t, -, hv⟩ := mem_spanKept hv
  have hin := all_eq_true.mp all_takeWhile v hv
  rw [Option.mem_def.mp he] at hin
  exact of_decide_eq_true hin

/-- A key is in two files of a job exactly if two spans keep it. -/
theorem writeJob_apart_iff {spans : Nat} :
    (writeJob gc tables spans target budget).flatten.Pairwise Durable.Apart ↔
      straysApart gc tables spans budget = true := by
  have hone {files : List Table} (h : files.Pairwise Below) : files.Pairwise Durable.Apart :=
    h.imp fun h v hv w hw heq => List.lt_irrefl _ (heq ▸ h v hv w hw)
  rw [writeJob, straysApart]
  split
  · rename_i hparts
    rw [decide_eq_true hparts, Bool.true_or, flatten_singleton]
    exact iff_of_true (hone (writeSpan_apart gc target)) rfl
  rename_i hparts
  rw [decide_eq_false hparts, Bool.false_or, decide_eq_true_iff]
  have hsplits := sampleSpanSplits_sorted tables (spanParts spans budget)
  dsimp only
  generalize sampleSpanSplits tables (spanParts spans budget) = splits at hsplits ⊢
  generalize max (budget / (splits.length + 1)) 1 = spanBudget
  have hkept (span : Option Key × Option Key) (v : WriteOp) :
      v ∈ spanKept gc tables span ↔ ∃ f ∈ writeSpan gc tables target spanBudget span, v ∈ f := by
    rw [← writeSpan_flatten gc tables target spanBudget span, mem_flatten]
  rw [pairwise_flatten, and_iff_right (by
    intro files h
    obtain ⟨span, -, rfl⟩ := mem_map.mp h
    exact hone (writeSpan_apart gc target)), pairwise_map]
  constructor
  · refine List.Pairwise.imp fun {a b} hab v hv _ w hw => ?_
    obtain ⟨f, hf, hw⟩ := (hkept a w).mp hw
    obtain ⟨g, hg, hv⟩ := (hkept b v).mp hv
    exact hab f hf g hg w hw v hv
  · -- a key that both keep is below the window of the later one
    intro hstray
    refine (hstray.and (spansFrom_ordered hsplits)).imp fun {a b} hab f hf g hg w hw v hv heq => ?_
    obtain ⟨hab, e, he, l, hl, hel⟩ := hab
    have hw := (hkept a w).mpr ⟨f, hf, hw⟩
    have hlow : v.key < l := heq ▸ Std.lt_of_lt_of_le (spanKept_lt hw e he) hel
    refine hab v ((hkept b v).mpr ⟨g, hg, hv⟩) ?_ w hw heq
    rw [Option.mem_def.mp hl]
    exact decide_eq_true hlow

/-- Only a table without an index gives a span entries from below its window. -/
theorem straysApart_of_low (hsorted : ∀ t ∈ tables, t.Sorted) {spans : Nat}
    (hlow : ∀ cut ∈ sampleSpanSplits tables (spanParts spans budget), ∀ t ∈ tables,
      t.isLazy = false → ∀ v ∈ t.eager, cut ≤ v.key) : straysApart gc tables spans budget = true := by
  rw [straysApart, Bool.or_eq_true, decide_eq_true_iff, decide_eq_true_iff]
  refine .inr (pairwise_of_forall_mem_list fun a _ b hb v hv hbelow => ?_)
  obtain ⟨t, ht, hv⟩ := mem_spanKept hv
  have hwithin := iterInternalBetween_within (hsorted t ht)
    (spansFrom_cut (fun cut hcut => hlow cut hcut t ht) hb) hv
  obtain ⟨lo, hlo, hlt⟩ := (Option.any_eq_true _ _).mp hbelow
  exact absurd (of_decide_eq_true hlt) (List.not_lt.mpr (hwithin.1 lo hlo))

/-- **A job's files.** Their numbers are those reserved for it, each once; a key is in one
file; and the keys of a span go up from file to file. This is so however the spans take their
numbers, exactly if a number is reserved where one is needed and no key that a span keeps from
below its window is kept by an earlier one. -/
theorem job_files_apart (gc : CompactGcOptions) (tables : List Input)
    (spans target budget first : Nat) :
    (∀ out, Numbered first (writeJob gc tables spans target budget) out →
      (∀ f ∈ out, first ≤ f.1 ∧ f.1 < first + budget) ∧ (out.map Prod.fst).Nodup ∧
        (out.map Prod.snd).Pairwise Durable.Apart ∧
        ∀ files ∈ writeJob gc tables spans target budget, files.Pairwise Below) ↔
      (tables = [] ∨ 0 < budget) ∧ straysApart gc tables spans budget = true := by
  have hsymm {a b : Table} (h : Durable.Apart a b) : Durable.Apart b a :=
    fun v hv w hw heq => h w hw v hv heq.symm
  constructor
  · intro h
    obtain ⟨out, hout⟩ := Numbered.exists first (writeJob gc tables spans target budget)
    obtain ⟨hrange, -, hapart, -⟩ := h out hout
    obtain ⟨hnums, hfiles⟩ := hout.numbers
    refine ⟨?_, writeJob_apart_iff.mp (hfiles.pairwise hapart hsymm)⟩
    by_contra! hnone
    have hempty : out = [] := by
      by_contra hne
      obtain ⟨f, hf⟩ := exists_mem_of_ne_nil out hne
      have := hrange f hf
      omega
    rw [hempty] at hfiles
    have hfiles := hfiles.symm.eq_nil
    rw [writeJob, if_pos (by rw [spanParts]; omega), flatten_singleton, writeSpan,
      if_neg (by simpa using hnone.1)] at hfiles
    exact cutChunks_ne_nil hfiles
  · rintro ⟨hbudget, hstray⟩ out hout
    obtain ⟨hnums, hfiles⟩ := hout.numbers
    refine ⟨fun f hf => ?_, hnums ▸ nodup_range',
      hfiles.symm.pairwise (writeJob_apart_iff.mpr hstray) hsymm, fun files h => ?_⟩
    · have hmem : f.1 ∈ out.map Prod.fst := mem_map_of_mem hf
      have hlen : (out.map Prod.snd).length ≤ budget := by
        rcases hbudget with rfl | hbudget
        · rw [hfiles.length_eq, writeJob_nil]
          exact Nat.zero_le _
        · exact hfiles.length_eq ▸ writeJob_length gc target spans hbudget
      rw [hnums, mem_range'_1] at hmem
      rw [length_map] at hlen
      omega
    · rw [writeJob] at h
      split at h
      · obtain rfl := mem_singleton.mp h
        exact writeSpan_apart gc target
      · obtain ⟨span, -, rfl⟩ := mem_map.mp h
        exact writeSpan_apart gc target

end Files

/-- The second span is the first to write. -/
theorem job_files_apart_between : ∃ out, Numbered 7 (writeJob ⟨0, false, none, false⟩
      [blocksOf 1 [[20, 30]], blocksOf 2 [[10], [25]]] 2 100 2) out ∧
    ∀ f ∈ out, 7 ≤ f.1 ∧ f.1 < 7 + 2 := by
  have hout : Numbered 7 (writeJob ⟨0, false, none, false⟩
      [blocksOf 1 [[20, 30]], blocksOf 2 [[10], [25]]] 2 100 2) _ :=
    @Numbered.write 7 [[[.put 2 [10] [5]]]] [] [.put 1 [20] [5], .put 2 [25] [5], .put 1 [30] [5]] []
      _ (@Numbered.write 8 [] [[]] _ [] _ (.done rfl))
  have hok := (job_files_apart ⟨0, false, none, false⟩ [blocksOf 1 [[20, 30]], blocksOf 2 [[10], [25]]]
    2 100 2 7).mpr ⟨.inr (by decide), straysApart_of_low between_sorted (by decide +kernel)⟩
  exact ⟨_, hout, (hok _ hout).1⟩

/-- A key of a table without an index, below the cut at 30, is in both files. -/
theorem low_key_twice : writeJob ⟨0, false, none, false⟩
    [⟨[], [.put 1 [10] [5]]⟩, blocksOf 2 [[20], [30]]] 2 100 2 =
    [[[.put 1 [10] [5], .put 2 [20] [5]]], [[.put 1 [10] [5], .put 2 [30] [5]]]] := by
  decide +kernel

end PedraDb.Levels
