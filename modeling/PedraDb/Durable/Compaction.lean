import PedraDb.Durable.Coverage
import PedraDb.Merge

/-! Files by level, and compactions.

A lookup asks the files level by level and within a level the last one first. It may stop
at the first file with a point because, of any two files, the one asked first has nothing
older of the keys it has points of (`FileOrder`). A flush appends files that are newer than
all others. A compaction rewrites the files of one family in a range of levels and puts the
output last in the lowest of them; other families' files do not matter to it as long as a
range deletion covers no older point of another family.

A rewrite may let go of a deletion with nothing below it. What is flushed then shows in the
files only as far as values go (`Reflects`). -/
namespace PedraDb.Durable
open List
open Layers (Sees Stops Newest Heads Distinct Formed covers_point)
variable {f : Sst} {v : WriteOp}

/-! ### Compactions -/

/-- Files are compacted family by family once families are registered. -/
def compactFamilyKey (cfg : Config) (f : Sst) : Key := if cfg.physicalCfs = [] then [] else f.family

/-- A rewrite of a family's files in the levels `fromLevel` to `toLevel`; versions that no
snapshot from `oldest` on sees are discarded. -/
structure Job where
  fromLevel : Nat
  toLevel : Nat
  family : Key
  oldest : Option Nat
  deriving DecidableEq

open Job

namespace Job
variable (cfg : Config) (job : Job) (inv : Inventory)

def takes (f : Sst) : Bool :=
  decide (job.fromLevel ≤ f.level) && decide (f.level ≤ job.toLevel) &&
    compactFamilyKey cfg f == job.family

/-- The files the job merges. -/
def inputs : List Sst := inv.ssts.filter (job.takes cfg)

def kept : List Sst := inv.ssts.filter fun f => !job.takes cfg f

def wholeDb : Bool := (job.inputs cfg inv).length == inv.ssts.length

/-- The job takes every file of its family. -/
def wholeFamily : Bool := (job.inputs cfg inv).length == (inv.ssts.filter fun f =>
    compactFamilyKey cfg f == job.family).length

def gc : CompactGcOptions :=
  ⟨0, false, job.oldest, job.wholeDb cfg inv || (job.wholeFamily cfg inv && job.toLevel == maxLsmLevel)⟩

/-- The merged entries. -/
def output : Table := rewrite (job.gc cfg inv) ((job.inputs cfg inv).map Sst.table)

def written : List Sst :=
  if (job.output cfg inv).isEmpty then []
  else [⟨if job.family = [] then cfg.label (job.output cfg inv) else job.family, job.toLevel,
    job.output cfg inv⟩]

/-- The files after the rewrite. One file at the target is left alone unless versions are
to be discarded. -/
def rewriteSsts : Option Inventory :=
  if (job.inputs cfg inv).isEmpty || decide (job.toLevel < job.fromLevel) ||
    decide (maxLsmLevel < job.toLevel) ||
      ((job.inputs cfg inv).length == 1 && (job.inputs cfg inv).all (fun f => f.level == job.toLevel) &&
        !(job.gc cfg inv).requestsGc) then none
  else
    some
      { inv with
        ssts := job.kept cfg inv ++ job.written cfg inv
        earliestReadableSeq := max inv.earliestReadableSeq (job.oldest.getD 0) }

end Job

/-- A compaction writes the MANIFEST under the lock, or takes it to be written later. The
oldest snapshot is one that was handed out. -/
def State.compactLevels (cfg : Config) (s : State) (job : Job) (later : Bool) : Option State :=
  if job.oldest.any fun oldest => decide (s.lastSequence < oldest) then none
  else
    match job.rewriteSsts cfg s.inventory with
    | none => none
    | some inv =>
      let s := { s with inventory := inv, manifestDirty := true }
      some (if later then s.takeManifestPersist else s.persistManifest)

/-! ### The order of files -/

def topLevel (ssts : List Sst) : Nat := (ssts.map Sst.level).foldr max 0

/-- The files as a lookup asks them: level by level, within a level the last one first. -/
def sstRuns (ssts : List Sst) : List (List Table) :=
  (List.range (topLevel ssts + 1)).map fun l =>
    ((ssts.filter fun f => f.level == l).map Sst.table).reverse

/-- Upper levels head lower ones, and in a level later files head earlier ones. -/
structure FileOrder (key : Key) (snap : Nat) (ssts : List Sst) : Prop where
  level : ssts.Pairwise fun f g => f.level = g.level → Heads key snap g.table f.table
  below : ∀ f ∈ ssts, ∀ g ∈ ssts, f.level < g.level → Heads key snap f.table g.table

section Order
variable {key : Key} {snap : Nat} {ssts news : List Sst}

theorem mem_sstRuns : v ∈ (sstRuns ssts).flatten.flatten ↔ ∃ f ∈ ssts, v ∈ f.table := by
  simp only [sstRuns, mem_flatten, mem_map, mem_range]
  constructor
  · rintro ⟨t, ⟨_, ⟨l, _, rfl⟩, ht⟩, hv⟩
    obtain ⟨f, hf, rfl⟩ := mem_map.mp (mem_reverse.mp ht)
    exact ⟨f, (mem_filter.mp hf).1, hv⟩
  · rintro ⟨f, hf, hv⟩
    have hlevel : f.level ≤ topLevel ssts := foldr_max_le.mp le_rfl _ (mem_map_of_mem hf)
    refine ⟨f.table, ⟨_, ⟨f.level, Nat.lt_succ_of_le hlevel, rfl⟩, ?_⟩, hv⟩
    exact mem_reverse.mpr (mem_map_of_mem (mem_filter.mpr ⟨hf, by simp⟩))

theorem FileOrder.pairwise (h : FileOrder key snap ssts) :
    (sstRuns ssts).flatten.Pairwise (Heads key snap) := by
  refine pairwise_flatten.mpr ⟨fun run hrun => ?_, ?_⟩
  · obtain ⟨l, _, rfl⟩ := mem_map.mp hrun
    refine pairwise_reverse.mpr (pairwise_map.mpr ?_)
    refine (h.level.sublist filter_sublist).imp_of_mem fun hf hg hfg => hfg ?_
    have hf := (mem_filter.mp hf).2
    have hg := (mem_filter.mp hg).2
    rw [beq_iff_eq] at hf hg
    exact hf.trans hg.symm
  · refine pairwise_map.mpr (pairwise_lt_range.imp fun hlt t ht u hu => ?_)
    obtain ⟨f, hf, rfl⟩ := mem_map.mp (mem_reverse.mp ht)
    obtain ⟨g, hg, rfl⟩ := mem_map.mp (mem_reverse.mp hu)
    obtain ⟨hf, hfl⟩ := mem_filter.mp hf
    obtain ⟨hg, hgl⟩ := mem_filter.mp hg
    refine h.below f hf g hg ?_
    rw [beq_iff_eq] at hfl hgl
    omega

theorem FileOrder.nil : FileOrder key snap [] := ⟨.nil, by simp⟩

theorem FileOrder.filter (h : FileOrder key snap ssts) (p : Sst → Bool) :
    FileOrder key snap (ssts.filter p) :=
  ⟨h.level.sublist filter_sublist, fun f hf g hg => h.below f (mem_filter.mp hf).1 g (mem_filter.mp hg).1⟩

theorem FileOrder.append (h : FileOrder key snap ssts) (hnews : FileOrder key snap news)
    (hover : ∀ f ∈ ssts, ∀ g ∈ news, g.level ≤ f.level → Heads key snap g.table f.table)
    (hunder : ∀ f ∈ ssts, ∀ g ∈ news, f.level < g.level → Heads key snap f.table g.table) :
    FileOrder key snap (ssts ++ news) := by
  refine ⟨pairwise_append.mpr ⟨h.level, hnews.level, fun f hf g hg heq =>
    hover f hf g hg (le_of_eq heq.symm)⟩,
    fun f hf g hg hlt => ?_⟩
  rcases mem_append.mp hf with hf | hf
  · rcases mem_append.mp hg with hg | hg
    · exact h.below f hf g hg hlt
    · exact hunder f hf g hg hlt
  · rcases mem_append.mp hg with hg | hg
    · exact hover g hg f hf (le_of_lt hlt)
    · exact hnews.below f hf g hg hlt

end Order

/-- The newest of the operations that were flushed is in the files, or it is not a value
and the files have no value of the key. -/
def Reflects (key : Key) (snap : Nat) (inv : Inventory) : Prop :=
  ∀ c, Newest key snap inv.flushed c → c ∈ inv.entries ∨ c.kind ≠ .value ∧
    ∀ w ∈ inv.entries, Sees key snap w → w.kind ≠ .value

/-- A range deletion of the history covers older points of its own family only. -/
def OwnFamily (lossy : Lossy) (history : List WriteOp) : Prop :=
  ∀ r ∈ history, r.kind = .rangeDeletion → ∀ p ∈ history, p.kind ≠ .rangeDeletion →
    p.sequence < r.sequence → r.covers p.key = true → cfFamilyOf lossy p.key = cfFamilyOf lossy r.key

section Files
variable {key : Key} {snap : Nat} {history t u : List WriteOp} {lossy : Lossy}

/-- Files of different families do not compete for a key. -/
theorem heads_of_family (hown : OwnFamily lossy history) (ht : ∀ v ∈ t, v ∈ history)
    (hu : ∀ w ∈ u, w ∈ history)
    (hfamily : ∀ v ∈ t, ∀ w ∈ u, cfFamilyOf lossy v.key ≠ cfFamilyOf lossy w.key) :
    Heads key snap t u := by
  rintro ⟨p, hp, hsees, hkind⟩ w hw hwsees
  refine ⟨p, hp, hsees, Nat.le_of_not_lt fun hlt => ?_⟩
  have hkey : p.key = key := (covers_point hkind).mp hsees.1
  by_cases hwkind : w.kind = .rangeDeletion
  · exact hfamily p hp w hw (hown w (hu w hw) hwkind p (ht p hp) hkind hlt (hkey ▸ hwsees.1))
  · exact hfamily p hp w hw (by rw [hkey, (covers_point hwkind).mp hwsees.1])

end Files

/-! ### A compaction -/

section Rewrite
variable {cfg : Config} {job : Job} {inv inv' : Inventory} {history : List WriteOp}

theorem mem_inputs : f ∈ job.inputs cfg inv ↔ f ∈ inv.ssts ∧ job.takes cfg f = true := mem_filter

theorem mem_kept : f ∈ job.kept cfg inv ↔ f ∈ inv.ssts ∧ job.takes cfg f = false := by
  simp [kept]

theorem mem_written (hf : f ∈ job.written cfg inv) :
    f.level = job.toLevel ∧ f.table = job.output cfg inv := by
  rw [written] at hf
  split at hf
  · cases hf
  · obtain rfl := mem_singleton.mp hf
    exact ⟨rfl, rfl⟩

theorem mem_output (hv : v ∈ job.output cfg inv) : ∃ f ∈ job.inputs cfg inv, v ∈ f.table := by
  obtain ⟨t, ht, hv⟩ := mem_flatten.mp (mem_of_mem_rewrite hv)
  obtain ⟨f, hf, rfl⟩ := mem_map.mp ht
  exact ⟨f, hf, hv⟩

theorem written_of_mem (hv : v ∈ job.output cfg inv) : ∃ f ∈ job.written cfg inv, v ∈ f.table := by
  rw [written, if_neg (by cases h : job.output cfg inv <;> simp_all)]
  exact ⟨_, mem_singleton_self _, hv⟩

theorem rewriteSsts_eq (h : job.rewriteSsts cfg inv = some inv') : inv' = { inv with
      ssts := job.kept cfg inv ++ job.written cfg inv
      earliestReadableSeq := max inv.earliestReadableSeq (job.oldest.getD 0) } ∧
        job.fromLevel ≤ job.toLevel := by
  rw [rewriteSsts] at h
  split at h
  · cases h
  · rename_i hguard
    cases h
    refine ⟨rfl, ?_⟩
    simp only [Bool.or_eq_true, decide_eq_true_eq, not_or] at hguard
    omega

/-- A compaction makes no entry. -/
theorem entries_rewriteSsts (h : job.rewriteSsts cfg inv = some inv') (hv : v ∈ inv'.entries) :
    v ∈ inv.entries := by
  rw [(rewriteSsts_eq h).1] at hv
  obtain ⟨f, hf, hv⟩ := mem_entries.mp hv
  rcases mem_append.mp hf with hf | hf
  · exact mem_entries.mpr ⟨f, (mem_kept.mp hf).1, hv⟩
  · obtain ⟨g, hg, hv⟩ := mem_output ((mem_written hf).2 ▸ hv)
    exact mem_entries.mpr ⟨g, (mem_inputs.mp hg).1, hv⟩

/-- Once families are registered, the entries of a file are of the file's family. -/
def Tagged (cfg : Config) (ssts : List Sst) : Prop :=
  cfg.physicalCfs ≠ [] → ∀ f ∈ ssts, ∀ v ∈ f.table, cfFamilyOf cfg.lossy v.key = f.family

/-- Files of different tags hold no family in common. -/
theorem Tagged.apart (htag : Tagged cfg inv.ssts) {g : Sst} (hf : f ∈ inv.ssts) (hg : g ∈ inv.ssts)
    (hne : compactFamilyKey cfg f ≠ compactFamilyKey cfg g) :
    ∀ v ∈ f.table, ∀ w ∈ g.table, cfFamilyOf cfg.lossy v.key ≠ cfFamilyOf cfg.lossy w.key := by
  intro v hv w hw heq
  by_cases hcfs : cfg.physicalCfs = []
  · simp [compactFamilyKey, hcfs] at hne
  · rw [htag hcfs f hf v hv, htag hcfs g hg w hw] at heq
    simp [compactFamilyKey, hcfs, heq] at hne

theorem kept_cases (hf : f ∈ job.kept cfg inv) :
    compactFamilyKey cfg f ≠ job.family ∨ f.level < job.fromLevel ∨ job.toLevel < f.level := by
  have htakes := (mem_kept.mp hf).2
  by_contra hnot
  simp only [not_or, not_lt, not_not] at hnot
  simp [takes, hnot] at htakes

theorem inputs_spec (hf : f ∈ job.inputs cfg inv) :
    job.fromLevel ≤ f.level ∧ f.level ≤ job.toLevel ∧ compactFamilyKey cfg f = job.family := by
  have htakes := (mem_inputs.mp hf).2
  simpa [takes, and_assoc] using htakes

/-- A job that drops tombstones leaves no older file of its family. -/
theorem bottommost_family (hbottom : (job.gc cfg inv).bottommost = true) (hf : f ∈ job.kept cfg inv) :
    compactFamilyKey cfg f ≠ job.family := by
  obtain ⟨hmem, htakes⟩ := mem_kept.mp hf
  intro hfam
  -- inputs that are as many as the files of the family are all of them
  have hall : (job.inputs cfg inv).length = (inv.ssts.filter fun f =>
    compactFamilyKey cfg f == job.family).length →
      f ∈ job.inputs cfg inv := by
    intro hlen
    have hsub : (job.inputs cfg inv).Sublist (inv.ssts.filter fun f =>
        compactFamilyKey cfg f == job.family) := by
      have heq : job.inputs cfg inv =
          (inv.ssts.filter fun f => compactFamilyKey cfg f == job.family).filter (job.takes cfg) := by
        rw [filter_filter, inputs]
        refine filter_congr fun g _ => ?_
        cases hg : job.takes cfg g
        · rfl
        · simp only [takes, Bool.and_eq_true] at hg
          simp [hg.2]
      rw [heq]
      exact filter_sublist
    rw [hsub.eq_of_length hlen]
    exact mem_filter.mpr ⟨hmem, by simp [hfam]⟩
  simp only [gc, Bool.or_eq_true, Bool.and_eq_true, wholeDb, wholeFamily, beq_iff_eq] at hbottom
  rcases hbottom with hdb | ⟨hwhole, _⟩
  · have hin : f ∈ job.inputs cfg inv := by
      have hsub : (job.inputs cfg inv).Sublist inv.ssts := filter_sublist
      rw [hsub.eq_of_length hdb]
      exact hmem
    simp [mem_inputs, htakes] at hin
  · have hin := hall hwhole
    simp [mem_inputs, htakes] at hin

theorem Tagged.rewriteSsts (h : Tagged cfg inv.ssts) (hjob : job.rewriteSsts cfg inv = some inv') :
    Tagged cfg inv'.ssts := by
  obtain ⟨rfl, _⟩ := rewriteSsts_eq hjob
  intro hcfs f hf v hv
  rcases mem_append.mp hf with hf | hf
  · exact h hcfs f (mem_kept.mp hf).1 v hv
  obtain ⟨g, hg, hvg⟩ := mem_output ((mem_written hf).2 ▸ hv)
  have hfamily : cfFamilyOf cfg.lossy v.key = job.family := by
    rw [h hcfs g (mem_inputs.mp hg).1 v hvg, ← (inputs_spec hg).2.2, compactFamilyKey, if_neg hcfs]
  have hne : job.family ≠ [] := hfamily ▸ cfFamilyOf_ne v.key
  rw [written, if_neg hne] at hf
  split at hf
  · cases hf
  · obtain rfl := mem_singleton.mp hf
    exact hfamily

section Seen
variable {key : Key} {snap : Nat} (hown : OwnFamily cfg.lossy history) (hdistinct : Distinct history)
  (hsub : ∀ v ∈ inv.entries, v ∈ history) (htag : Tagged cfg inv.ssts)
    (holdest : ∀ o, job.oldest = some o → o ≤ snap)
include hdistinct hsub holdest

/-- The newest version is in the output, or is a tombstone with nothing under it. -/
theorem output_newest {c : WriteOp}
    (hc : Newest key snap ((job.inputs cfg inv).map Sst.table).flatten c) :
    c ∈ job.output cfg inv ∨ (job.gc cfg inv).bottommost = true ∧ c.kind = .deletion ∧
      ∀ w ∈ job.output cfg inv, Sees key snap w → w.kind = .rangeDeletion := by
  refine rewrite_newest rfl rfl holdest (fun v hv w hw => ?_) hc
  have hin : ∀ v ∈ ((job.inputs cfg inv).map Sst.table).flatten, v ∈ history := by
    intro v hv
    obtain ⟨t, ht, hv⟩ := mem_flatten.mp hv
    obtain ⟨f, hf, rfl⟩ := mem_map.mp ht
    exact hsub v (mem_entries.mpr ⟨f, (mem_inputs.mp hf).1, hv⟩)
  exact hdistinct v (hin v hv) w (hin w hw)

theorem heads_output {u : Table} (hheads : ∀ f ∈ job.inputs cfg inv, Heads key snap f.table u) :
    Heads key snap (job.output cfg inv) u := by
  rintro ⟨v, hv, hstop⟩ w hw hsees
  obtain ⟨f, hf, hvf⟩ := mem_output hv
  obtain ⟨x, hx, hxsees, hle⟩ := hheads f hf ⟨v, hvf, hstop⟩ w hw hsees
  have hxin : x ∈ ((job.inputs cfg inv).map Sst.table).flatten :=
    mem_flatten.mpr ⟨f.table, mem_map_of_mem hf, hx⟩
  rcases Layered.newest_or_none (Sees key snap) WriteOp.sequence
    ((job.inputs cfg inv).map Sst.table).flatten with
    ⟨c, hc⟩ | hnone
  · rcases output_newest hdistinct hsub holdest hc with hout | ⟨_, _, hnone⟩
    · exact ⟨c, hout, hc.seen, le_trans hle (hc.top x hxin hxsees)⟩
    · exact absurd (hnone v hv hstop.1) hstop.2
  · exact absurd hxsees (hnone x hxin)

include hown htag

/-- **A compaction keeps the order of the files.** -/
theorem FileOrder.rewriteSsts (h : FileOrder key snap inv.ssts)
    (hjob : job.rewriteSsts cfg inv = some inv') :
    FileOrder key snap inv'.ssts := by
  obtain ⟨rfl, hlevels⟩ := rewriteSsts_eq hjob
  have hin : ∀ f ∈ inv.ssts, ∀ v ∈ f.table, v ∈ history :=
    fun f hf v hv => hsub v (mem_entries.mpr ⟨f, hf, hv⟩)
  -- files of two families, one of them an input
  have hfamily : ∀ f ∈ job.kept cfg inv, compactFamilyKey cfg f ≠ job.family → ∀ g ∈ job.inputs cfg inv,
      Heads key snap f.table g.table ∧ Heads key snap g.table f.table := by
    intro f hf hne g hg
    have hf := (mem_kept.mp hf).1
    have hgfam := (inputs_spec hg).2.2
    have hg := (mem_inputs.mp hg).1
    exact ⟨heads_of_family hown (hin f hf) (hin g hg) (htag.apart hf hg (hgfam ▸ hne)),
      heads_of_family hown (hin g hg) (hin f hf) (htag.apart hg hf (hgfam ▸ hne.symm))⟩
  refine (h.filter _).append ?_ (fun f hf g hg hle => ?_) (fun f hf g hg hlt => ?_)
  · rw [written]
    split
    · exact .nil
    · exact ⟨pairwise_singleton _ _, by simp⟩
  · obtain ⟨hlevel, htable⟩ := mem_written hg
    rw [htable]
    refine heads_output hdistinct hsub holdest fun i hi => ?_
    rcases kept_cases hf with hne | hlt | hlt
    · exact (hfamily f hf hne i hi).2
    · omega
    · exact h.below i (mem_inputs.mp hi).1 f (mem_kept.mp hf).1 (lt_of_le_of_lt (inputs_spec hi).2.1 hlt)
  · obtain ⟨hlevel, htable⟩ := mem_written hg
    rw [htable]
    intro hstop w hw hsees
    obtain ⟨i, hi, hwi⟩ := mem_output hw
    rcases kept_cases hf with hne | hbelow | habove
    · exact (hfamily f hf hne i hi).1 hstop w hwi hsees
    · exact h.below f (mem_kept.mp hf).1 i (mem_inputs.mp hi).1
        (lt_of_lt_of_le hbelow (inputs_spec hi).1) hstop w hwi hsees
    · omega

omit hown in
/-- **A compaction keeps what the files show.** -/
theorem Reflects.rewriteSsts (h : Reflects key snap inv) (hfiled : ∀ v ∈ inv.entries, v ∈ inv.flushed)
    (hjob : job.rewriteSsts cfg inv = some inv') : Reflects key snap inv' := by
  have hent := fun v => entries_rewriteSsts hjob (v := v)
  obtain ⟨rfl, _⟩ := rewriteSsts_eq hjob
  intro c hc
  have hc : Newest key snap inv.flushed c := hc
  rcases h c hc with hmem | ⟨hkind, hnone⟩
  swap
  · exact .inr ⟨hkind, fun w hw => hnone w (hent w hw)⟩
  obtain ⟨f, hf, hcf⟩ := mem_entries.mp hmem
  by_cases htakes : job.takes cfg f = true
  swap
  · have hkept : f ∈ job.kept cfg inv := mem_kept.mpr ⟨hf, by simpa using htakes⟩
    exact .inl (mem_entries.mpr ⟨f, mem_append_left _ hkept, hcf⟩)
  have hfin : f ∈ job.inputs cfg inv := mem_inputs.mpr ⟨hf, htakes⟩
  have hnewest : Newest key snap ((job.inputs cfg inv).map Sst.table).flatten c := by
    refine ⟨mem_flatten.mpr ⟨_, mem_map_of_mem hfin, hcf⟩, hc.seen, fun w hw => hc.top w ?_⟩
    obtain ⟨t, ht, hw⟩ := mem_flatten.mp hw
    obtain ⟨g, hg, rfl⟩ := mem_map.mp ht
    exact hfiled w (mem_entries.mpr ⟨g, (mem_inputs.mp hg).1, hw⟩)
  rcases output_newest hdistinct hsub holdest hnewest with hout | ⟨hbottom, hkind, hnone⟩
  · obtain ⟨g, hg, hcg⟩ := written_of_mem hout
    exact .inl (mem_entries.mpr ⟨g, mem_append_right _ hg, hcg⟩)
  -- a deletion that was let go: the files that stay are of other families
  refine .inr ⟨by simp [hkind], fun w hw hsees hvalue => ?_⟩
  obtain ⟨g, hg, hwg⟩ := mem_entries.mp hw
  rcases mem_append.mp hg with hg | hg
  · have hne : compactFamilyKey cfg g ≠ compactFamilyKey cfg f :=
      (inputs_spec hfin).2.2 ▸ bottommost_family hbottom hg
    refine htag.apart (mem_kept.mp hg).1 hf hne w hwg c hcf ?_
    rw [(covers_point (by simp [hvalue])).mp hsees.1, (covers_point (by simp [hkind])).mp hc.seen.1]
  · have hrange := hnone w ((mem_written hg).2 ▸ hwg) hsees
    rw [hvalue] at hrange
    cases hrange

end Seen

end Rewrite

end PedraDb.Durable
