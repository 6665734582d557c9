import PedraDb.Durable.Filter
import PedraDb.Ingest.HighWater
import PedraDb.Library.Cursor

/-! Compaction jobs of the top level, and the recency of files.

A read asks the files level by level, within a level the last one first, and takes the
first that has the key. So of two files with a key the one asked first must have the newer
versions (`Recent`). A job takes the oldest files of the top level and some that they
overlap below, and what it writes is put last on its level: asked before every file that
stays there. It takes two files of the lower level at most. Where files are stacked there,
the third keeps versions that are newer than what the job took from the first two and is
now asked after them. -/
namespace PedraDb.Levels
open List
open Durable (Sst Apart maxLsmLevel)
open Ingest (largest)
open Ingest.BulkLatch (smallest)
variable {t u : Table} {v : WriteOp} {f g : File} {files news : List File}

/-! ### Picking -/

structure File extends Sst where
  path : Nat
  bytes : Nat
  deriving DecidableEq

open File

structure Config where
  physicalCfs : List Key
  leveled : Bool
  l1TargetBytes : Nat
  compactTargetFileBytes : Nat
  deriving DecidableEq

def saturate (n : Nat) : Nat := min n (2 ^ 64 - 1)

namespace File
variable (f : File)

def lo : Key := (smallest (f.table.map WriteOp.key)).getD []

/-- A range deletion reaches to its end. -/
def hi : Key :=
  (largest (f.table.flatMap fun v => if v.kind = .rangeDeletion then [v.key, v.value]
    else [v.key])).getD []

def overlaps (hullLo hullHi : Key) : Bool := decide (f.lo ≤ hullHi) && decide (hullLo ≤ f.hi)

end File

def isDisjoint (files : List File) : Bool :=
  let sorted := files.insertionSort fun a b => a.lo ≤ b.lo
  (sorted.zip sorted.tail).all fun (a, b) => decide (a.hi < b.lo)

def totalBytes (files : List File) : Nat := (files.map bytes).sum

def levelTargetBytes (level l1Target : Nat) : Nat :=
  if level = 0 then 0 else saturate (l1Target * saturate (10 ^ min (level - 1) 18))

/-- The files of the lower level that the chosen ones overlap. -/
def pickL0ToL1 (sel l1 : List File) : List File :=
  match smallest (sel.map lo), largest (sel.map hi) with
  | some hullLo, some hullHi => l1.filter fun f => f.overlaps hullLo hullHi
  | _, _ => []

def pickPushdown (src dst : List File) : Option (List File) :=
  match src with
  | [] => none
  | source :: _ =>
    if isDisjoint dst then some (source :: dst.filter fun f => f.overlaps source.lo source.hi)
      else none

/-- At most two files, and the second only below the cap. -/
def absorb (cap : Nat) : Nat → Nat → List File → List File
  | _, _, [] => []
  | n, acc, t :: rest =>
    if 2 ≤ n || (decide (0 < n) && decide (cap < saturate (acc + t.bytes))) then []
    else t :: absorb cap (n + 1) (saturate (acc + t.bytes)) rest

structure Job where
  inputs : List File
  toLevel : Nat
  deriving DecidableEq

section
variable (cfg : Config) (files : List File)

def compactFamilyKey (f : File) : Key := if cfg.physicalCfs = [] then [] else f.family

def levelView (level : Nat) (cf : Key) : List File :=
  files.filter fun f => f.level == level && compactFamilyKey cfg f == cf

/-- The oldest file of a level that is too large, and those that it overlaps on the next. -/
def preparePushdownCompact : Option Job :=
  if !cfg.leveled || files.isEmpty then none
  else
    let families := (files.map (compactFamilyKey cfg)).foldr insertFamily []
    (List.range' 1 (maxLsmLevel - 1)).findSome? fun level => families.findSome? fun cf =>
      let src := levelView cfg files level cf
      if src.isEmpty || decide (totalBytes src ≤ levelTargetBytes level cfg.l1TargetBytes) then none
      else (pickPushdown src (levelView cfg files (level + 1) cf)).map fun inputs => ⟨inputs, level + 1⟩

/-- The family with the most files on the top level; of several the last one. -/
def fullestFamily : Option Key :=
  let top := (files.filter fun f => f.level == 0).map (compactFamilyKey cfg)
  match top.foldr insertFamily [] with
  | [] => none
  | f :: rest => some (rest.foldl (fun best cf => if top.count best ≤ top.count cf then cf else best) f)

/-- The oldest files of the family on the top level. -/
def topInputs (maxInputFiles : Option Nat) (cf : Key) : List File :=
  match maxInputFiles with
  | none | some 0 => levelView cfg files 0 cf
  | some max => (levelView cfg files 0 cf).take max

def absorbed (maxInputFiles : Option Nat) (cf : Key) : List File :=
  if cfg.leveled then
    absorb (saturate (cfg.compactTargetFileBytes * 2)) 0 0 (pickL0ToL1
      (topInputs cfg files maxInputFiles cf) (levelView cfg files 1 cf))
  else []

/-- The job for the top level, or one that makes room below it. -/
def prepareL0Compact (maxInputFiles : Option Nat) : Option Job :=
  (fullestFamily cfg files).bind fun cf =>
    let inputs := topInputs cfg files maxInputFiles cf
    let l1 := levelView cfg files 1 cf
    let job : Job := ⟨inputs ++ absorbed cfg files maxInputFiles cf, 1⟩
    if cfg.leveled && isDisjoint l1 &&
      decide (saturate (cfg.l1TargetBytes * 4) < totalBytes (pickL0ToL1 inputs l1)) then
      some ((preparePushdownCompact cfg files).getD job)
    else some job

end

namespace Job
variable (job : Job)

def took (f : File) : Bool := job.inputs.any fun i => i.path == f.path

/-- The files after the job: what it wrote goes last. Nothing is done if a file that it took
is gone. -/
def applyPrepared (files news : List File) : Option (List File) :=
  if job.inputs.all fun i => files.any fun f => f.path == i.path then
    some (files.filter (fun f => !job.took f) ++ news.map fun t => { t with level := job.toLevel })
  else none

end Job

/-! ### Recency -/

/-- Of every key that both have the first table has the newer versions. -/
def Newer (t u : Table) : Prop := ∀ v ∈ t, ∀ w ∈ u, v.key = w.key → w.sequence < v.sequence

instance (t u : Table) : Decidable (Newer t u) := by
  unfold Newer
  infer_instance

/-- The file asked first has the newer versions. -/
@[mk_iff]
structure Recent (files : List File) : Prop where
  level : files.Pairwise fun f g => f.level = g.level → Newer g.table f.table
  levels : ∀ f ∈ files, ∀ g ∈ files, f.level < g.level → Newer f.table g.table

instance (files : List File) : Decidable (Recent files) := decidable_of_iff _ (recent_iff files).symm

def shares (t u : Table) : Bool := t.any fun v => u.any fun w => v.key == w.key

/-- The files that are chosen stay in turn with the others: of two files of one level with a
key in common, above the older one goes with the newer one, and below the newer one goes with
the older one. -/
def inTurn (files upper lower : List File) : Bool :=
  decide (files.Pairwise fun f g => f.level = g.level → shares f.table g.table = true →
    (g ∈ upper → f ∈ upper) ∧ (f ∈ lower → g ∈ lower))

/-- What is chosen on an inventory stays in turn: the top level's files and those they
overlap, or the file that makes room below with those it overlaps. -/
def settled (cfg : Config) (files : List File) (maxInputFiles : Option Nat) : Bool :=
  (fullestFamily cfg files).all fun cf =>
    let inputs := topInputs cfg files maxInputFiles cf
    let l1 := levelView cfg files 1 cf
    let large := decide (saturate (cfg.l1TargetBytes * 4) < totalBytes (pickL0ToL1 inputs l1))
    match if cfg.leveled && isDisjoint l1 && large then preparePushdownCompact cfg files else none with
    | some room => inTurn files (room.inputs.take 1) (room.inputs.drop 1)
    | none => inTurn files inputs (absorbed cfg files maxInputFiles cf)

/-- What a job writes: the merge of what it took, no key in two files. -/
structure Job.Wrote (job : Job) (news : List File) : Prop where
  merged : (news.map fun t => t.table).flatten = mergeInternal (job.inputs.map fun t => t.table)
  apart : news.Pairwise fun f g => Apart f.table g.table

theorem Apart.newer (h : Apart t u) : Newer t u ∧ Newer u t :=
  ⟨fun v hv w hw hkey => absurd hkey (h v hv w hw), fun w hw v hv hkey => absurd hkey.symm (h v hv w hw)⟩

/-- Tables with no key in common are newer than each other. -/
theorem newer_of_not_shares (h : shares t u ≠ true) : Newer t u ∧ Newer u t := by
  refine Apart.newer fun v hv w hw hkey => h ?_
  exact any_eq_true.mpr ⟨v, hv, any_eq_true.mpr ⟨w, hw, by simp [hkey]⟩⟩

theorem not_shares_of_newer (h : Newer t u) (h' : Newer u t) : shares t u ≠ true := by
  intro hshares
  obtain ⟨v, hv, hshares⟩ := any_eq_true.mp hshares
  obtain ⟨w, hw, hkey⟩ := any_eq_true.mp hshares
  have hkey := beq_iff_eq.mp hkey
  exact Nat.lt_asymm (h v hv w hw hkey) (h' w hw v hv hkey.symm)

/-! ### What a job takes -/

section
variable {cfg : Config} {files : List File} {job : Job} {maxInputFiles : Option Nat} {level : Nat}
    {cf : Key} {f g : File}

theorem mem_levelView : f ∈ levelView cfg files level cf ↔ f ∈ files ∧ f.level = level ∧
    compactFamilyKey cfg f = cf := by
  simp [levelView]

theorem absorb_sublist (cap n acc : Nat) (slice : List File) :
    (absorb cap n acc slice).Sublist slice := by
  induction slice generalizing n acc with
  | nil => exact List.Sublist.refl _
  | cons t slice ih =>
    rw [absorb]
    split
    · exact nil_sublist _
    · exact (ih _ _).cons_cons t

theorem mem_absorbed (hf : f ∈ absorbed cfg files maxInputFiles cf) : f ∈ levelView cfg files 1 cf := by
  rw [absorbed] at hf
  split at hf
  · have hslice := (absorb_sublist ..).subset hf
    rw [pickL0ToL1] at hslice
    split at hslice
    · exact (mem_filter.mp hslice).1
    · cases hslice
  · cases hf

theorem mem_topInputs (hf : f ∈ topInputs cfg files maxInputFiles cf) :
    f ∈ levelView cfg files 0 cf := by
  unfold topInputs at hf
  split at hf
  · exact hf
  · exact hf
  · exact mem_of_mem_take hf

/-- A job takes files of the level it writes to and of the one above. -/
structure Job.Takes (job : Job) (files upper lower : List File) : Prop where
  inputs : job.inputs = upper ++ lower
  upper : ∀ f ∈ upper, f ∈ files ∧ f.level + 1 = job.toLevel
  lower : ∀ f ∈ lower, f ∈ files ∧ f.level = job.toLevel

theorem preparePushdownCompact_takes (h : preparePushdownCompact cfg files = some job) :
    job.Takes files (job.inputs.take 1) (job.inputs.drop 1) := by
  rw [preparePushdownCompact] at h
  split at h
  · cases h
  obtain ⟨level, _, h⟩ := exists_of_findSome?_eq_some h
  obtain ⟨cf, _, h⟩ := exists_of_findSome?_eq_some h
  simp only at h
  split at h
  · cases h
  obtain ⟨inputs, hpick, rfl⟩ := Option.map_eq_some_iff.mp h
  unfold pickPushdown at hpick
  split at hpick
  · cases hpick
  rename_i source rest hsrc
  split at hpick
  swap
  · cases hpick
  cases hpick
  have hsource := mem_levelView.mp (hsrc ▸ mem_cons_self : source ∈ levelView cfg files level cf)
  refine ⟨(take_append_drop 1 _).symm, fun f hf => ?_, fun f hf => ?_⟩
  · obtain rfl := mem_singleton.mp hf
    exact ⟨hsource.1, congrArg (· + 1) hsource.2.1⟩
  · obtain ⟨hmem, hlevel, -⟩ := mem_levelView.mp (mem_filter.mp hf).1
    exact ⟨hmem, hlevel⟩

/-- The job takes what was chosen, and `settled` is about that choice. -/
theorem prepareL0Compact_takes (h : prepareL0Compact cfg files maxInputFiles = some job) :
    ∃ upper lower, job.Takes files upper lower ∧
      settled cfg files maxInputFiles = inTurn files upper lower := by
  obtain ⟨cf, hcf, h⟩ := Option.bind_eq_some_iff.mp h
  have htop : Job.Takes ⟨topInputs cfg files maxInputFiles cf ++ absorbed cfg files maxInputFiles cf, 1⟩
      files (topInputs cfg files maxInputFiles cf) (absorbed cfg files maxInputFiles cf) := by
    refine ⟨rfl, fun f hf => ?_, fun f hf => ?_⟩
    · obtain ⟨hmem, hlevel, -⟩ := mem_levelView.mp (mem_topInputs hf)
      exact ⟨hmem, congrArg (· + 1) hlevel⟩
    · obtain ⟨hmem, hlevel, -⟩ := mem_levelView.mp (mem_absorbed hf)
      exact ⟨hmem, hlevel⟩
  simp only [settled, hcf, Option.all_some]
  simp only at h
  split at h
  · rename_i hroom
    rw [if_pos hroom]
    cases hpush : preparePushdownCompact cfg files with
    | none =>
      rw [hpush] at h
      exact ⟨_, _, Option.some.inj h ▸ htop, rfl⟩
    | some push =>
      rw [hpush] at h
      obtain rfl : push = job := Option.some.inj h
      exact ⟨_, _, preparePushdownCompact_takes hpush, rfl⟩
  · rename_i hroom
    rw [if_neg hroom]
    exact ⟨_, _, Option.some.inj h ▸ htop, rfl⟩

/-! ### Recency after a job -/

/-- What the files that stay have to be to those that are taken: above the job's level newer,
elsewhere older. -/
def Around (job : Job) (files : List File) : Prop :=
  ∀ f ∈ files, f ∉ job.inputs → ∀ g ∈ job.inputs,
    if f.level < job.toLevel then Newer f.table g.table else Newer g.table f.table

section
variable {upper lower : List File} (hjob : job.Takes files upper lower)
include hjob

theorem Job.Takes.mem (hg : g ∈ job.inputs) :
    g ∈ files ∧ (g ∈ upper ∧ g.level + 1 = job.toLevel ∨ g ∈ lower ∧ g.level = job.toLevel) := by
  rw [hjob.inputs] at hg
  rcases mem_append.mp hg with hg | hg
  · exact ⟨(hjob.upper g hg).1, .inl ⟨hg, (hjob.upper g hg).2⟩⟩
  · exact ⟨(hjob.lower g hg).1, .inr ⟨hg, (hjob.lower g hg).2⟩⟩

/-- Files that are taken keep to their level: the upper ones are above, the lower ones are not. -/
theorem Job.Takes.upper_iff (hg : g.level + 1 = job.toLevel) : g ∈ job.inputs ↔ g ∈ upper := by
  refine ⟨fun hin => ?_, fun hin => hjob.inputs ▸ mem_append_left _ hin⟩
  rcases (hjob.mem hin).2 with ⟨hin, -⟩ | ⟨-, hlevel⟩
  · exact hin
  · omega

theorem Job.Takes.lower_iff (hg : g.level = job.toLevel) : g ∈ job.inputs ↔ g ∈ lower := by
  refine ⟨fun hin => ?_, fun hin => hjob.inputs ▸ mem_append_right _ hin⟩
  rcases (hjob.mem hin).2 with ⟨-, hlevel⟩ | ⟨hin, -⟩
  · omega
  · exact hin

/-- Only files of one level can be out of turn. -/
theorem Recent.around_iff (h : Recent files) : Around job files ↔ inTurn files upper lower = true := by
  rw [inTurn, decide_eq_true_iff]
  constructor
  · intro haround
    refine pairwise_iff_forall_sublist.mpr fun {f g} hsub hlevel hshares => ?_
    have hf : f ∈ files := hsub.subset (by simp)
    have hg : g ∈ files := hsub.subset (by simp)
    have hnewer := pairwise_iff_forall_sublist.mp h.level hsub hlevel
    constructor
    · intro hup
      have hgl := (hjob.upper g hup).2
      by_contra hstay
      have hnot : f ∉ job.inputs := fun hin => hstay ((hjob.upper_iff (by omega)).mp hin)
      have hold := haround f hf hnot g ((hjob.upper_iff hgl).mpr hup)
      rw [if_pos (by omega)] at hold
      exact not_shares_of_newer hold hnewer hshares
    · intro hlow
      have hfl := (hjob.lower f hlow).2
      by_contra hstay
      have hnot : g ∉ job.inputs := fun hin => hstay ((hjob.lower_iff (by omega)).mp hin)
      have hold := haround g hg hnot f ((hjob.lower_iff hfl).mpr hlow)
      rw [if_neg (by omega)] at hold
      exact not_shares_of_newer hold hnewer hshares
  · intro hturn f hf hstay g hg
    obtain ⟨hgf, hlevels⟩ := hjob.mem hg
    obtain hlt | heq | hgt := Nat.lt_trichotomy f.level g.level
    · rw [if_pos (by omega)]
      exact h.levels f hf g hgf hlt
    · -- on one level the later file is asked first, and turn is kept if they share a key
      let Rule (f g : File) : Prop := (f.level = g.level → Newer g.table f.table) ∧
        (f.level = g.level → shares f.table g.table = true →
          (g ∈ upper → f ∈ upper) ∧ (f ∈ lower → g ∈ lower))
      have : Std.Symm fun f g => Rule f g ∨ Rule g f := ⟨fun _ _ h => h.symm⟩
      have hrule : files.Pairwise fun f g => Rule f g ∨ Rule g f :=
        (h.level.and hturn).imp .inl
      have hup : f ∉ upper := fun hin => hstay (hjob.inputs ▸ mem_append_left _ hin)
      have hlow : f ∉ lower := fun hin => hstay (hjob.inputs ▸ mem_append_right _ hin)
      rcases hrule.forall hf hgf (fun hfg => hstay (hfg ▸ hg)) with
        ⟨hnewer, hkeeps⟩ | ⟨hnewer, hkeeps⟩
      · split
        · rename_i hlt
          have hgup : g ∈ upper := (hjob.upper_iff (by omega)).mp hg
          exact (newer_of_not_shares fun hsh => hup ((hkeeps heq hsh).1 hgup)).1
        · exact hnewer heq
      · split
        · exact hnewer heq.symm
        · rename_i hge
          have hglow : g ∈ lower := (hjob.lower_iff (by omega)).mp hg
          exact (newer_of_not_shares fun hsh => hlow ((hkeeps heq.symm hsh).2 hglow)).1
    · rw [if_neg (by omega)]
      exact h.levels g hgf f hf hgt

theorem took_iff (hpaths : (files.map path).Nodup) (hf : f ∈ files) :
    job.took f = true ↔ f ∈ job.inputs := by
  constructor
  · intro h
    obtain ⟨i, hi, hpath⟩ := any_eq_true.mp h
    exact inj_on_of_nodup_map hpaths (hjob.mem hi).1 hf (beq_iff_eq.mp hpath) ▸ hi
  · exact fun h => any_eq_true.mpr ⟨f, h, beq_self_eq_true _⟩

end

section
variable (hwrote : job.Wrote news)
include hwrote

theorem Job.Wrote.mem (hf : f ∈ news) (hv : v ∈ f.table) : ∃ g ∈ job.inputs, v ∈ g.table := by
  have hall : v ∈ (news.map fun t => t.table).flatten := mem_flatten.mpr ⟨_, mem_map_of_mem hf, hv⟩
  rw [hwrote.merged] at hall
  obtain ⟨t, ht, hvt⟩ := mem_flatten.mp (mem_of_mem_mergeInternal hall)
  obtain ⟨g, hg, rfl⟩ := mem_map.mp ht
  exact ⟨g, hg, hvt⟩

theorem Job.Wrote.exists_mem (hg : g ∈ job.inputs) (hv : v ∈ g.table) :
    ∃ n ∈ news, ∃ w ∈ n.table, w.key = v.key ∧ w.sequence = v.sequence := by
  have hall : v ∈ (job.inputs.map fun t => t.table).flatten :=
    mem_flatten.mpr ⟨_, mem_map_of_mem hg, hv⟩
  obtain ⟨w, hw, hsame⟩ := exists_mem_mergeInternal hall
  rw [← hwrote.merged] at hw
  obtain ⟨t, ht, hwt⟩ := mem_flatten.mp hw
  obtain ⟨n, hn, rfl⟩ := mem_map.mp ht
  exact ⟨n, hn, w, hwt, hsame⟩

/-- What was written holds the versions of what was taken, so a file relates to both alike. -/
theorem Job.Wrote.newer_iff (t : Table) :
    ((∀ n ∈ news, Newer t n.table) ↔ ∀ g ∈ job.inputs, Newer t g.table) ∧
      ((∀ n ∈ news, Newer n.table t) ↔ ∀ g ∈ job.inputs, Newer g.table t) := by
  refine ⟨⟨fun h g hg v hv w hw hkey => ?_, fun h n hn v hv w hw hkey => ?_⟩,
    ⟨fun h g hg v hv w hw hkey => ?_, fun h n hn v hv w hw hkey => ?_⟩⟩
  · obtain ⟨n, hn, w', hw', hkey', hseq⟩ := hwrote.exists_mem hg hw
    exact hseq ▸ h n hn v hv w' hw' (hkey.trans hkey'.symm)
  · obtain ⟨g, hg, hwg⟩ := hwrote.mem hn hw
    exact h g hg v hv w hwg hkey
  · obtain ⟨n, hn, v', hv', hkey', hseq⟩ := hwrote.exists_mem hg hv
    exact hseq ▸ h n hn v' hv' w hw (hkey'.trans hkey)
  · obtain ⟨g, hg, hvg⟩ := hwrote.mem hn hv
    exact h g hg v hvg w hw hkey

end

theorem Job.wrote_of_chunks (target : Nat)
    (h : (news.map fun t => t.table) = Durable.splitChunks target 0 none
      (mergeInternal (job.inputs.map fun t => t.table))) :
    job.Wrote news := by
  refine ⟨by rw [h, (Durable.splitChunks_cut ..).flatten], ?_⟩
  have hsorted := (mergeInternal_pairwise (job.inputs.map fun t => t.table)).imp InternalLe.key_le
  have hcut := Durable.splitChunks_apart target hsorted
  rw [← h] at hcut
  exact pairwise_map.mp hcut

end

/-- A file with versions of one key. -/
def keyFile (level path : Nat) (seqs : List Nat) : File :=
  ⟨⟨[], level, seqs.map fun seq => .put seq [107] [5]⟩, path, 1⟩

def leveledConfig : Config := ⟨[], true, 100, 100⟩

end PedraDb.Levels
