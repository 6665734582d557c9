import PedraDb.Layers.Read
import Mathlib.Data.List.SplitBy

/-! Rewriting files: the merge and what it discards.

A compaction merges the entries of its input files in internal order, keys ascending and
the newest version of a key first. On request it discards versions as it goes, one user
key's run at a time: `closeRun`. With an oldest snapshot it keeps, of each key, every
version that some snapshot from there on can still see. A rewrite of all that is below
(`bottommost`) may also let go of a deletion with nothing left to hide.

Every snapshot from the oldest one on then sees as new an operation in the output as it
did in the inputs (`rewrite_seen`), unless the rewrite is a bottommost one. -/
namespace PedraDb
open List
variable {tombs : Table} {t : Table}
variable {v c : WriteOp} {inputs : List Table} {runs : List Table} {gc : CompactGcOptions}
    {run : Table} {points : Table}

/-- What becomes of a version. -/
inductive VersionFate where
  | keep
  | drop
  deriving DecidableEq

/-- A version below the oldest snapshot goes if a newer one is kept that this snapshot
sees. -/
def pointVersionFate (thisSeq : Nat) (newerKept : Option Nat) (oldest : Nat) : VersionFate :=
  if oldest ≤ thisSeq then .keep
  else match newerKept with
    | none => .keep
    | some newer => if newer ≤ oldest then .drop else .keep

def loneTombstoneFate (bottommost lone : Bool) : VersionFate :=
  if bottommost && lone then .drop else .keep

structure CompactGcOptions where
  minSequence : Nat
  keepOnlyLatest : Bool
  oldestSnapshot : Option Nat
  bottommost : Bool
  deriving DecidableEq

def CompactGcOptions.requestsGc (gc : CompactGcOptions) : Bool :=
  decide (0 < gc.minSequence) || gc.keepOnlyLatest || gc.oldestSnapshot.isSome

def sameInternalKey (a b : WriteOp) : Bool :=
  a.key == b.key && a.sequence == b.sequence && a.kind == b.kind

/-- Entries with the internal key of the one before are skipped. -/
def skipRepeated : Option WriteOp → Table → Table
  | _, [] => []
  | last, v :: rest =>
    if last.any (sameInternalKey v) then skipRepeated last rest else v :: skipRepeated (some v) rest

/-- All versions in internal order, each once. -/
def mergeInternal (inputs : List Table) : Table := skipRepeated none (sortInternal inputs.flatten)

/-! ### What is discarded -/

/-- The versions of a key that are kept, from the newest on. -/
def retain (oldest : Nat) : Option Nat → Table → Table
  | _, [] => []
  | newerKept, v :: rest =>
    match pointVersionFate v.sequence newerKept oldest with
    | .drop => retain oldest newerKept rest
    | .keep => v :: retain oldest (some v.sequence) rest

/-- The point versions of a table, and its range deletions. -/
abbrev pointsOf (t : Table) : Table := t.filter fun v => v.kind != .rangeDeletion

abbrev deletionsOf (t : Table) : Table := t.filter fun v => v.kind == .rangeDeletion

def loneDeletion : Table → Bool
  | [v] => v.kind == .deletion
  | _ => false

/-- The points of a run that are kept. `tombs` are the range tombstones met so far. -/
def keptPoints (gc : CompactGcOptions) (tombs points : Table) : Table :=
  match gc.oldestSnapshot with
  | some oldest =>
    let kept := retain oldest none points
    match loneTombstoneFate gc.bottommost (loneDeletion kept) with
    | .drop => []
    | .keep => kept
  | none =>
    if gc.keepOnlyLatest then
      points.head?.toList.filter fun v =>
        if v.kind = .value then !rangeDeleted v.key v.sequence tombs else !gc.bottommost
    else points

/-- What is kept of the versions of one key. -/
def closeRun (gc : CompactGcOptions) (tombs run : Table) : Table :=
  let dropTombs := gc.oldestSnapshot.isNone && gc.keepOnlyLatest && gc.bottommost
  let kept := keptPoints gc tombs (run.filter fun v => v.kind != .rangeDeletion)
  run.filter fun v => if v.kind = .rangeDeletion then !dropTombs else kept.contains v

/-- Close the runs one after the other; their range tombstones are collected first. -/
def closeRuns (gc : CompactGcOptions) : Table → List Table → Table
  | _, [] => []
  | tombs, run :: rest =>
    let tombs := tombs ++ run.filter fun v => v.kind == .rangeDeletion
    closeRun gc tombs run ++ closeRuns gc tombs rest

def userKeyRuns (t : Table) : List Table := t.splitBy fun a b => a.key == b.key

def gcMerge (gc : CompactGcOptions) (inputs : List Table) : Table :=
  closeRuns gc [] (userKeyRuns ((mergeInternal inputs).filter fun v =>
    decide (gc.minSequence ≤ v.sequence)))

/-- What a compaction writes. -/
def rewrite (gc : CompactGcOptions) (inputs : List Table) : Table :=
  if gc.requestsGc then gcMerge gc inputs else mergeInternal inputs

/-! ### Internal order -/

/-- The order of internal keys, kinds apart. -/
def InternalLe (a b : WriteOp) : Prop := a.key < b.key ∨ a.key = b.key ∧ b.sequence ≤ a.sequence

theorem InternalLe.key_le {a b : WriteOp} (h : InternalLe a b) : a.key ≤ b.key := by
  rcases h with hlt | ⟨heq, _⟩
  · exact List.le_of_lt hlt
  · rw [heq]
    exact List.le_refl _

theorem InternalLe.trans {a b : WriteOp} (h : InternalLe a b) (h' : InternalLe b c) : InternalLe a c := by
  rcases h with h | ⟨hk, hs⟩
  · rcases h' with h' | ⟨hk', _⟩
    · exact .inl (List.lt_trans h h')
    · exact .inl (hk' ▸ h)
  · rcases h' with h' | ⟨hk', hs'⟩
    · exact .inl (hk ▸ h')
    · exact .inr ⟨hk.trans hk', le_trans hs' hs⟩

theorem insertInternal_ordered {R : WriteOp → WriteOp → Prop} (htrans : ∀ {a b c}, R a b → R b c → R a c)
    (h : t.Pairwise R) (hcase : ∀ w ∈ t, if w.key < v.key || (w.key == v.key && versionNewer w v)
      then R w v else R v w) :
    (insertInternal v t).Pairwise R := by
  induction t with
  | nil => exact pairwise_singleton _ _
  | cons w t ih =>
    obtain ⟨hw, ht⟩ := pairwise_cons.mp h
    have hvw := hcase w mem_cons_self
    rw [insertInternal]
    split
    · rw [if_pos (by assumption)] at hvw
      refine pairwise_cons.mpr ⟨fun u hu => ?_, ih ht fun u hu => hcase u (mem_cons_of_mem _ hu)⟩
      rcases mem_insertInternal.mp hu with rfl | hu
      · exact hvw
      · exact hw u hu
    · rw [if_neg (by assumption)] at hvw
      refine pairwise_cons.mpr ⟨fun u hu => ?_, h⟩
      rcases mem_cons.mp hu with rfl | hu
      · exact hvw
      · exact htrans hvw (hw u hu)

theorem insertInternal_pairwise (h : t.Pairwise InternalLe) :
    (insertInternal v t).Pairwise InternalLe := by
  refine insertInternal_ordered .trans h fun w _ => ?_
  simp only [versionNewer, Bool.or_eq_true, Bool.and_eq_true, decide_eq_true_eq, beq_iff_eq]
  split
  · rename_i hbefore
    rcases hbefore with hlt | ⟨hk, hs⟩
    · exact .inl hlt
    · exact .inr ⟨hk, by omega⟩
  · rename_i hnot
    obtain ⟨hlt, hver⟩ := not_or.mp hnot
    rcases List.le_iff_lt_or_eq.mp (List.not_lt.mp hlt) with hk | hk
    · exact .inl hk
    · have hnewer : ¬ _ := fun h => hver ⟨hk.symm, h⟩
      exact .inr ⟨hk, by omega⟩

theorem sortInternal_pairwise (t : Table) : (sortInternal t).Pairwise InternalLe := by
  induction t with
  | nil => exact .nil
  | cons v t ih => exact insertInternal_pairwise ih

theorem skipRepeated_sublist (last : Option WriteOp) (t : Table) : (skipRepeated last t).Sublist t := by
  induction t generalizing last with
  | nil => exact .slnil
  | cons v t ih =>
    rw [skipRepeated]
    split
    · exact (ih last).cons v
    · exact (ih (some v)).cons_cons v

/-- Where sequences are not shared nothing is repeated. -/
theorem mem_skipRepeated {last : Option WriteOp}
    (hdistinct : ∀ v ∈ last.toList ++ t, ∀ w ∈ last.toList ++ t, v.sequence = w.sequence → v = w)
    (hv : v ∈ t) : v ∈ skipRepeated last t ∨ last = some v := by
  induction t generalizing last with
  | nil => cases hv
  | cons u t ih =>
    rw [skipRepeated]
    by_cases hrep : last.any (sameInternalKey u) = true
    · rw [if_pos hrep]
      rcases mem_cons.mp hv with rfl | hv
      · obtain ⟨l, hl, hsame⟩ := (Option.any_eq_true _ _).mp hrep
        simp only [sameInternalKey, Bool.and_eq_true, beq_iff_eq] at hsame
        refine .inr (hl.trans (congrArg some (hdistinct _ ?_ v (by simp) hsame.1.2.symm)))
        exact mem_append_left _ (by rw [Option.mem_toList]; exact hl)
      · refine ih (fun a ha b hb => hdistinct a ?_ b ?_) hv <;>
          simp only [mem_append, mem_cons] at * <;> tauto
    · rw [if_neg hrep]
      rcases mem_cons.mp hv with rfl | hv
      · exact .inl mem_cons_self
      have hsome : ∀ a ∈ (some u).toList ++ t, a ∈ last.toList ++ u :: t := by
        intro a ha
        simp only [Option.toList_some, mem_append, mem_cons, not_mem_nil, or_false] at ha ⊢
        exact .inr ha
      rcases ih (fun a ha b hb => hdistinct a (hsome a ha) b (hsome b hb)) hv with h | h
      · exact .inl (mem_cons_of_mem _ h)
      · cases h
        exact .inl mem_cons_self

theorem mergeInternal_pairwise (inputs : List Table) : (mergeInternal inputs).Pairwise InternalLe :=
  (sortInternal_pairwise _).sublist (skipRepeated_sublist _ _)

theorem mem_of_mem_mergeInternal (hv : v ∈ mergeInternal inputs) : v ∈ inputs.flatten :=
  mem_sortInternal.mp ((skipRepeated_sublist _ _).subset hv)

theorem mem_mergeInternal (hdistinct : Layers.Distinct inputs.flatten) (hv : v ∈ inputs.flatten) :
    v ∈ mergeInternal inputs := by
  have hdistinct' : ∀ a ∈ (none : Option WriteOp).toList ++ sortInternal inputs.flatten,
      ∀ b ∈ (none : Option WriteOp).toList ++ sortInternal inputs.flatten,
      a.sequence = b.sequence → a = b := by
    intro a ha b hb
    exact hdistinct a (mem_sortInternal.mp (by simpa using ha)) b
      (mem_sortInternal.mp (by simpa using hb))
  rcases mem_skipRepeated hdistinct' (mem_sortInternal.mpr hv) with h | h
  · exact h
  · cases h

/-- Of an entry that is there several times one is kept. -/
theorem exists_mem_skipRepeated {last : Option WriteOp} (hv : v ∈ t) :
    ∃ w, (w ∈ skipRepeated last t ∨ last = some w) ∧ w.key = v.key ∧ w.sequence = v.sequence := by
  induction t generalizing last with
  | nil => cases hv
  | cons u t ih =>
    rw [skipRepeated]
    by_cases hrep : last.any (sameInternalKey u) = true
    · rw [if_pos hrep]
      rcases mem_cons.mp hv with rfl | hv
      · obtain ⟨l, hl, hsame⟩ := (Option.any_eq_true _ _).mp hrep
        simp only [sameInternalKey, Bool.and_eq_true, beq_iff_eq] at hsame
        exact ⟨l, .inr hl, hsame.1.1.symm, hsame.1.2.symm⟩
      · exact ih hv
    · rw [if_neg hrep]
      rcases mem_cons.mp hv with rfl | hv
      · exact ⟨v, .inl mem_cons_self, rfl, rfl⟩
      · obtain ⟨w, hw, hsame⟩ := @ih (some u) hv
        refine ⟨w, .inl ?_, hsame⟩
        rcases hw with hw | hw
        · exact mem_cons_of_mem _ hw
        · exact Option.some.inj hw ▸ mem_cons_self

theorem exists_mem_mergeInternal (hv : v ∈ inputs.flatten) :
    ∃ w ∈ mergeInternal inputs, w.key = v.key ∧ w.sequence = v.sequence := by
  obtain ⟨w, hw | hw, hsame⟩ := @exists_mem_skipRepeated _ _ none (mem_sortInternal.mpr hv)
  · exact ⟨w, hw, hsame⟩
  · cases hw

/-! ### Runs of one key -/

theorem flatten_userKeyRuns (t : Table) : (userKeyRuns t).flatten = t := flatten_splitBy _ _

theorem userKeyRuns_key (hrun : run ∈ userKeyRuns t) : ∀ v ∈ run, ∀ w ∈ run, v.key = w.key := by
  have hchain : run.IsChain fun a b => a.key = b.key := by
    simpa using isChain_of_mem_splitBy hrun
  have hpair : run.Pairwise fun a b => a.key = b.key := by
    have : IsTrans WriteOp fun a b => a.key = b.key := ⟨fun _ _ _ h h' => h.trans h'⟩
    exact isChain_iff_pairwise.mp hchain
  intro v hv w hw
  obtain rfl | hne := eq_or_ne v w
  · rfl
  · exact hpair.forall hv hw hne

theorem userKeyRuns_pairwise (ht : t.Pairwise InternalLe) (hrun : run ∈ userKeyRuns t) :
    run.Pairwise InternalLe := by
  rw [← flatten_userKeyRuns t] at ht
  exact (pairwise_flatten.mp ht).1 run hrun

/-- Runs in order whose neighbours differ in their keys are apart. -/
theorem runs_separate (hle : runs.flatten.Pairwise InternalLe)
    (hkeys : ∀ run ∈ runs, ∀ v ∈ run, ∀ w ∈ run, v.key = w.key) (hne : ∀ run ∈ runs, run ≠ [])
    (hchain : runs.IsChain fun a b => ∃ ha hb, ((a.getLast ha).key == (b.head hb).key) = false) :
    runs.Pairwise fun a b => ∀ v ∈ a, ∀ w ∈ b, v.key < w.key := by
  induction runs with
  | nil => exact .nil
  | cons a runs ih =>
    have ih := ih (pairwise_append.mp hle).2.1 (fun r hr => hkeys r (mem_cons_of_mem _ hr))
      (fun r hr => hne r (mem_cons_of_mem _ hr)) hchain.tail
    refine pairwise_cons.mpr ⟨fun b hb v hv w hw => ?_, ih⟩
    cases runs with
    | nil => cases hb
    | cons c runs =>
      obtain ⟨⟨ha, hc, hdiff⟩, _⟩ := isChain_cons_cons.mp hchain
      have hcross := (pairwise_append.mp hle).2.2
      have hva : v.key = (a.getLast ha).key := hkeys a mem_cons_self v hv _ (getLast_mem ha)
      have hlt : v.key < (c.head hc).key := by
        rcases hcross (a.getLast ha) (getLast_mem ha) (c.head hc) (by simp) with hlt | ⟨heq, _⟩
        · exact hva ▸ hlt
        · simp [heq] at hdiff
      rcases mem_cons.mp hb with rfl | hb
      · rw [hkeys b (by simp) w hw _ (head_mem hc)]
        exact hlt
      · exact List.lt_trans hlt ((pairwise_cons.mp ih).1 b hb _ (head_mem hc) w hw)

theorem userKeyRuns_separate (ht : t.Pairwise InternalLe) :
    (userKeyRuns t).Pairwise fun a b => ∀ v ∈ a, ∀ w ∈ b, v.key < w.key :=
  runs_separate (by rwa [flatten_userKeyRuns]) (fun _ hr => userKeyRuns_key hr)
    (fun _ hr => ne_nil_of_mem_splitBy hr)
    (isChain_getLast_head_splitBy (fun a b : WriteOp => a.key == b.key) t)

theorem userKeyRuns_eq {a b : Table} (ht : t.Pairwise InternalLe) (ha : a ∈ userKeyRuns t)
    (hb : b ∈ userKeyRuns t)
    {w : WriteOp} (hv : v ∈ a) (hw : w ∈ b) (hkey : v.key = w.key) : a = b := by
  by_contra hne
  have hsep : (userKeyRuns t).Pairwise fun a b => ∀ v ∈ a, ∀ w ∈ b, v.key ≠ w.key :=
    (userKeyRuns_separate ht).imp fun h v hv w hw heq => List.lt_irrefl _ (heq ▸ h v hv w hw)
  have hsymm : Std.Symm fun a b : Table => ∀ v ∈ a, ∀ w ∈ b, v.key ≠ w.key :=
    ⟨fun _ _ h v hv w hw => (h w hw v hv).symm⟩
  exact hsep.forall ha hb hne v hv w hw hkey

theorem closeRuns_sublist (gc : CompactGcOptions) (tombs : Table) (runs : List Table) :
    (closeRuns gc tombs runs).Sublist runs.flatten := by
  induction runs generalizing tombs with
  | nil => exact .slnil
  | cons run rest ih => exact filter_sublist.append (ih _)

/-- A run is closed with the range tombstones up to it. -/
theorem mem_closeRuns_iff : v ∈ closeRuns gc tombs runs ↔
    ∃ before run after, runs = before ++ run :: after ∧
      v ∈ closeRun gc (tombs ++ deletionsOf (before ++ [run]).flatten) run := by
  induction runs generalizing tombs with
  | nil => simp [closeRuns]
  | cons r rest ih =>
    rw [closeRuns, mem_append, ih]
    constructor
    · rintro (h | ⟨before, run, after, rfl, h⟩)
      · exact ⟨[], r, rest, rfl, by simpa using h⟩
      · exact ⟨r :: before, run, after, rfl, by simpa using h⟩
    · rintro ⟨before, run, after, heq, h⟩
      cases before with
      | nil =>
        cases heq
        exact .inl (by simpa using h)
      | cons b before =>
        cases heq
        exact .inr ⟨before, run, after, rfl, by simpa using h⟩

theorem exists_of_mem_closeRuns (hv : v ∈ closeRuns gc tombs runs) :
    ∃ run ∈ runs, ∃ tombs', v ∈ closeRun gc tombs' run := by
  obtain ⟨before, run, after, rfl, h⟩ := mem_closeRuns_iff.mp hv
  exact ⟨run, by simp, _, h⟩

theorem closeRuns_of_mem (gc : CompactGcOptions) (tombs : Table)
    (hrun : run ∈ runs) : ∃ tombs', ∀ v ∈ closeRun gc tombs' run, v ∈ closeRuns gc tombs runs := by
  obtain ⟨before, after, rfl⟩ := append_of_mem hrun
  exact ⟨_, fun v hv => mem_closeRuns_iff.mpr ⟨before, run, after, rfl, hv⟩⟩

/-! ### What a snapshot still sees -/

/-- A version that goes leaves an earlier one behind that the oldest snapshot sees. -/
theorem retain_cases {before : WriteOp → WriteOp → Prop} (oldest : Nat) (newerKept : Option Nat)
    (hdesc : points.Pairwise before) (hv : v ∈ points) : v ∈ retain oldest newerKept points ∨
      (∃ w ∈ retain oldest newerKept points, w.sequence ≤ oldest ∧ before w v) ∨
      ∃ newer, newerKept = some newer ∧ newer ≤ oldest := by
  induction points generalizing newerKept with
  | nil => cases hv
  | cons u points ih =>
    obtain ⟨hu, hdesc⟩ := pairwise_cons.mp hdesc
    rw [retain]
    cases hfate : pointVersionFate u.sequence newerKept oldest with
    | drop =>
      refine .inr (.inr ?_)
      simp only [pointVersionFate] at hfate
      split at hfate
      · cases hfate
      split at hfate
      · cases hfate
      · rename_i newer
        split at hfate
        · exact ⟨newer, rfl, by assumption⟩
        · cases hfate
    | keep =>
      rcases mem_cons.mp hv with rfl | hv
      · exact .inl mem_cons_self
      · rcases ih (some u.sequence) hdesc hv with h | ⟨w, hw, h⟩ | ⟨newer, heq, hle⟩
        · exact .inl (mem_cons_of_mem _ h)
        · exact .inr (.inl ⟨w, mem_cons_of_mem _ hw, h⟩)
        · cases heq
          exact .inr (.inl ⟨u, mem_cons_self, hle, hu v hv⟩)

theorem retain_sublist (oldest : Nat) (newerKept : Option Nat) (points : Table) :
    (retain oldest newerKept points).Sublist points := by
  induction points generalizing newerKept with
  | nil => exact .slnil
  | cons v points ih =>
    rw [retain]
    split
    · exact (ih newerKept).cons v
    · exact (ih _).cons_cons v

theorem mem_of_mem_retain {oldest : Nat} {newerKept : Option Nat}
    (hv : v ∈ retain oldest newerKept points) : v ∈ points :=
  (retain_sublist oldest newerKept points).subset hv

section Seen
variable {key : Key} {snap : Nat}
open Layers

theorem points_desc (hrun : run.Pairwise InternalLe) (hkeys : ∀ v ∈ run, ∀ w ∈ run, v.key = w.key) :
    (pointsOf run).Pairwise fun a b => b.sequence ≤ a.sequence := by
  refine (hrun.imp_of_mem fun ha hb hab => ?_).sublist filter_sublist
  rcases hab with hlt | ⟨_, hle⟩
  · rw [hkeys _ ha _ hb] at hlt
    exact absurd hlt (List.lt_irrefl _)
  · exact hle

/-- A compaction only leaves out. -/
theorem rewrite_sublist (gc : CompactGcOptions) (inputs : List Table) :
    (rewrite gc inputs).Sublist (mergeInternal inputs) := by
  rw [rewrite]
  split
  · have h := closeRuns_sublist gc []
      (userKeyRuns ((mergeInternal inputs).filter fun v => decide (gc.minSequence ≤ v.sequence)))
    rw [flatten_userKeyRuns] at h
    exact h.trans filter_sublist
  · exact List.Sublist.refl _

theorem mem_of_mem_rewrite (hv : v ∈ rewrite gc inputs) : v ∈ inputs.flatten :=
  mem_of_mem_mergeInternal ((rewrite_sublist gc inputs).subset hv)

/-- The newest operation over the key stays in its run, or it is a deletion and the run
keeps no point. -/
theorem closeRun_newest (hlatest : gc.keepOnlyLatest = false)
    (holdest : ∀ o, gc.oldestSnapshot = some o → o ≤ snap)
    (hrun : run.Pairwise InternalLe) (hkeys : ∀ v ∈ run, ∀ w ∈ run, v.key = w.key)
    (hdistinct : Distinct run) (hc : Newest key snap run c) :
    (∀ tombs, c ∈ closeRun gc tombs run) ∨ gc.bottommost = true ∧ c.kind = .deletion ∧
      ∀ tombs, ∀ w ∈ closeRun gc tombs run, w.kind = .rangeDeletion := by
  by_cases hkind : c.kind = .rangeDeletion
  · exact .inl fun tombs => by simp [closeRun, hc.mem, hkind, hlatest]
  have hpoint : c ∈ pointsOf run := by simp [hc.mem, hkind]
  cases hold : gc.oldestSnapshot with
  | none => exact .inl fun tombs => by simp [closeRun, hc.mem, hkind, keptPoints, hold, hlatest]
  | some oldest =>
    have hretained : c ∈ retain oldest none (pointsOf run) := by
      rcases retain_cases oldest none (points_desc hrun hkeys) hpoint with h | ⟨w, hw, hle, hcw⟩ |
        ⟨_, h, _⟩
      · exact h
      · -- what would take its place is seen too, so it is the operation itself
        obtain ⟨hwrun, hwkind⟩ : w ∈ run ∧ w.kind ≠ .rangeDeletion := by simpa using mem_of_mem_retain hw
        have hwsees : Sees key snap w := by
          refine ⟨?_, le_trans hle (holdest oldest hold)⟩
          rw [covers_point hwkind, hkeys w hwrun c hc.mem]
          exact (covers_point hkind).mp hc.seen.1
        have heq := hdistinct c hc.mem w hwrun (le_antisymm hcw (hc.top w hwrun hwsees))
        exact heq ▸ hw
      · cases h
    have hkept : ∀ tombs, keptPoints gc tombs (pointsOf run) =
        match loneTombstoneFate gc.bottommost (loneDeletion (retain oldest none (pointsOf run))) with
        | .drop => []
        | .keep => retain oldest none (pointsOf run) := by
      simp [keptPoints, hold]
    cases hfate : loneTombstoneFate gc.bottommost (loneDeletion (retain oldest none (pointsOf run))) with
    | keep => exact .inl fun tombs => by simp [closeRun, hc.mem, hkind, hkept tombs, hfate, hretained]
    | drop =>
      refine .inr ?_
      simp only [loneTombstoneFate] at hfate
      split at hfate
      swap
      · cases hfate
      rename_i hlone
      rw [Bool.and_eq_true] at hlone
      refine ⟨hlone.1, ?_, fun tombs w hw => ?_⟩
      · cases hr : retain oldest none (pointsOf run) with
        | nil => simp [hr] at hretained
        | cons d rest =>
          cases rest with
          | nil =>
            rw [hr] at hretained hlone
            obtain rfl := mem_singleton.mp hretained
            simpa [loneDeletion] using hlone.2
          | cons e rest => simp [hr, loneDeletion] at hlone
      · by_contra hwkind
        simp [closeRun, hwkind, hkept tombs, loneTombstoneFate, hlone.1, hlone.2] at hw

/-- **What a rewrite keeps of the newest operation over a key.** It stays, or it is a
deletion, the rewrite is a bottommost one, and no point of the key stays. -/
theorem rewrite_newest (hfloor : gc.minSequence = 0) (hlatest : gc.keepOnlyLatest = false)
    (holdest : ∀ o, gc.oldestSnapshot = some o → o ≤ snap) (hdistinct : Distinct inputs.flatten)
    (hc : Newest key snap inputs.flatten c) :
    c ∈ rewrite gc inputs ∨ gc.bottommost = true ∧ c.kind = .deletion ∧
      ∀ w ∈ rewrite gc inputs, Sees key snap w → w.kind = .rangeDeletion := by
  have hmerged := mem_mergeInternal hdistinct hc.mem
  rw [rewrite]
  split
  swap
  · exact .inl hmerged
  have hall : ((mergeInternal inputs).filter fun v => decide (gc.minSequence ≤ v.sequence)) =
      mergeInternal inputs := by
    simp [hfloor]
  have hsub : ∀ {run : Table}, run ∈ userKeyRuns (mergeInternal inputs) →
      ∀ v ∈ run, v ∈ inputs.flatten := by
    intro run hrun v hv
    refine mem_of_mem_mergeInternal ?_
    rw [← flatten_userKeyRuns (mergeInternal inputs)]
    exact mem_flatten.mpr ⟨run, hrun, hv⟩
  rw [gcMerge, hall]
  rw [← flatten_userKeyRuns (mergeInternal inputs)] at hmerged
  obtain ⟨run, hrun, hcrun⟩ := mem_flatten.mp hmerged
  have hnewest : Newest key snap run c := ⟨hcrun, hc.seen, fun w hw => hc.top w (hsub hrun w hw)⟩
  rcases closeRun_newest hlatest holdest (userKeyRuns_pairwise (mergeInternal_pairwise _) hrun)
    (userKeyRuns_key hrun)
    (fun v hv w hw => hdistinct v (hsub hrun v hv) w (hsub hrun w hw))
    hnewest with hkept | ⟨hbottom, hkind, hnone⟩
  · obtain ⟨tombs, hout⟩ := closeRuns_of_mem gc [] hrun
    exact .inl (hout c (hkept tombs))
  refine .inr ⟨hbottom, hkind, fun w hw hsees => ?_⟩
  obtain ⟨run', hrun', tombs, hw⟩ := exists_of_mem_closeRuns hw
  by_contra hwkind
  -- a point of the key is in the same run
  have hwrun : w ∈ run' := (mem_filter.mp hw).1
  have hkey : c.key = w.key := by
    rw [(covers_point hwkind).mp hsees.1]
    exact (covers_point (by simp [hkind])).mp hc.seen.1
  obtain rfl := userKeyRuns_eq (mergeInternal_pairwise inputs) hrun hrun' hcrun hwrun hkey
  exact hwkind (hnone tombs w hw)

end Seen
end PedraDb
