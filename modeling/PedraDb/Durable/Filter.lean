import PedraDb.Durable.Compaction
import PedraDb.Library.Bytes
import PedraDb.Library.Chunks

/-! The compaction filter.

A filter compaction rewrites the files of each family and asks a decision about the newest
version of each user key, if that is a put. The version is kept, or replaced by a deletion
with which all older entries of the key go, or given another value. What comes out differs
from what went in only by what was decided (`Effect`).

All I/O succeeds here. The decision may remember what it was asked before. -/
namespace PedraDb.Durable
open List
open Chunks (Cut)
variable {t : Table} {runs : List Table}

open Layers (Distinct)

inductive CompactFilterDecision where
  | keep
  | remove
  | change (value : Value)
  deriving DecidableEq

/-- What the decision was asked about, and its answer. -/
structure Asked where
  family : Key
  version : WriteOp
  answer : CompactFilterDecision
  deriving DecidableEq

/-- The decision sees the family, the user key and the bytes of the value. -/
abbrev Decision := List Asked → Key → Key → Value → CompactFilterDecision

section
variable (decision : Decision) (family : Key)

/-- The filter over the merged entries. `runUser` is the key of the entry before, and
`dropping` whether the rest of its run goes. -/
def filterMerge : List Asked → Option Key → Bool → Table → Table × List Asked
  | log, _, _, [] => ([], log)
  | log, runUser, dropping, v :: rest =>
    if runUser ≠ some v.key then
      if v.kind = .value then
        let answer := decision log family v.key v.value
        let log := log ++ [⟨family, v, answer⟩]
        match answer with
        | .keep =>
          let (out, log) := filterMerge log (some v.key) false rest
          (v :: out, log)
        | .remove =>
          let (out, log) := filterMerge log (some v.key) true rest
          (.delete v.sequence v.key :: out, log)
        | .change value =>
          let (out, log) := filterMerge log (some v.key) false rest
          ({ v with value } :: out, log)
      else
        let (out, log) := filterMerge log (some v.key) false rest
        (v :: out, log)
    else if dropping then filterMerge log runUser dropping rest
    else
      let (out, log) := filterMerge log runUser dropping rest
      (v :: out, log)

end

/-! ### Files -/

def mergedEntryBytes (v : WriteOp) : Nat := v.key.length + v.value.length + 24

def compactShouldSplitAt (writtenBytes target : Nat) : Bool := decide (target ≤ writtenBytes)

/-- The files of the output: a new one is started at a user key that follows the target. -/
def splitChunks (target : Nat) : Nat → Option Key → Table → List Table
  | _, _, [] => [[]]
  | acc, lastUser, v :: rest =>
    let startNew := compactShouldSplitAt acc target && lastUser.any (· != v.key)
    let chunks := splitChunks target (if startNew then mergedEntryBytes v
      else acc + mergedEntryBytes v) (some v.key) rest
    let chunks := (v :: chunks.headD []) :: chunks.tail
    if startNew then [] :: chunks else chunks

def familyName (cf : Key) : Key := if cf.isEmpty then defaultFamily else cf

section
variable (cfg : Config) (target : Nat) (decision : Decision)

/-- The files of one family are merged, filtered and written to the bottom level. No
version is discarded but by the decision. -/
def rewriteFamily (cf : Key) (inputs : List Sst) (log : List Asked) : List Sst × List Asked :=
  let (out, log) := filterMerge decision (familyName cf) log none false
    (mergeInternal (inputs.map Sst.table))
  ((splitChunks target 0 none out).map fun t => ⟨if cf = [] then cfg.label t else cf, maxLsmLevel, t⟩,
    log)

def filterSsts (st : List Sst × List Asked) (cf : Key) : List Sst × List Asked :=
  let (out, log) :=
    rewriteFamily cfg target decision cf (st.1.filter fun f => compactFamilyKey cfg f == cf) st.2
  (st.1.filter (fun f => compactFamilyKey cfg f != cf) ++ out, log)

/-- The families of the files, in order. -/
def compactFamilies (ssts : List Sst) : List Key :=
  (ssts.map (compactFamilyKey cfg)).foldr insertFamily []

/-- The filter compaction: the files after it, and what the decision was asked. -/
def compactFilterFamilies (ssts : List Sst) : List Sst × List Asked :=
  (compactFamilies cfg ssts).foldl (filterSsts cfg target decision) (ssts, [])

end

/-! ### What is asked -/

/-- The newest entry of a run of one key, if it is a put. -/
def newestPut (run : Table) : Option WriteOp := run.head?.filter fun v => v.kind = .value

/-- The puts that are the newest entries of their keys, in key order. -/
def newestPuts (t : Table) : List WriteOp := (userKeyRuns t).filterMap newestPut

/-- The answers to questions about `puts`, asked in turn. -/
def answered (decision : Decision) (family : Key) : List Asked → List WriteOp → List Asked
  | log, [] => log
  | log, v :: rest =>
    answered decision family (log ++ [⟨family, v, decision log family v.key v.value⟩]) rest

/-- What the decision says about the newest puts of each family's files, the families in
order. -/
def consulted (cfg : Config) (decision : Decision) (ssts : List Sst) (families : List Key)
    (log : List Asked) : List Asked :=
  families.foldl (fun log cf => answered decision (familyName cf) log (newestPuts (mergeInternal
    ((ssts.filter fun f => compactFamilyKey cfg f == cf).map Sst.table)))) log

theorem answered_append (decision : Decision) (family : Key) (log : List Asked) (vs ws : List WriteOp) :
    answered decision family log (vs ++ ws) =
      answered decision family (answered decision family log vs) ws := by
  induction vs generalizing log with
  | nil => rfl
  | cons v vs ih => simp only [cons_append, answered, ih]

theorem filterMap_cons_toList {α β : Type} (f : α → Option β) (a : α) (l : List α) :
    (a :: l).filterMap f = (f a).toList ++ l.filterMap f := by
  cases h : f a <;> simp [h]

/-- A run of one key after the decision. -/
def decideRun (decision : Decision) (family : Key) (log : List Asked) : Table → Table × List Asked
  | [] => ([], log)
  | v :: older =>
    if v.kind = .value then
      let answer := decision log family v.key v.value
      let log := log ++ [⟨family, v, answer⟩]
      match answer with
      | .keep => (v :: older, log)
      | .remove => ([.delete v.sequence v.key], log)
      | .change value => ({ v with value } :: older, log)
    else (v :: older, log)

def decideRuns (decision : Decision) (family : Key) : List Asked → List Table → Table × List Asked
  | log, [] => ([], log)
  | log, run :: rest =>
    let first := decideRun decision family log run
    let more := decideRuns decision family first.2 rest
    (first.1 ++ more.1, more.2)

section
variable {decision : Decision} {family : Key}

theorem filterMerge_same {log : List Asked} {key : Key} {dropping : Bool} {run rest : Table}
    (hkey : ∀ v ∈ run, v.key = key) :
    filterMerge decision family log (some key) dropping (run ++ rest) =
      ((if dropping then [] else run) ++ (filterMerge decision family log (some key) dropping rest).1,
        (filterMerge decision family log (some key) dropping rest).2) := by
  induction run with
  | nil => simp
  | cons v run ih =>
    have ih := ih fun w hw => hkey w (mem_cons_of_mem _ hw)
    have hv : v.key = key := hkey v mem_cons_self
    rw [cons_append, filterMerge, if_neg (by simp [hv])]
    cases dropping with
    | true => simpa using ih
    | false => simp [ih]

variable (decision family) in
/-- The filter goes run by run. -/
theorem filterMerge_runs (hkeys : ∀ run ∈ runs, ∀ v ∈ run, ∀ w ∈ run, v.key = w.key)
    (hne : ∀ run ∈ runs, run ≠ []) (hsep : runs.Pairwise fun a b => ∀ v ∈ a, ∀ w ∈ b, v.key < w.key)
    (log : List Asked)
    (user : Option Key) (dropping : Bool) (huser : ∀ k,
      user = some k → ∀ run ∈ runs, ∀ v ∈ run, k ≠ v.key) :
    filterMerge decision family log user dropping runs.flatten = decideRuns decision family log runs := by
  induction runs generalizing log user dropping with
  | nil => rfl
  | cons run rest ih =>
    obtain ⟨v, older, rfl⟩ := exists_cons_of_ne_nil (hne run mem_cons_self)
    obtain ⟨hfirst, hsep⟩ := pairwise_cons.mp hsep
    have holder : ∀ w ∈ older, w.key = v.key := fun w hw =>
      hkeys _ mem_cons_self w (mem_cons_of_mem _ hw) v mem_cons_self
    have hnext : ∀ k, some v.key = some k → ∀ run ∈ rest, ∀ w ∈ run, k ≠ w.key := by
      intro k hk run hrun w hw heq
      obtain rfl := Option.some.inj hk
      exact List.lt_irrefl _ (heq ▸ hfirst run hrun v mem_cons_self w hw)
    have ih := fun log dropping => ih (fun r hr => hkeys r (mem_cons_of_mem _ hr))
      (fun r hr => hne r (mem_cons_of_mem _ hr)) hsep log (some v.key) dropping hnext
    have hnew : user ≠ some v.key := fun heq => huser v.key heq _ mem_cons_self v mem_cons_self rfl
    rw [flatten_cons, cons_append, filterMerge, if_pos hnew, decideRuns, decideRun]
    split
    · cases decision log family v.key v.value with
      | keep => simp [filterMerge_same holder, ih]
      | remove => simp [filterMerge_same holder, ih]
      | change value => simp [filterMerge_same holder, ih]
    · simp [filterMerge_same holder, ih]

end

/-! ### What comes out -/

/-- An entry of the output: one of the input that was not decided about, or what the
decision made of the newest of its key, or an older one of a key with a new value. -/
def After (old : List WriteOp) (asked : List Asked) (w : WriteOp) : Prop :=
  (w ∈ old ∧ ∀ a ∈ asked, a.version.key = w.key → a.answer = .keep) ∨
    ∃ a ∈ asked, (a.answer = .remove ∧ w = .delete a.version.sequence a.version.key) ∨
      ∃ value, a.answer = .change value ∧
      (w = { a.version with value } ∨ w ∈ old ∧ w.key = a.version.key ∧ w ≠ a.version)

/-- The output differs from the input by what was decided, and the decision was asked about
newest versions, once for a key. -/
structure Effect (old new : List WriteOp) (asked : List Asked) : Prop where
  newest : ∀ a ∈ asked, a.version ∈ old ∧ a.version.kind = .value ∧
    ∀ u ∈ old, u.key = a.version.key → u.sequence ≤ a.version.sequence
  once : (asked.map fun a => a.version.key).Nodup
  mem : ∀ w, w ∈ new ↔ After old asked w

section
variable {old old' new new' : List WriteOp} {asked asked' : List Asked} {w : WriteOp}

theorem After.key (h : After old asked w) (hasked : ∀ a ∈ asked, a.version ∈ old) :
    ∃ v ∈ old, v.key = w.key := by
  rcases h with ⟨hw, -⟩ | ⟨a, ha, ⟨-, rfl⟩ | ⟨value, -, rfl | ⟨hw, -⟩⟩⟩
  · exact ⟨w, hw, rfl⟩
  · exact ⟨a.version, hasked a ha, rfl⟩
  · exact ⟨a.version, hasked a ha, rfl⟩
  · exact ⟨w, hw, rfl⟩

theorem Effect.key (h : Effect old new asked) (hw : w ∈ new) : ∃ v ∈ old, v.key = w.key :=
  ((h.mem w).mp hw).key fun a ha => (h.newest a ha).1

theorem Effect.nil : Effect [] [] [] := ⟨by simp, by simp, by simp [After]⟩

theorem after_append (hasked : ∀ a ∈ asked, a.version ∈ old) (hasked' : ∀ a ∈ asked', a.version ∈ old')
    (hkeys : ∀ v ∈ old, ∀ w ∈ old', v.key ≠ w.key) :
    After (old ++ old') (asked ++ asked') w ↔ After old asked w ∨ After old' asked' w := by
  constructor
  · rintro (⟨hw, hkeep⟩ | ⟨a, ha, hmade⟩)
    · rcases mem_append.mp hw with hw | hw
      · exact .inl (.inl ⟨hw, fun a ha => hkeep a (mem_append_left _ ha)⟩)
      · exact .inr (.inl ⟨hw, fun a ha => hkeep a (mem_append_right _ ha)⟩)
    rcases mem_append.mp ha with ha | ha
    · refine .inl (.inr ⟨a, ha, hmade.imp_right ?_⟩)
      rintro ⟨value, hanswer, rfl | ⟨hw, hkey, hne⟩⟩
      · exact ⟨value, hanswer, .inl rfl⟩
      · refine ⟨value, hanswer, .inr ⟨(mem_append.mp hw).resolve_right fun hw => ?_, hkey, hne⟩⟩
        exact hkeys _ (hasked a ha) w hw hkey.symm
    · refine .inr (.inr ⟨a, ha, hmade.imp_right ?_⟩)
      rintro ⟨value, hanswer, rfl | ⟨hw, hkey, hne⟩⟩
      · exact ⟨value, hanswer, .inl rfl⟩
      · refine ⟨value, hanswer, .inr ⟨(mem_append.mp hw).resolve_left fun hw => ?_, hkey, hne⟩⟩
        exact hkeys w hw _ (hasked' a ha) hkey
  · rintro (h | h)
    · rcases h with ⟨hw, hkeep⟩ | ⟨a, ha, hmade⟩
      · refine .inl ⟨mem_append_left _ hw, fun a ha hkey => ?_⟩
        rcases mem_append.mp ha with ha | ha
        · exact hkeep a ha hkey
        · exact absurd hkey.symm (hkeys w hw _ (hasked' a ha))
      · exact .inr ⟨a, mem_append_left _ ha, hmade.imp_right fun ⟨value, hanswer, hw⟩ =>
          ⟨value, hanswer, hw.imp_right fun ⟨hw, hrest⟩ => ⟨mem_append_left _ hw, hrest⟩⟩⟩
    · rcases h with ⟨hw, hkeep⟩ | ⟨a, ha, hmade⟩
      · refine .inl ⟨mem_append_right _ hw, fun a ha hkey => ?_⟩
        rcases mem_append.mp ha with ha | ha
        · exact absurd hkey (hkeys _ (hasked a ha) w hw)
        · exact hkeep a ha hkey
      · exact .inr ⟨a, mem_append_right _ ha, hmade.imp_right fun ⟨value, hanswer, hw⟩ =>
          ⟨value, hanswer, hw.imp_right fun ⟨hw, hrest⟩ => ⟨mem_append_right _ hw, hrest⟩⟩⟩

/-- Effects on entries of different keys, side by side. -/
theorem Effect.append (h : Effect old new asked) (h' : Effect old' new' asked')
    (hkeys : ∀ v ∈ old, ∀ w ∈ old', v.key ≠ w.key) :
    Effect (old ++ old') (new ++ new') (asked ++ asked') := by
  refine ⟨fun a ha => ?_, ?_, fun w => ?_⟩
  · rcases mem_append.mp ha with ha | ha
    · obtain ⟨hmem, hkind, htop⟩ := h.newest a ha
      refine ⟨mem_append_left _ hmem, hkind, fun u hu hkey => ?_⟩
      rcases mem_append.mp hu with hu | hu
      · exact htop u hu hkey
      · exact absurd hkey.symm (hkeys _ hmem u hu)
    · obtain ⟨hmem, hkind, htop⟩ := h'.newest a ha
      refine ⟨mem_append_right _ hmem, hkind, fun u hu hkey => ?_⟩
      rcases mem_append.mp hu with hu | hu
      · exact absurd hkey (hkeys u hu _ hmem)
      · exact htop u hu hkey
  · rw [map_append, nodup_append]
    refine ⟨h.once, h'.once, fun k hk k' hk' => ?_⟩
    obtain ⟨a, ha, rfl⟩ := mem_map.mp hk
    obtain ⟨a', ha', rfl⟩ := mem_map.mp hk'
    exact hkeys _ (h.newest a ha).1 _ (h'.newest a' ha').1
  · rw [mem_append, h.mem, h'.mem, after_append (fun a ha => (h.newest a ha).1)
      (fun a ha => (h'.newest a ha).1) hkeys]

theorem Effect.congr (h : Effect old new asked) (hsame : ∀ v, v ∈ old' ↔ v ∈ old)
    (hsame' : ∀ w, w ∈ new' ↔ w ∈ new) :
    Effect old' new' asked := by
  refine ⟨fun a ha => ?_, h.once, fun w => ?_⟩
  · obtain ⟨hmem, hkind, htop⟩ := h.newest a ha
    exact ⟨(hsame _).mpr hmem, hkind, fun u hu => htop u ((hsame u).mp hu)⟩
  · simp [hsame', h.mem, After, hsame]

theorem Effect.self (old : List WriteOp) : Effect old old [] := ⟨by simp, by simp, by simp [After]⟩

variable (decision : Decision) (family : Key)

theorem decideRun_effect (log : List Asked) {run : Table} (hkeys : ∀ v ∈ run, ∀ w ∈ run, v.key = w.key)
    (hrun : run.Pairwise InternalLe) (hnodup : run.Nodup) :
    ∃ asked, (decideRun decision family log run).2 = log ++ asked ∧
      answered decision family log (newestPut run).toList = log ++ asked ∧
      Effect run (decideRun decision family log run).1 asked := by
  cases run with
  | nil => exact ⟨[], by simp [decideRun], by simp [newestPut, answered], Effect.nil⟩
  | cons v older =>
    have htop : ∀ u ∈ v :: older, u.sequence ≤ v.sequence := by
      intro u hu
      rcases mem_cons.mp hu with rfl | hmem
      · exact le_rfl
      · rcases (pairwise_cons.mp hrun).1 u hmem with hlt | ⟨-, hle⟩
        · exact absurd (hkeys v mem_cons_self u hu) fun heq => List.lt_irrefl _ (heq ▸ hlt)
        · exact hle
    have hkey : ∀ u ∈ v :: older, v.key = u.key := fun u hu => hkeys v mem_cons_self u hu
    have hv : v ∉ older := (nodup_cons.mp hnodup).1
    rw [decideRun]
    split
    · rename_i hkind
      have hput : newestPut (v :: older) = some v := by simp [newestPut, hkind]
      rw [hput]
      simp only [Option.toList_some, answered]
      generalize decision log family v.key v.value = answer
      have hnewest : ∀ a ∈ [(⟨family, v, answer⟩ : Asked)],
        a.version ∈ v :: older ∧ a.version.kind = .value ∧
          ∀ u ∈ v :: older, u.key = a.version.key → u.sequence ≤ a.version.sequence := by
        intro a ha
        obtain rfl := mem_singleton.mp ha
        exact ⟨mem_cons_self, hkind, fun u hu _ => htop u hu⟩
      cases answer with
      | keep =>
        exact ⟨[⟨family, v, .keep⟩], rfl, rfl, hnewest, by simp, fun w => by simp [After]⟩
      | remove =>
        refine ⟨[⟨family, v, .remove⟩], rfl, rfl, hnewest, by simp, fun w => ⟨fun hw => ?_, ?_⟩⟩
        · exact .inr ⟨_, mem_singleton_self _, .inl ⟨rfl, mem_singleton.mp hw⟩⟩
        · rintro (⟨hw, hkeep⟩ | ⟨a, ha, hmade⟩)
          · cases hkeep _ (mem_singleton_self _) (hkey w hw)
          · obtain rfl := mem_singleton.mp ha
            rcases hmade with ⟨-, rfl⟩ | ⟨value, hanswer, -⟩
            · exact mem_singleton_self _
            · cases hanswer
      | change value =>
        refine ⟨[⟨family, v, .change value⟩], rfl, rfl, hnewest, by simp, fun w => ⟨fun hw => ?_, ?_⟩⟩
        · refine .inr ⟨_, mem_singleton_self _, .inr ⟨value, rfl, ?_⟩⟩
          rcases mem_cons.mp hw with rfl | hw
          · exact .inl rfl
          · exact .inr ⟨mem_cons_of_mem _ hw, (hkey w (mem_cons_of_mem _ hw)).symm,
              fun heq : w = v => hv (heq ▸ hw)⟩
        · rintro (⟨hw, hkeep⟩ | ⟨a, ha, hmade⟩)
          · cases hkeep _ (mem_singleton_self _) (hkey w hw)
          obtain rfl := mem_singleton.mp ha
          rcases hmade with ⟨hanswer, -⟩ | ⟨value', hanswer, hw⟩
          · cases hanswer
          · cases hanswer
            rcases hw with rfl | ⟨hw, -, hne⟩
            · exact mem_cons_self
            · exact mem_cons_of_mem _ ((mem_cons.mp hw).resolve_left hne)
    · rename_i hkind
      have hput : newestPut (v :: older) = none := by simp [newestPut, Option.filter, hkind]
      exact ⟨[], by simp, by simp [hput, answered], Effect.self _⟩

theorem decideRuns_effect (hkeys : ∀ run ∈ runs, ∀ v ∈ run, ∀ w ∈ run, v.key = w.key)
    (hsep : runs.Pairwise fun a b => ∀ v ∈ a, ∀ w ∈ b, v.key < w.key)
    (hrun : ∀ run ∈ runs, run.Pairwise InternalLe)
    (hnodup : ∀ run ∈ runs, run.Nodup) (log : List Asked) :
    ∃ asked, (decideRuns decision family log runs).2 = log ++ asked ∧
      answered decision family log (runs.filterMap newestPut) = log ++ asked ∧
      Effect runs.flatten (decideRuns decision family log runs).1 asked := by
  induction runs generalizing log with
  | nil => exact ⟨[], by simp [decideRuns], by simp [answered], Effect.nil⟩
  | cons run rest ih =>
    obtain ⟨hfirst, hsep⟩ := pairwise_cons.mp hsep
    obtain ⟨asked, hlog, hans, heff⟩ := decideRun_effect decision family log
      (hkeys run mem_cons_self) (hrun run mem_cons_self) (hnodup run mem_cons_self)
    obtain ⟨more, hlog', hans', heff'⟩ := ih (fun r hr => hkeys r (mem_cons_of_mem _ hr)) hsep
      (fun r hr => hrun r (mem_cons_of_mem _ hr)) (fun r hr => hnodup r (mem_cons_of_mem _ hr))
      (decideRun decision family log run).2
    refine ⟨asked ++ more, ?_, ?_, ?_⟩
    · rw [decideRuns, hlog', hlog, append_assoc]
    · rw [filterMap_cons_toList, answered_append, hans, ← hlog, hans', hlog, append_assoc]
    · rw [decideRuns, flatten_cons]
      refine heff.append heff' fun v hv w hw heq => ?_
      obtain ⟨r, hr, hw⟩ := mem_flatten.mp hw
      exact List.lt_irrefl _ (heq ▸ hfirst r hr v hv w hw)

/-- **What the filter does to the merged entries.** -/
theorem filterMerge_effect (ht : t.Pairwise InternalLe) (hnodup : t.Nodup) (log : List Asked) :
    ∃ asked, (filterMerge decision family log none false t).2 = log ++ asked ∧
      answered decision family log (newestPuts t) = log ++ asked ∧
      Effect t (filterMerge decision family log none false t).1 asked := by
  have hflat := flatten_userKeyRuns t
  have hruns := filterMerge_runs decision family (fun _ hr => userKeyRuns_key (t := t) hr)
    (fun _ hr => ne_nil_of_mem_splitBy hr) (userKeyRuns_separate ht) log none false
    (by simp)
  rw [hflat] at hruns
  rw [hruns]
  have hnodup' : ∀ run ∈ userKeyRuns t, run.Nodup := by
    intro run hr
    rw [← hflat] at hnodup
    exact hnodup.sublist (sublist_flatten_of_mem hr)
  have heff := decideRuns_effect decision family (fun _ hr => userKeyRuns_key hr)
    (userKeyRuns_separate ht) (fun _ hr => userKeyRuns_pairwise ht hr) hnodup' log
  rwa [hflat, ← newestPuts] at heff

end

/-! ### Merging and splitting -/

theorem skipRepeated_nodup (ht : t.Pairwise InternalLe) (hdistinct : Distinct t) (last : Option WriteOp)
    (hlast : ∀ l, last = some l → ∀ v ∈ t, InternalLe l v ∧ (l.sequence = v.sequence → l = v)) :
    (skipRepeated last t).Nodup ∧ ∀ l, last = some l → l ∉ skipRepeated last t := by
  induction t generalizing last with
  | nil => simp [skipRepeated]
  | cons v t ih =>
    obtain ⟨hv, ht⟩ := pairwise_cons.mp ht
    have hdistinct' : Distinct t := fun a ha b hb =>
      hdistinct a (mem_cons_of_mem _ ha) b (mem_cons_of_mem _ hb)
    rw [skipRepeated]
    split
    · exact ih ht hdistinct' last fun l hl w hw => hlast l hl w (mem_cons_of_mem _ hw)
    rename_i hnew
    obtain ⟨hnodup, hnot⟩ := ih ht hdistinct' (some v) fun l hl w hw => by
      obtain rfl := Option.some.inj hl
      exact ⟨hv w hw, hdistinct v mem_cons_self w (mem_cons_of_mem _ hw)⟩
    refine ⟨nodup_cons.mpr ⟨hnot v rfl, hnodup⟩, fun l hl hmem => ?_⟩
    subst hl
    have hne : l ≠ v := by
      rintro rfl
      simp [sameInternalKey] at hnew
    -- the entry would be on both sides of the one between
    have hlt : l ∈ t := (skipRepeated_sublist _ _).subset ((mem_cons.mp hmem).resolve_left hne)
    obtain ⟨hle, heq⟩ := hlast l rfl v mem_cons_self
    refine hne (heq ?_)
    rcases hle with hlt' | ⟨hkey, hseq⟩
    · rcases hv l hlt with hlt'' | ⟨hkey', -⟩
      · exact absurd (List.lt_trans hlt' hlt'') (List.lt_irrefl _)
      · exact absurd (hkey' ▸ hlt') (List.lt_irrefl _)
    · rcases hv l hlt with hlt'' | ⟨-, hseq'⟩
      · exact absurd (hkey ▸ hlt'') (List.lt_irrefl _)
      · exact le_antisymm hseq' hseq

theorem mergeInternal_nodup {inputs : List Table} (hdistinct : Distinct inputs.flatten) :
    (mergeInternal inputs).Nodup :=
  (skipRepeated_nodup (sortInternal_pairwise _)
    (fun a ha b hb => hdistinct a (mem_sortInternal.mp ha) b (mem_sortInternal.mp hb)) none (by simp)).1

def Apart (a b : Table) : Prop := ∀ v ∈ a, ∀ w ∈ b, v.key ≠ w.key

theorem splitChunks_cut (target acc : Nat) (last : Option Key) (t : Table) :
    Cut WriteOp.key last t (splitChunks target acc last t) := by
  induction t generalizing acc last with
  | nil => exact .nil
  | cons v t ih =>
    simp only [splitChunks]
    split
    · rename_i hnew
      cases last with
      | none => simp at hnew
      | some k => exact .new (by simpa using (Bool.and_eq_true_iff.mp hnew).2) (.next (ih ..))
    · exact .next (ih ..)

theorem splitChunks_apart (target : Nat) (ht : t.Pairwise fun a b => a.key ≤ b.key) :
    (splitChunks target 0 none t).Pairwise Apart :=
  ((splitChunks_cut target 0 none t).apart ht (by simp)).1.imp fun h v hv w hw heq =>
    List.lt_irrefl _ (heq ▸ h v hv w hw)

section
variable (decision : Decision) (family : Key)

theorem filterMerge_keys (t : Table) (log : List Asked) (user : Option Key) (dropping : Bool) :
    ((filterMerge decision family log user dropping t).1.map WriteOp.key).Sublist
    (t.map WriteOp.key) := by
  induction t generalizing log user dropping with
  | nil => simp [filterMerge]
  | cons v t ih =>
    simp only [filterMerge]
    split
    · split
      · cases decision log family v.key v.value with
        | keep => exact (ih _ _ _).cons_cons _
        | remove => exact (ih _ _ _).cons_cons _
        | change value => exact (ih _ _ _).cons_cons _
      · exact (ih _ _ _).cons_cons _
    · split
      · exact (ih _ _ _).cons _
      · exact (ih _ _ _).cons_cons _

theorem filterMerge_sorted (ht : t.Pairwise InternalLe) (log : List Asked) :
    (filterMerge decision family log none false t).1.Pairwise fun a b => a.key ≤ b.key := by
  have hkeys : (t.map WriteOp.key).Pairwise (· ≤ ·) := by
    exact pairwise_map.mpr (ht.imp InternalLe.key_le)
  exact pairwise_map.mp (hkeys.sublist (filterMerge_keys decision family t log none false))

end

/-! ### One family, and all -/

def entriesOf (ssts : List Sst) : List WriteOp := ssts.flatMap Sst.table

/-- What a rewrite of files writes: files of the bottom level without a key in common, and
in them what was decided. -/
structure Rewritten (inputs out : List Sst) (asked : List Asked) : Prop where
  level : ∀ f ∈ out, f.level = maxLsmLevel
  apart : (out.map Sst.table).Pairwise Apart
  effect : Effect (entriesOf inputs) (entriesOf out) asked

section
variable (cfg : Config) (target : Nat) (decision : Decision)

theorem rewriteFamily_rewritten (cf : Key) {inputs : List Sst}
    (hdistinct : Distinct (entriesOf inputs)) (log : List Asked) :
    ∃ asked, (rewriteFamily cfg target decision cf inputs log).2 = log ++ asked ∧
      answered decision (familyName cf) log (newestPuts (mergeInternal (inputs.map Sst.table))) =
      log ++ asked ∧
      (cf ≠ [] → ∀ f ∈ (rewriteFamily cfg target decision cf inputs log).1, f.family = cf) ∧
      Rewritten inputs (rewriteFamily cfg target decision cf inputs log).1 asked := by
  have hflat : (inputs.map Sst.table).flatten = entriesOf inputs := by simp [entriesOf, flatMap_def]
  have hdistinct' : Distinct (inputs.map Sst.table).flatten := by rwa [hflat]
  obtain ⟨asked, hlog, hans, heff⟩ := filterMerge_effect decision (familyName cf)
    (mergeInternal_pairwise (inputs.map Sst.table)) (mergeInternal_nodup hdistinct') log
  have hsorted := filterMerge_sorted decision (familyName cf)
    (mergeInternal_pairwise (inputs.map Sst.table)) log
  have hout := (splitChunks_cut target 0 none
    (filterMerge decision (familyName cf) log none false
      (mergeInternal (inputs.map Sst.table))).1).flatten
  refine ⟨asked, hlog, hans, fun hcf f hf => ?_, fun f hf => ?_, ?_, ?_⟩
  · obtain ⟨t, -, rfl⟩ := mem_map.mp hf
    exact if_neg hcf
  · obtain ⟨t, -, rfl⟩ := mem_map.mp hf
    rfl
  · have htables : ((rewriteFamily cfg target decision cf inputs log).1.map Sst.table) =
      splitChunks target 0 none
        (filterMerge decision (familyName cf) log none false
          (mergeInternal (inputs.map Sst.table))).1 := by
      simp [rewriteFamily, Function.comp_def]
    rw [htables]
    exact splitChunks_apart target hsorted
  · refine heff.congr (fun v => ?_) fun w => ?_
    · rw [← hflat]
      exact ⟨mem_mergeInternal hdistinct', mem_of_mem_mergeInternal⟩
    · rw [← hout]
      simp [entriesOf, rewriteFamily]

theorem Rewritten.nil : Rewritten [] [] [] := ⟨by simp, by simp, Effect.nil⟩

theorem Rewritten.append {inputs inputs' out out' : List Sst} {asked asked' : List Asked}
    (h : Rewritten inputs out asked) (h' : Rewritten inputs' out' asked')
    (hapart : Apart (entriesOf inputs) (entriesOf inputs')) :
    Rewritten (inputs ++ inputs') (out ++ out') (asked ++ asked') := by
  refine ⟨fun f hf => (mem_append.mp hf).elim (h.level f) (h'.level f), ?_, ?_⟩
  · rw [map_append, pairwise_append]
    refine ⟨h.apart, h'.apart, fun t ht u hu v hv w hw heq => ?_⟩
    obtain ⟨f, hf, rfl⟩ := mem_map.mp ht
    obtain ⟨g, hg, rfl⟩ := mem_map.mp hu
    obtain ⟨v', hv', hkey⟩ := h.effect.key (mem_flatMap.mpr ⟨f, hf, hv⟩)
    obtain ⟨w', hw', hkey'⟩ := h'.effect.key (mem_flatMap.mpr ⟨g, hg, hw⟩)
    exact hapart v' hv' w' hw' (by rw [hkey, hkey', heq])
  · simp only [entriesOf, flatMap_append]
    exact h.effect.append h'.effect hapart

def FamiliesApart (ssts : List Sst) : Prop :=
  ∀ f ∈ ssts, ∀ g ∈ ssts, compactFamilyKey cfg f ≠ compactFamilyKey cfg g → Apart f.table g.table

/-- The files of other families are not asked about. -/
theorem consulted_filter (ssts : List Sst) {families : List Key} {cf : Key} (hcf : cf ∉ families)
    (log : List Asked) :
    consulted cfg decision (ssts.filter fun f => compactFamilyKey cfg f != cf) families log =
      consulted cfg decision ssts families log := by
  unfold consulted
  refine foldl_ext _ _ _ fun log cf' hcf' => ?_
  have hne : cf' ≠ cf := fun heq => hcf (heq ▸ hcf')
  have hsame : ∀ f : Sst, ((compactFamilyKey cfg f == cf') && (compactFamilyKey cfg f != cf)) =
      (compactFamilyKey cfg f == cf') := by
    intro f
    by_cases h : compactFamilyKey cfg f = cf' <;> simp [h, hne]
  simp only [filter_filter, hsame]

/-- The families one after the other. `done` are files that no family to come has. -/
theorem foldl_filterSsts {families : List Key} (hnodup : families.Nodup) (todo done : List Sst)
    (log : List Asked)
    (htodo : ∀ f ∈ todo, compactFamilyKey cfg f ∈ families)
    (hdone : ∀ f ∈ done, compactFamilyKey cfg f ∉ families) (hdistinct : Distinct (entriesOf todo))
    (hcfs : ∀ cf ∈ families, cfg.physicalCfs = [] ↔ cf = []) (hapart : FamiliesApart cfg todo) :
    ∃ out asked, families.foldl (filterSsts cfg target decision) (todo ++ done, log) =
    (done ++ out, log ++ asked) ∧
      consulted cfg decision todo families log = log ++ asked ∧
      ∃ inputs, (∀ f, f ∈ inputs ↔ f ∈ todo) ∧ Rewritten inputs out asked := by
  induction families generalizing todo done log with
  | nil =>
    obtain rfl : todo = [] := eq_nil_iff_forall_not_mem.mpr fun f hf => by simpa using htodo f hf
    exact ⟨[], [], by simp, by simp [consulted], [], by simp, Rewritten.nil⟩
  | cons cf rest ih =>
    obtain ⟨hcf, hnodup⟩ := nodup_cons.mp hnodup
    let key := compactFamilyKey cfg
    have hsub : ∀ {p : Sst → Bool}, ∀ v ∈ entriesOf (todo.filter p), v ∈ entriesOf todo := by
      intro p v hv
      obtain ⟨f, hf, hv⟩ := mem_flatMap.mp hv
      exact mem_flatMap.mpr ⟨f, (mem_filter.mp hf).1, hv⟩
    have hdone' : ∀ f ∈ done, key f ≠ cf := fun f hf heq => hdone f hf (heq ▸ mem_cons_self)
    have hin : (todo ++ done).filter (fun f => key f == cf) = todo.filter fun f => key f == cf := by
      have hnone : done.filter (fun f => key f == cf) = [] :=
        filter_eq_nil_iff.mpr (by simpa using hdone')
      rw [filter_append, hnone, append_nil]
    have hkeep : (todo ++ done).filter (fun f => key f != cf) =
        (todo.filter fun f => key f != cf) ++ done := by
      have hall : done.filter (fun f => key f != cf) = done := filter_eq_self.mpr (by simpa using hdone')
      rw [filter_append, hall]
    have hdistinct' : Distinct (entriesOf (todo.filter fun f => key f == cf)) :=
      fun v hv w hw => hdistinct v (hsub v hv) w (hsub w hw)
    obtain ⟨asked, hlog, hans, hfam, hrew⟩ :=
      rewriteFamily_rewritten cfg target decision cf hdistinct' log
    have hstep : filterSsts cfg target decision (todo ++ done, log) cf =
        ((todo.filter fun f => key f != cf) ++
          (done ++ (rewriteFamily cfg target decision cf (todo.filter fun f => key f == cf) log).1),
          log ++ asked) := by
      rw [← hlog, ← append_assoc, ← hkeep, ← hin]
      rfl
    obtain ⟨out, asked', hfold, hans', inputs, hinputs, hrew'⟩ :=
      ih hnodup (todo.filter fun f => key f != cf)
      (done ++ (rewriteFamily cfg target decision cf (todo.filter fun f => key f == cf) log).1)
      (log ++ asked)
      (fun f hf => by
        obtain ⟨hf, hne⟩ := mem_filter.mp hf
        exact (mem_cons.mp (htodo f hf)).resolve_left (by simpa using hne))
      (fun f hf => by
        rcases mem_append.mp hf with hf | hf
        · exact fun hmem => hdone f hf (mem_cons_of_mem _ hmem)
        have hkey : compactFamilyKey cfg f = cf := by
          have hnil := hcfs cf mem_cons_self
          rw [compactFamilyKey]
          split
          · rename_i hnone
            exact (hnil.mp hnone).symm
          · rename_i hsome
            exact hfam (fun h => hsome (hnil.mpr h)) f hf
        rwa [hkey])
      (fun v hv w hw => hdistinct v (hsub v hv) w (hsub w hw))
      (fun cf' hcf' => hcfs cf' (mem_cons_of_mem _ hcf'))
      (fun f hf g hg => hapart f (mem_filter.mp hf).1 g (mem_filter.mp hg).1)
    refine ⟨_, _, by rw [foldl_cons, hstep, hfold, append_assoc, append_assoc], ?_,
      (todo.filter fun f => key f == cf) ++ inputs, fun f => ?_, hrew.append hrew' ?_⟩
    · rw [consulted, foldl_cons, hans, ← consulted, ← consulted_filter cfg decision todo hcf, hans',
        append_assoc]
    · rw [mem_append, hinputs, mem_filter, mem_filter]
      by_cases h : key f = cf <;> simp [h]
    · intro v hv w hw
      obtain ⟨f, hf, hv⟩ := mem_flatMap.mp hv
      obtain ⟨g, hg, hw⟩ := mem_flatMap.mp hw
      obtain ⟨hf, hfcf⟩ := mem_filter.mp hf
      obtain ⟨hg, hgcf⟩ := mem_filter.mp ((hinputs g).mp hg)
      refine hapart f hf g hg (fun heq => ?_) v hv w hw
      have h1 : key f = cf := by simpa using hfcf
      have h2 : key g ≠ cf := by simpa using hgcf
      exact h2 (heq.symm.trans h1)

end

/-- **What a filter compaction does to the files.** -/
theorem compactFilterFamilies_rewritten (cfg : Config) (target : Nat) (decision : Decision)
    {ssts : List Sst}
    (hdistinct : Distinct (entriesOf ssts))
    (hnamed : cfg.physicalCfs ≠ [] → ∀ f ∈ ssts, f.family ≠ []) (hapart : FamiliesApart cfg ssts) :
    (compactFilterFamilies cfg target decision ssts).2 =
      consulted cfg decision ssts (compactFamilies cfg ssts) [] ∧
    ∃ inputs, (∀ f, f ∈ inputs ↔ f ∈ ssts) ∧ Rewritten inputs
      (compactFilterFamilies cfg target decision ssts).1
      (compactFilterFamilies cfg target decision ssts).2 := by
  have hnodup : (compactFamilies cfg ssts).Nodup := by
    refine (families_sorted _).imp ?_
    rintro f _ hlt rfl
    exact List.lt_irrefl _ hlt
  obtain ⟨out, asked, hfold, hans, inputs, hinputs, hrew⟩ :=
    foldl_filterSsts cfg target decision hnodup ssts [] []
    (fun f hf => mem_families.mpr (mem_map_of_mem hf)) (by simp) hdistinct
    (fun cf hcf => by
      obtain ⟨f, hf, rfl⟩ := mem_map.mp (mem_families.mp hcf)
      by_cases hnil : cfg.physicalCfs = []
      · simp [compactFamilyKey, hnil]
      · simp [compactFamilyKey, hnil, hnamed hnil f hf])
    hapart
  have hresult : compactFilterFamilies cfg target decision ssts = (out, asked) := by
    simpa [compactFilterFamilies] using hfold
  exact ⟨by rw [hresult, hans, nil_append], inputs, hinputs, by rwa [hresult]⟩

end PedraDb.Durable
