import PedraDb.Levels.Jobs

/-! Taking back a job whose MANIFEST could not be written.

The undo drops what the job wrote and puts the files that it took back, at the end of the
list. The list is the order in which files are asked, so they come back as the newest of
their level. Nothing is lost; but a file that stayed, or that was flushed meanwhile, is now
asked after an older file with the same key. -/
namespace PedraDb.Levels
open File
open List hiding lookup
open Layers (lookup walkRuns probeRun)
open Durable (sstRuns topLevel)

structure Undo where
  prevTables : List File
  oldPaths : List Nat
  newPaths : List Nat

def Job.undo (job : Job) (files news : List File) : Undo := ⟨files, job.inputs.map path, news.map path⟩

/-- The files after the undo. A file is put back unless it is there. -/
def Undo.undoPrepared (undo : Undo) (files : List File) : List File :=
  undo.prevTables.foldl
    (fun final t =>
      if undo.oldPaths.any (fun p => p == t.path) && !final.any (fun f => f.path == t.path)
        then final ++ [t] else final)
    (files.filter fun t => !undo.newPaths.any fun p => p == t.path)

theorem putBack_eq {took : File → Bool} (prev final : List File) (hpaths : (prev.map path).Nodup)
    (hgone : ∀ t ∈ prev, took t = true → ∀ f ∈ final, f.path ≠ t.path) :
    prev.foldl (fun final t => if took t && !final.any (fun f => f.path == t.path) then final ++ [t]
      else final) final =
      final ++ prev.filter took := by
  induction prev generalizing final with
  | nil => simp
  | cons t prev ih =>
    obtain ⟨ht, hpaths⟩ := nodup_cons.mp hpaths
    rw [foldl_cons]
    cases htook : took t with
    | false =>
      rw [filter_cons_of_neg (by simp [htook])]
      exact ih final hpaths fun u hu => hgone u (mem_cons_of_mem _ hu)
    | true =>
      have habsent : (final.any fun f => f.path == t.path) = false := by
        simpa using hgone t mem_cons_self htook
      rw [habsent, filter_cons_of_pos htook]
      refine (ih (final ++ [t]) hpaths fun u hu hutook f hf => ?_).trans (append_assoc ..)
      rcases mem_append.mp hf with hf | hf
      · exact hgone u (mem_cons_of_mem _ hu) hutook f hf
      · rw [mem_singleton.mp hf]
        exact fun hpath => ht (hpath ▸ mem_map_of_mem hu)

section
variable {job : Job} {files news flushed files' : List File}

/-- No two files, there or written or flushed meanwhile, have a path in common. -/
abbrev Fresh (files news flushed : List File) : Prop := ((files ++ news ++ flushed).map path).Nodup

theorem undoPrepared_eq (hfresh : Fresh files news flushed)
    (happly : job.applyPrepared files news = some files') :
    (job.undo files news).undoPrepared (files' ++ flushed) =
      (files ++ flushed).filter (fun f => !job.took f) ++ (files ++ flushed).filter job.took := by
  simp only [Fresh, map_append, nodup_append, mem_append, mem_map] at hfresh
  obtain ⟨⟨hfiles, _, hnews⟩, _, hflushed⟩ := hfresh
  rw [Job.applyPrepared] at happly
  split at happly
  swap
  · cases happly
  rename_i hlive
  cases happly
  have htook : ∀ t ∈ flushed, job.took t = false := by
    intro t ht
    refine Bool.eq_false_iff.mpr fun h => ?_
    obtain ⟨i, hi, hpath⟩ := any_eq_true.mp h
    obtain ⟨f, hf, hfi⟩ := any_eq_true.mp (all_eq_true.mp hlive i hi)
    exact hflushed _ (.inl ⟨f, hf, rfl⟩) _ ⟨t, ht, rfl⟩ ((beq_iff_eq.mp hfi).trans (beq_iff_eq.mp hpath))
  have hnone : flushed.filter job.took = [] := filter_eq_nil_iff.mpr fun t ht => by simp [htook t ht]
  have hall : flushed.filter (fun f => !job.took f) = flushed :=
    filter_eq_self.mpr fun t ht => by simp [htook t ht]
  have hdrop :
    ((files.filter (fun f => !job.took f) ++ news.map fun t : File =>
      { t with level := job.toLevel }) ++ flushed).filter
      (fun t => !(news.map path).any fun p => p == t.path) =
      files.filter (fun f => !job.took f) ++ flushed := by
    have hstay : ∀ t ∈ files.filter (fun f => !job.took f) ++ flushed,
        (!(news.map path).any fun p => p == t.path) = true := by
      intro t ht
      refine Bool.not_eq_true' _ |>.mpr (any_eq_false.mpr fun p hp => ?_)
      obtain ⟨n, hn, rfl⟩ := mem_map.mp hp
      rw [beq_iff_eq]
      rcases mem_append.mp ht with ht | ht
      · exact fun hpath => hnews _ ⟨t, (mem_filter.mp ht).1, rfl⟩ _ ⟨n, hn, rfl⟩ hpath.symm
      · exact hflushed _ (.inr ⟨n, hn, rfl⟩) _ ⟨t, ht, rfl⟩
    have hgone : (news.map fun t : File => { t with level := job.toLevel }).filter
        (fun t => !(news.map path).any fun p => p == t.path) = [] := by
      refine filter_eq_nil_iff.mpr fun t ht => ?_
      obtain ⟨n, hn, rfl⟩ := mem_map.mp ht
      simpa using ⟨n, hn, rfl⟩
    rw [filter_append, filter_append, hgone, append_nil, ← filter_append, filter_eq_self.mpr hstay]
  have hold : ∀ t : File, ((job.inputs.map path).any fun p => p == t.path) = job.took t := fun t => by
    rw [any_map]
    rfl
  simp only [Undo.undoPrepared, Job.undo, hold]
  rw [hdrop, putBack_eq files _ hfiles, filter_append, filter_append, hnone, hall, append_nil]
  intro t ht htooks f hf hpath
  rcases mem_append.mp hf with hf | hf
  · obtain ⟨hf, hkeep⟩ := mem_filter.mp hf
    rw [inj_on_of_nodup_map hfiles hf ht hpath, htooks] at hkeep
    cases hkeep
  · exact hflushed _ (.inl ⟨t, ht, rfl⟩) _ ⟨f, hf, rfl⟩ hpath.symm

end

variable {tombs tombs' : List WriteOp}

/-! ### Reads of the files -/

/-- The range deletions with which a lookup comes to the files, if nothing before them answers. -/
def reached (layers : List Table) (runs : List BulkRun) (family key : Key) (snap : Nat) :
    Option (List WriteOp) :=
  match walk key snap layers [] with
  | (some _, _) => none
  | (none, tombs) => if (lookupRuns key snap family tombs runs).isSome then none else some tombs

/-- The files of a level that have a point of the key for the snapshot. -/
def asked (files : List File) (level : Nat) (key : Key) (snap : Nat) : List File :=
  files.filter fun f => (pointAt f.table key snap).isSome && f.level == level

/-- The range deletions of the files down to a level. -/
def metDownTo (files : List File) (level snap : Nat) : List WriteOp :=
  (files.filter fun f => f.level ≤ level).flatMap fun f => collectRangeTombstones snap f.table

/-- What a lookup gives if this is the file it takes its point from. -/
def File.answer (f : File) (key : Key) (snap : Nat) (met : List WriteOp) : Lookup :=
  match pointAt f.table key snap with
  | some (seq, look) => shadowed key seq met look
  | none => .notFound

/-- Where a lookup comes to a level with points of the key, and the job took some of their
files, the newest of these files and the newest of all give one answer. -/
def Job.answersAlike (job : Job) (layers : List Table) (runs : List BulkRun) (familyOf : Key → Key)
    (files : List File) : Prop :=
  ∀ key snap tombs, reached layers runs (familyOf key) key snap = some tombs →
    ∀ level, (∀ f ∈ files, f.level < level → pointAt f.table key snap = none) →
      ∀ f ∈ (asked files level key snap).getLast?,
        ∀ t ∈ ((asked files level key snap).filter job.took).getLast?,
          t.answer key snap (tombs ++ metDownTo files level snap) =
            f.answer key snap (tombs ++ metDownTo files level snap)

/-- The run of a level, as a lookup asks it. -/
def levelRun (files : List File) (level : Nat) : List Table :=
  (((files.map toSst).filter fun f => f.level == level).map Durable.Sst.table).reverse

section Reads
variable {key : Key} {snap level : Nat} {all undone : List File}

theorem probeRun_filter (run : List Table) : probeRun key snap run =
    probeRun key snap (run.filter fun t => (pointAt t key snap).isSome) := by
  induction run with
  | nil => rfl
  | cons t run ih =>
    cases hpoint : pointAt t key snap with
    | none =>
      rw [filter_cons_of_neg (by simp [hpoint]), ← ih, probeRun, hpoint]
    | some p =>
      rw [filter_cons_of_pos (by simp [hpoint]), probeRun, probeRun, hpoint]

/-- A level answers with the last of its files that has a point. -/
theorem probeRun_levelRun (files : List File) (level : Nat) : probeRun key snap (levelRun files level) =
    (asked files level key snap).getLast?.bind fun f => pointAt f.table key snap := by
  have hasked : (levelRun files level).filter (fun t => (pointAt t key snap).isSome) =
      ((asked files level key snap).map fun f => f.table).reverse := by
    rw [levelRun, filter_reverse, filter_map, filter_map, filter_map, filter_filter, map_map]
    rfl
  have hpoint : ∀ f ∈ asked files level key snap, (pointAt f.table key snap).isSome = true :=
    fun f hf => (Bool.and_eq_true_iff.mp (mem_filter.mp hf).2).1
  rw [probeRun_filter, hasked]
  rcases eq_nil_or_concat (asked files level key snap) with hnil | ⟨init, f, hlast⟩
  · rw [hnil]
    rfl
  · rw [concat_eq_append] at hlast
    rw [hlast] at hpoint ⊢
    obtain ⟨p, hp⟩ := Option.isSome_iff_exists.mp (hpoint f (by simp))
    simp [probeRun, hp]

theorem mem_levelRun_tombs (r : WriteOp) :
    r ∈ (levelRun all level).flatMap (collectRangeTombstones snap) ↔
      ∃ f ∈ all, f.level = level ∧ r ∈ collectRangeTombstones snap f.table := by
  simp only [levelRun, mem_flatMap, mem_reverse, mem_map, mem_filter, beq_iff_eq]
  constructor
  · rintro ⟨t, ⟨sst, ⟨⟨f, hf, rfl⟩, hlevel⟩, rfl⟩, hr⟩
    exact ⟨f, hf, hlevel, hr⟩
  · rintro ⟨f, hf, hlevel, hr⟩
    exact ⟨f.table, ⟨f.toSst, ⟨⟨f, hf, rfl⟩, hlevel⟩, rfl⟩, hr⟩

theorem rangeDeleted_congr (h : ∀ r, r ∈ tombs ↔ r ∈ tombs') (seq : Nat) :
    rangeDeleted key seq tombs = rangeDeleted key seq tombs' := by
  rw [Bool.eq_iff_iff, Layers.rangeDeleted_iff, Layers.rangeDeleted_iff]
  simp [h]

theorem shadowed_congr (h : ∀ r, r ∈ tombs ↔ r ∈ tombs') (seq : Nat) (look : Lookup) :
    shadowed key seq tombs look = shadowed key seq tombs' look := by
  cases look <;> simp [shadowed, rangeDeleted_congr h]

/-- A walk over levels ends at the first that has a point. -/
theorem walkRuns_levels (files : List File) (n : Nat) (tombs : List WriteOp) :
    (∃ level < n, (∀ l < level, probeRun key snap (levelRun files l) = none) ∧
        ∃ p met, probeRun key snap (levelRun files level) = some p ∧
          walkRuns key snap ((range n).map (levelRun files)) tombs = (some p, met) ∧
          ∀ r, r ∈ met ↔ r ∈ tombs ++ metDownTo files level snap) ∨
      (∀ l < n, probeRun key snap (levelRun files l) = none) ∧
        ∃ met, walkRuns key snap ((range n).map (levelRun files)) tombs = (none, met) ∧
          ∀ r, r ∈ met ↔ r ∈ tombs ∨
            ∃ f ∈ files, f.level < n ∧ r ∈ collectRangeTombstones snap f.table := by
  -- from any level on, with what the levels above gave
  suffices hfrom : ∀ m a tombs', (∀ l < a, probeRun key snap (levelRun files l) = none) →
      (∀ r, r ∈ tombs' ↔ r ∈ tombs ∨
        ∃ f ∈ files, f.level < a ∧ r ∈ collectRangeTombstones snap f.table) → a + m = n →
      (∃ level < n, (∀ l < level, probeRun key snap (levelRun files l) = none) ∧
        ∃ p met, probeRun key snap (levelRun files level) = some p ∧
          walkRuns key snap ((range' a m).map (levelRun files)) tombs' = (some p, met) ∧
          ∀ r, r ∈ met ↔ r ∈ tombs ++ metDownTo files level snap) ∨
      (∀ l < n, probeRun key snap (levelRun files l) = none) ∧
        ∃ met, walkRuns key snap ((range' a m).map (levelRun files)) tombs' = (none, met) ∧
          ∀ r, r ∈ met ↔ r ∈ tombs ∨
            ∃ f ∈ files, f.level < n ∧ r ∈ collectRangeTombstones snap f.table by
    rw [range_eq_range']
    exact hfrom n 0 tombs (by simp) (by simp) (Nat.zero_add n)
  intro m
  induction m with
  | zero =>
    intro a tombs' hnone htombs hn
    obtain rfl : a = n := hn
    exact .inr ⟨hnone, tombs', rfl, htombs⟩
  | succ m ih =>
    intro a tombs' hnone htombs hn
    have hmet : ∀ r, r ∈ tombs' ++ (levelRun files a).flatMap (collectRangeTombstones snap) ↔
        r ∈ tombs ∨ ∃ f ∈ files, f.level < a + 1 ∧ r ∈ collectRangeTombstones snap f.table := by
      intro r
      rw [mem_append, htombs, mem_levelRun_tombs, or_assoc]
      refine or_congr_right ⟨fun h => ?_, fun h => ?_⟩
      · rcases h with ⟨f, hf, hlt, hr⟩ | ⟨f, hf, heq, hr⟩
        · exact ⟨f, hf, by omega, hr⟩
        · exact ⟨f, hf, by omega, hr⟩
      · obtain ⟨f, hf, hlt, hr⟩ := h
        rcases Nat.lt_or_eq_of_le (Nat.le_of_lt_succ hlt) with hlt | heq
        · exact .inl ⟨f, hf, hlt, hr⟩
        · exact .inr ⟨f, hf, heq, hr⟩
    rw [range'_succ, map_cons, walkRuns]
    cases hprobe : probeRun key snap (levelRun files a) with
    | some p =>
      refine .inl ⟨a, by omega, hnone, p, _, hprobe, rfl, fun r => ?_⟩
      rw [hmet, mem_append, metDownTo]
      simp [Nat.lt_succ_iff, and_assoc]
    | none =>
      refine ih (a + 1) _ (fun l hl => ?_) hmet (by omega)
      rcases Nat.lt_or_eq_of_le (Nat.le_of_lt_succ hl) with hl | rfl
      · exact hnone l hl
      · exact hprobe

theorem lookup_unreached {layers : List Table} {runs : List BulkRun} {family : Key}
    (h : reached layers runs family key snap = none) (files files' : List (List Table)) :
    lookup layers runs family files key snap = lookup layers runs family files' key snap := by
  unfold reached at h
  unfold lookup
  cases hwalk : walk key snap layers [] with
  | mk look tombs =>
    cases look with
    | some look => rfl
    | none =>
      rw [hwalk] at h
      dsimp only at h ⊢
      cases hruns : lookupRuns key snap family tombs runs with
      | some look => rfl
      | none => simp [hruns] at h

theorem lookup_reached {layers : List Table} {runs : List BulkRun} {family : Key}
    (h : reached layers runs family key snap = some tombs) (files : List (List Table)) :
    lookup layers runs family files key snap =
      match walkRuns key snap files tombs with
      | (some (seq, look), tombs) => shadowed key seq tombs look
      | (none, tombs) => if rangeDeleted key 0 tombs then .deleted else .notFound := by
  unfold reached at h
  unfold lookup
  cases hwalk : walk key snap layers [] with
  | mk look tombs' =>
    rw [hwalk] at h
    cases look with
    | some look => cases h
    | none =>
      dsimp only at h ⊢
      cases hruns : lookupRuns key snap family tombs' runs with
      | some look => simp [hruns] at h
      | none =>
        rw [hruns] at h
        obtain rfl : tombs' = tombs := Option.some.inj h
        rfl

theorem probeRun_none_iff (files : List File) (level : Nat) :
    probeRun key snap (levelRun files level) = none ↔
      ∀ f ∈ files, f.level = level → pointAt f.table key snap = none := by
  rw [probeRun_levelRun]
  constructor
  · intro h f hf hlevel
    by_contra hpoint
    have hasked : f ∈ asked files level key snap :=
      mem_filter.mpr ⟨hf, by simp [Option.isSome_iff_ne_none.mpr hpoint, hlevel]⟩
    have hg := getLast?_eq_some_getLast (ne_nil_of_mem hasked)
    generalize (asked files level key snap).getLast _ = g at hg
    rw [hg, Option.bind_some] at h
    have hg := (mem_filter.mp (mem_of_getLast? hg)).2
    rw [h] at hg
    cases hg
  · intro h
    have hnil : asked files level key snap = [] := by
      refine filter_eq_nil_iff.mpr fun f hf hpoint => ?_
      obtain ⟨hpoint, hlevel⟩ := Bool.and_eq_true_iff.mp hpoint
      rw [h f hf (beq_iff_eq.mp hlevel)] at hpoint
      cases hpoint
    rw [hnil]
    rfl

/-- A lookup that comes to the files takes the answer of the newest file on the first level
with a point. -/
theorem lookup_files {layers : List Table} {runs : List BulkRun} {family : Key}
    (h : reached layers runs family key snap = some tombs) (files : List File) :
    (∃ level f, (∀ g ∈ files, g.level < level → pointAt g.table key snap = none) ∧
        (asked files level key snap).getLast? = some f ∧
        lookup layers runs family (sstRuns (files.map toSst)) key snap =
          f.answer key snap (tombs ++ metDownTo files level snap)) ∨
      (∀ f ∈ files, pointAt f.table key snap = none) ∧
        ∃ met, lookup layers runs family (sstRuns (files.map toSst)) key snap =
            (if rangeDeleted key 0 met then .deleted else .notFound) ∧
          ∀ r, r ∈ met ↔ r ∈ tombs ∨ ∃ f ∈ files, r ∈ collectRangeTombstones snap f.table := by
  have htop : ∀ f ∈ files, f.level < topLevel (files.map toSst) + 1 := fun f hf =>
    Nat.lt_succ_of_le (Durable.foldr_max_le.mp le_rfl _ (mem_map_of_mem (mem_map_of_mem hf)))
  rw [lookup_reached h, sstRuns]
  rcases @walkRuns_levels key snap files (topLevel (files.map toSst) + 1) tombs with
    ⟨level, -, hnone, p, met, hprobe, hwalk, hmet⟩ | ⟨hnone, met, hwalk, hmet⟩
  · left
    rw [probeRun_levelRun] at hprobe
    obtain ⟨f, hf, hpoint⟩ := Option.bind_eq_some_iff.mp hprobe
    refine ⟨level, f, fun g hg hlt => ?_, hf, ?_⟩
    · exact (probeRun_none_iff files g.level).mp (hnone g.level hlt) g hg rfl
    · show (match walkRuns key snap ((range _).map (levelRun files)) tombs with
        | (some (seq, look), tombs) => shadowed key seq tombs look
        | (none, tombs) => if rangeDeleted key 0 tombs then .deleted else .notFound) = _
      rw [hwalk, File.answer, hpoint]
      exact shadowed_congr hmet p.1 p.2
  · right
    refine ⟨fun f hf => ?_, met, ?_, fun r => ?_⟩
    · exact (probeRun_none_iff files f.level).mp (hnone f.level (htop f hf)) f hf rfl
    · show (match walkRuns key snap ((range _).map (levelRun files)) tombs with
        | (some (seq, look), tombs) => shadowed key seq tombs look
        | (none, tombs) => if rangeDeleted key 0 tombs then .deleted else .notFound) = _
      rw [hwalk]
    · rw [hmet]
      refine or_congr_right (exists_congr fun f => and_congr_right fun hf => ?_)
      exact and_iff_right (htop f hf)

end Reads

/-! ### The undo -/

section
variable {job : Job} {files news flushed files' : List File}

theorem undoPrepared_perm (hfresh : Fresh files news flushed)
    (happly : job.applyPrepared files news = some files') :
    ((job.undo files news).undoPrepared (files' ++ flushed)).Perm (files ++ flushed) := by
  rw [undoPrepared_eq hfresh happly]
  exact perm_append_comm.trans (filter_append_perm job.took _)

/-- The undo puts the files that were taken behind the others, on each level. -/
theorem asked_undone {all undone : List File}
    (hundone : undone = all.filter (fun f => !job.took f) ++ all.filter job.took)
    (level : Nat) (key : Key) (snap : Nat) : asked undone level key snap =
      (asked all level key snap).filter (fun f => !job.took f) ++
        (asked all level key snap).filter job.took := by
  rw [asked, asked, hundone, filter_append, filter_comm, filter_comm _ job.took]

theorem mem_metDownTo_perm {all undone : List File} (hperm : undone.Perm all) (tombs : List WriteOp)
    (level snap : Nat) (r : WriteOp) :
    r ∈ tombs ++ metDownTo undone level snap ↔ r ∈ tombs ++ metDownTo all level snap := by
  simp [metDownTo, hperm.mem_iff]

theorem File.answer_congr {f : File} {key : Key} {snap : Nat} (h : ∀ r, r ∈ tombs ↔ r ∈ tombs') :
    f.answer key snap tombs = f.answer key snap tombs' := by
  unfold File.answer
  split
  · exact shadowed_congr h _ _
  · rfl

theorem asked_point {all : List File} {level : Nat} {key : Key} {snap : Nat} {f : File}
    (hf : (asked all level key snap).getLast? = some f) :
    f ∈ all ∧ f.level = level ∧ pointAt f.table key snap ≠ none := by
  obtain ⟨hmem, hasked⟩ := mem_filter.mp (mem_of_getLast? hf)
  obtain ⟨hpoint, hlevel⟩ := Bool.and_eq_true_iff.mp hasked
  exact ⟨hmem, beq_iff_eq.mp hlevel, Option.isSome_iff_ne_none.mp hpoint⟩

/-- The first level with a point is one. -/
theorem first_level_unique {all : List File} {level level' : Nat} {key : Key} {snap : Nat}
    {f f' : File} (hnone : ∀ g ∈ all, g.level < level → pointAt g.table key snap = none)
    (hnone' : ∀ g ∈ all, g.level < level' → pointAt g.table key snap = none)
    (hf : f ∈ all ∧ f.level = level ∧ pointAt f.table key snap ≠ none)
    (hf' : f' ∈ all ∧ f'.level = level' ∧ pointAt f'.table key snap ≠ none) : level = level' := by
  by_contra hne
  rcases Nat.lt_or_gt_of_ne hne with hlt | hlt
  · exact hf.2.2 (hnone' f hf.1 (hf.2.1 ▸ hlt))
  · exact hf'.2.2 (hnone f' hf'.1 (hf'.2.1 ▸ hlt))

/-- With the files that were taken behind the others, a lookup changes exactly where their
answer is another. -/
theorem lookup_undone_iff {all undone : List File} {layers : List Table} {runs : List BulkRun}
    {family key : Key} {snap : Nat}
    (hundone : undone = all.filter (fun f => !job.took f) ++ all.filter job.took) :
    lookup layers runs family (sstRuns (undone.map toSst)) key snap =
        lookup layers runs family (sstRuns (all.map toSst)) key snap ↔
      ∀ tombs, reached layers runs family key snap = some tombs →
        ∀ level, (∀ f ∈ all, f.level < level → pointAt f.table key snap = none) →
          ∀ f ∈ (asked all level key snap).getLast?,
            ∀ t ∈ ((asked all level key snap).filter job.took).getLast?,
              t.answer key snap (tombs ++ metDownTo all level snap) =
                f.answer key snap (tombs ++ metDownTo all level snap) := by
  cases hreached : reached layers runs family key snap with
  | none => exact iff_of_true (lookup_unreached hreached _ _) (by simp)
  | some tombs =>
    have hperm : undone.Perm all :=
      hundone ▸ perm_append_comm.trans (filter_append_perm job.took _)
    rcases lookup_files hreached all with ⟨level, f, hnone, hf, hlookup⟩ | ⟨hnone, met, hlookup, hmet⟩
    · -- the first level with a point is that of both
      obtain ⟨f', hf', hlookup'⟩ : ∃ f', (asked undone level key snap).getLast? = some f' ∧
          lookup layers runs family (sstRuns (undone.map toSst)) key snap =
            f'.answer key snap (tombs ++ metDownTo all level snap) := by
        rcases lookup_files hreached undone with ⟨level', f', hnone', hf', hlookup'⟩ | ⟨hnone', -⟩
        · obtain ⟨hmem', hpoint'⟩ := asked_point hf'
          obtain rfl := first_level_unique hnone (fun g hg => hnone' g (hperm.mem_iff.mpr hg))
            (asked_point hf) ⟨hperm.mem_iff.mp hmem', hpoint'⟩
          exact ⟨f', hf', hlookup'.trans (File.answer_congr (mem_metDownTo_perm hperm tombs _ snap))⟩
        · obtain ⟨hmem, -, hpoint⟩ := asked_point hf
          exact absurd (hnone' f (hperm.mem_iff.mpr hmem)) hpoint
      rw [hlookup, hlookup']
      rw [asked_undone hundone, getLast?_append] at hf'
      constructor
      · intro heq tombs₁ htombs level₁ hnone₁ f₁ hf₁ t ht
        obtain rfl := Option.some.inj htombs
        obtain rfl := first_level_unique hnone hnone₁ (asked_point hf) (asked_point hf₁)
        obtain rfl : f = f₁ := Option.some.inj (hf.symm.trans hf₁)
        rw [Option.mem_def.mp ht, Option.some_or] at hf'
        obtain rfl : t = f' := Option.some.inj hf'
        exact heq
      · intro halike
        cases htaken : ((asked all level key snap).filter job.took).getLast? with
        | some t =>
          rw [htaken, Option.some_or] at hf'
          obtain rfl : t = f' := Option.some.inj hf'
          exact halike tombs rfl level hnone f hf t htaken
        | none =>
          have hstay : (asked all level key snap).filter (fun f => !job.took f) =
              asked all level key snap := by
            refine filter_eq_self.mpr fun g hg => ?_
            simpa using filter_eq_nil_iff.mp (getLast?_eq_none_iff.mp htaken) g hg
          rw [htaken, hstay, Option.none_or] at hf'
          rw [Option.some.inj (hf'.symm.trans hf)]
    · refine iff_of_true ?_ fun tombs₁ htombs level₁ hnone₁ f₁ hf₁ => ?_
      · rcases lookup_files hreached undone with ⟨level', f', -, hf', -⟩ | ⟨-, met', hlookup', hmet'⟩
        · obtain ⟨hmem', -, hpoint'⟩ := asked_point hf'
          exact absurd (hnone f' (hperm.mem_iff.mp hmem')) hpoint'
        · have hsame : ∀ r, r ∈ met' ↔ r ∈ met := by
            intro r
            rw [hmet', hmet]
            simp [hperm.mem_iff]
          rw [hlookup, hlookup', rangeDeleted_congr hsame]
      · obtain ⟨hmem₁, -, hpoint₁⟩ := asked_point hf₁
        exact absurd (hnone f₁ hmem₁) hpoint₁

/-- **After the undo every read is that of a store that never ran the job exactly if**, where a
lookup meets files that were taken, their answer is that of the newest file. The files are in
any case those of that store. -/
theorem undo_invisible (hfresh : Fresh files news flushed)
    (happly : job.applyPrepared files news = some files') (layers : List Table)
    (runs : List BulkRun) (familyOf : Key → Key) :
    ((job.undo files news).undoPrepared (files' ++ flushed)).Perm (files ++ flushed) ∧
    ((∀ key snap, lookup layers runs (familyOf key)
          (sstRuns (((job.undo files news).undoPrepared (files' ++ flushed)).map File.toSst)) key snap =
        lookup layers runs (familyOf key) (sstRuns ((files ++ flushed).map File.toSst)) key snap) ↔
      job.answersAlike layers runs familyOf (files ++ flushed)) :=
  ⟨undoPrepared_perm hfresh happly, forall_congr' fun _ => forall_congr' fun _ =>
    lookup_undone_iff (undoPrepared_eq hfresh happly)⟩

def points (t : Table) : Table := t.filter fun v => v.kind != .rangeDeletion

/-- No file that the job took is older than one that stays on its level, or is flushed
meanwhile, and has a point of the same key. -/
def Job.lastOfItsKeys (job : Job) (files : List File) : Bool :=
  decide (files.Pairwise fun f g => f.level = g.level →
    shares (points f.table) (points g.table) = true → job.took f = true → job.took g = true)

theorem shares_of_pointAt {t u : Table} {key : Key} {snap : Nat} (ht : pointAt t key snap ≠ none)
    (hu : pointAt u key snap ≠ none) : shares (points t) (points u) = true := by
  have hpoint : ∀ t : Table, pointAt t key snap ≠ none → ∃ v ∈ points t, v.key = key := by
    intro t ht
    rw [pointAt, Ne, Option.map_eq_none_iff] at ht
    obtain ⟨v, hv⟩ := Option.ne_none_iff_exists'.mp ht
    obtain ⟨hmem, hkey, _⟩ := newestVersion_mem hv
    exact ⟨v, hmem, hkey⟩
  obtain ⟨v, hv, rfl⟩ := hpoint t ht
  obtain ⟨w, hw, hkey⟩ := hpoint u hu
  exact any_eq_true.mpr ⟨v, hv, any_eq_true.mpr ⟨w, hw, beq_iff_eq.mpr hkey.symm⟩⟩

/-- Where a job takes the newest files of its keys the undo is invisible, whatever is in front
of the files. -/
theorem Job.lastOfItsKeys.answersAlike (h : job.lastOfItsKeys files = true) (layers : List Table)
    (runs : List BulkRun) (familyOf : Key → Key) : job.answersAlike layers runs familyOf files := by
  intro key snap tombs _ level _ f hf t ht
  have hpoint : ∀ g ∈ asked files level key snap, g.level = level ∧ pointAt g.table key snap ≠ none := by
    intro g hg
    obtain ⟨hpoint, hlevel⟩ := Bool.and_eq_true_iff.mp (mem_filter.mp hg).2
    exact ⟨beq_iff_eq.mp hlevel, Option.isSome_iff_ne_none.mp hpoint⟩
  have hturn := (of_decide_eq_true h).sublist (filter_sublist (p := fun f =>
    (pointAt f.table key snap).isSome && f.level == level))
  obtain ⟨init, hinit⟩ := getLast?_eq_some_iff.mp (Option.mem_def.mp hf)
  change (asked files level key snap).Pairwise _ at hturn
  rw [hinit] at hturn hpoint ht
  by_cases htook : job.took f = true
  · rw [filter_append, filter_cons_of_pos htook, filter_nil, getLast?_concat] at ht
    rw [Option.some.inj ht]
  · rw [filter_append, filter_cons_of_neg htook, filter_nil, append_nil] at ht
    obtain ⟨hmem, htaken⟩ := mem_filter.mp (mem_of_getLast? ht)
    obtain ⟨htlevel, htpoint⟩ := hpoint t (mem_append_left _ hmem)
    obtain ⟨hflevel, hfpoint⟩ := hpoint f (mem_append_right _ mem_cons_self)
    have hrule := (pairwise_append.mp hturn).2.2 t hmem f mem_cons_self
    exact absurd (hrule (htlevel.trans hflevel.symm) (shares_of_pointAt htpoint hfpoint) htaken) htook

end

/-- The job took the newest file of the key, and one with another key was flushed meanwhile. -/
theorem undo_invisible_of_newest :
    let files := [keyFile 0 1 [1], keyFile 0 2 [2]]
    let flushed : List File := [⟨⟨[], 0, [.put 3 [108] [5]]⟩, 4, 1⟩]
    lookup [] [] [] (sstRuns (((Job.undo ⟨[keyFile 0 2 [2]], 1⟩ files [keyFile 0 3 [2]]).undoPrepared
      ([keyFile 0 1 [1], keyFile 1 3 [2]] ++ flushed)).map File.toSst)) [107] 3 =
    lookup [] [] [] (sstRuns ((files ++ flushed).map File.toSst)) [107] 3 :=
  (@undo_invisible ⟨[keyFile 0 2 [2]], 1⟩ _ [keyFile 0 3 [2]] _ [keyFile 0 1 [1], keyFile 1 3 [2]]
    (by decide) (by decide) [] [] fun _ => []).2.mpr
    (Job.lastOfItsKeys.answersAlike (by decide) _ _ _) [107] 3

/-- The newer of two files deletes the key. -/
def bounded : List File := [keyFile 0 1 [1], ⟨⟨[], 0, [.delete 2 [107]]⟩, 2, 1⟩]

/-- A job bounded to one file takes the older one; taken back it is asked first, and the deleted
key is there again. -/
theorem undo_revives : ∃ (job : Job) (news files' : List File),
    prepareL0Compact leveledConfig bounded (some 1) = some job ∧
    job.Wrote news ∧ Fresh bounded news [] ∧ job.applyPrepared bounded news = some files' ∧
    lookup [] [] [] (sstRuns (bounded.map File.toSst)) [107] 2 = .deleted ∧
    lookup [] [] [] (sstRuns (((job.undo bounded news).undoPrepared files').map File.toSst))
    [107] 2 = .found [5] :=
  ⟨⟨[keyFile 0 1 [1]], 1⟩, [keyFile 0 3 [1]], [⟨⟨[], 0, [.delete 2 [107]]⟩, 2, 1⟩, keyFile 1 3 [1]],
    by decide +kernel,
    ⟨by decide +kernel, pairwise_singleton _ _⟩,
    by decide, by decide, by decide +kernel, by decide +kernel⟩

end PedraDb.Levels
