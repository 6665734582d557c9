import PedraDb.Durable.State

/-! Where a logged operation is kept.

A logged operation stays in the live segment until a rotation. A rotation finds the
memtables empty, so what the segment holds has gone into files or, with its family, into a
bulk run. If the segment is dropped, the MANIFEST lists the files; if it is archived, the
operations that are not listed lie above everything that any MANIFEST written or still to
be written lists, so that a reopen replays them. Archives go once the MANIFEST covers them
all. `Covered` is this, kept by every step; the one thing a rotation has to be told is that
the operations of the segment that went into a run are listed (`Covered.rotate`).

What it means that an inventory accounts for an operation is a parameter: that some file
holds it, or that it went into the files before they were rewritten. -/
namespace PedraDb.Durable
open List State
variable {cfg : Config} {inv : Inventory} {family key : Key} {v : WriteOp}
    {puts : List (Key × Value)} {level : Key → Nat}

/-! ### Sequences in files -/

theorem foldr_max_le {l : List Nat} {n : Nat} : l.foldr max 0 ≤ n ↔ ∀ m ∈ l, m ≤ n := by
  induction l with
  | nil => simp
  | cons m l ih => rw [foldr_cons, Nat.max_le, ih, forall_mem_cons]

variable {b : Nat}

theorem foldr_max_lt {l : List Nat} (hb : 0 < b) (h : ∀ n ∈ l, n < b) : l.foldr max 0 < b :=
  Nat.lt_of_le_pred hb (foldr_max_le.mpr fun n hn => Nat.le_pred_of_lt (h n hn))

theorem mem_entries : v ∈ inv.entries ↔ ∃ f ∈ inv.ssts, v ∈ f.table := mem_flatMap

theorem sstMaxSequenceFloor_lt (hb : 0 < b) (h : ∀ v ∈ inv.entries, v.sequence < b) :
    sstMaxSequenceFloor inv < b := by
  refine foldr_max_lt hb fun n hn => ?_
  obtain ⟨f, hf, rfl⟩ := mem_map.mp hn
  refine foldr_max_lt hb fun m hm => ?_
  obtain ⟨v, hv, rfl⟩ := mem_map.mp hm
  exact h v (mem_entries.mpr ⟨f, hf, hv⟩)

theorem cfManifestFloor_lt (hb : 0 < b) (h : ∀ v ∈ inv.entries, v.sequence < b)
    (lossy : Lossy) (family : Key) : cfManifestFloor lossy inv family < b := by
  refine sstMaxSequenceFloor_lt hb fun v hv => ?_
  obtain ⟨f, hf, hv⟩ := mem_entries.mp hv
  exact h v (mem_entries.mpr ⟨f, (mem_filter.mp hf).1, hv⟩)

/-- A flush writes nothing that was not in the memtable. -/
theorem writeImmL0Files_subset {t : Table}
    (hv : v ∈ (writeImmL0Files cfg level t).flatMap Sst.table) : v ∈ t := by
  obtain ⟨g, hg, hv⟩ := mem_flatMap.mp hv
  obtain ⟨f, hf, rfl⟩ := mem_map.mp hg
  exact flushFiles_subset hf hv

/-- A flush that drops no family writes all of it. -/
theorem mem_writeImmL0Files {t : Table}
    (h : flushTakesAll cfg.lossy cfg.physicalCfs t = true) :
    v ∈ (writeImmL0Files cfg level t).flatMap Sst.table ↔ v ∈ t := by
  rw [writeImmL0Files, flatMap_map]
  exact mem_flushFiles.mpr h v

theorem numberPuts_sequence {seq : Nat} (hv : v ∈ numberPuts seq puts) :
    seq ≤ v.sequence ∧ v.sequence < seq + puts.length := by
  induction puts generalizing seq with
  | nil => cases hv
  | cons p puts ih =>
    rw [numberPuts] at hv
    rw [length_cons]
    rcases mem_cons.mp hv with rfl | hv
    · simp only [WriteOp.put]
      omega
    · have := ih hv
      omega

/-! ### The invariant -/

/-- What a crash loses of the store itself. -/
def State.memory (s : State) : List WriteOp := s.mem ++ s.imm.toList.flatten

/-- The active segment, with the records that are not in the file yet. -/
def State.segment (s : State) : List WriteOp := s.wal ++ s.staged

/-- The files as they are, those CURRENT lists, and those of the MANIFESTs still to be
written. -/
def State.inventories (s : State) : List Inventory := s.inventory :: s.current :: s.pending.map Prod.snd

/-- The sorted runs that are not in a file, wherever they wait. -/
def State.runs (s : State) : List BulkRun := s.bulkRuns ++ s.parkedBulk ++ s.bulkEncodings

section Covered
variable (keeps : Inventory → WriteOp → Prop)

/-- An archived operation that CURRENT may not account for: it is in files, above the
published floor, and above all entries of every inventory that does not account for it. -/
structure Waits (s : State) (o : WriteOp) : Prop where
  flushed : o ∈ s.inventory.flushed
  above : s.manifestPublishedSeq < o.sequence
  within : o.sequence ≤ s.walArchiveMaxSeq
  replayed : ∀ inv ∈ s.inventories, keeps inv o ∨ ∀ v ∈ inv.entries, v.sequence < o.sequence

/-- **Where things are kept.** What is logged is in the active segment, in an archived one
or in what the MANIFEST on disk lists, and what only an archive has is replayed under every
MANIFEST that can be on disk. -/
structure Covered (s : State) : Prop where
  positive : 0 < s.nextSeq
  memory : ∀ o ∈ s.memory, o.sequence < s.nextSeq
  segment : ∀ o ∈ s.segment, o.sequence < s.nextSeq
  entries : ∀ inv ∈ s.inventories, ∀ v ∈ inv.entries, v.sequence < s.nextSeq
  walless : s.wallessSeqHigh < s.nextSeq
  runs : ∀ run ∈ s.runs, ∀ v ∈ run.entries, v.sequence ≤ s.wallessSeqHigh
  recent : ∀ x ∈ s.imm.toList.flatten, ∀ o ∈ s.mem, x.sequence < o.sequence
  /-- What memtables hold, or brought into files since, is above what an inventory lists,
  sorted ingest apart. -/
  behind : ∀ inv ∈ s.inventories, ∀ o ∈ s.memory ++ s.inventory.flushed, o ∉ inv.flushed →
    ∀ v ∈ inv.entries, v.sequence < o.sequence ∨ v.sequence ≤ s.wallessSeqHigh
  epochs : s.writtenEpoch ≤ s.manifestEpoch ∧ ∀ p ∈ s.pending, p.1 ≤ s.manifestEpoch
  grown : ∀ inv ∈ s.inventories, ∀ o, keeps inv o → keeps s.inventory o
  newer : ∀ p ∈ s.pending, s.writtenEpoch < p.1 → ∀ o, keeps s.current o → keeps p.2 o
  pending : ∀ p ∈ s.pending, ∀ q ∈ s.pending, p.1 ≤ q.1 → ∀ o, keeps p.2 o → keeps q.2 o
  clean : s.manifestDirty = false → ∀ o ∈ s.inventory.flushed, keeps s.current o
  floor : ∀ o ∈ s.inventory.flushed, keeps s.current o ∨ s.unpublishedBelowFloor = true ∨
    s.manifestPublishedSeq < o.sequence
  held : ∀ o ∈ s.segment, o ∈ s.memory ∨ o ∈ s.inventory.flushed ∨ o ∈ s.absorbed
  archived : ∀ o ∈ s.archives.flatten, keeps s.current o ∨ Waits keeps s o
  logged : ∀ o ∈ s.logged, o ∈ s.segment ∨ o ∈ s.archives.flatten ∨ keeps s.current o
  acked : ∀ o ∈ s.acked, o ∈ s.wal ∨ o ∈ s.archives.flatten ∨ keeps s.current o

variable {keeps} {s s' : State}

theorem Covered.empty : Covered keeps .empty := by
  have hinv : ∀ inv ∈ State.empty.inventories, inv = .empty := by simp [State.inventories, State.empty]
  refine ⟨by decide, ?_, ?_, ?_, by decide, ?_, ?_, ?_, by
    simp [State.empty], ?_, ?_, ?_, ?_, ?_, ?_, ?_, ?_, ?_⟩
  · simp [State.memory, State.empty]
  · simp [State.segment, State.empty]
  · intro inv hin
    simp [hinv inv hin, Inventory.entries, Inventory.empty]
  · simp [State.runs, State.empty]
  · simp [State.empty]
  · intro inv _ o ho
    simp [State.memory, State.empty, Inventory.empty] at ho
  · intro inv hin o ho
    rw [hinv inv hin] at ho
    exact ho
  all_goals simp [State.empty, State.segment, Inventory.empty]

/-! ### Writes -/

/-- A MANIFEST written in place names no new inventory. -/
theorem persistManifest_inventories (s : State) : ∀ inv ∈ s.persistManifest.inventories,
    inv ∈ s.inventories := by
  intro inv hinv
  simp only [inventories, persistManifest, mem_cons] at hinv ⊢
  tauto

theorem takeManifestPersist_inventories (s : State) :
    ∀ inv ∈ s.takeManifestPersist.inventories, inv ∈ s.inventories := by
  intro inv hinv
  simp only [inventories, takeManifestPersist, map_append, mem_cons, mem_append,
    map_cons, map_nil, not_mem_nil, or_false] at hinv ⊢
  tauto

section
variable (h : Covered keeps s)
include h

/-- A sequence yet to be given is above all that the files hold. -/
theorem Covered.new_behind (hinv : inv ∈ s.inventories) {o : WriteOp}
    (ho : s.nextSeq ≤ o.sequence) (hv : v ∈ inv.entries) : v.sequence < o.sequence :=
  Nat.lt_of_lt_of_le (h.entries inv hinv v hv) ho

/-- New operations go to the memtable. -/
theorem Covered.apply (recs : List WriteOp) {next : Nat} (hnext : s.nextSeq ≤ next)
    (hrecs : ∀ v ∈ recs, s.nextSeq ≤ v.sequence ∧ v.sequence < next) (published : Nat) :
    Covered keeps { s with nextSeq := next, publishedSeq := published, mem := s.mem ++ recs } := by
  have hmem : ∀ o ∈ (s.mem ++ recs) ++ s.imm.toList.flatten, o ∈ s.memory ∨ o ∈ recs := by
    intro o ho
    simp only [State.memory, mem_append] at ho ⊢
    tauto
  refine { h with
    positive := Nat.lt_of_lt_of_le h.positive hnext
    memory := fun o ho => ?_
    segment := fun o ho => Nat.lt_of_lt_of_le (h.segment o ho) hnext
    entries := fun inv hinv v hv => Nat.lt_of_lt_of_le (h.entries inv hinv v hv) hnext
    walless := Nat.lt_of_lt_of_le h.walless hnext
    recent := fun x hx o ho => ?_
    behind := fun inv hinv o ho hnot v hv => ?_
    archived := fun o ho => (h.archived o ho).imp_right fun hw => { hw with }
    held := fun o ho => ?_ }
  · rcases hmem o ho with ho | ho
    · exact Nat.lt_of_lt_of_le (h.memory o ho) hnext
    · exact (hrecs o ho).2
  · rcases mem_append.mp ho with ho | ho
    · exact h.recent x hx o ho
    · exact Nat.lt_of_lt_of_le (h.memory x (mem_append_right _ hx)) (hrecs o ho).1
  · rcases mem_append.mp ho with ho | ho
    · rcases hmem o ho with ho | ho
      · exact h.behind inv hinv o (mem_append_left _ ho) hnot v hv
      · exact .inl (h.new_behind hinv (hrecs o ho).1 hv)
    · exact h.behind inv hinv o (mem_append_right _ ho) hnot v hv
  · refine (h.held o ho).imp_left fun ho => ?_
    simp only [State.memory, mem_append] at ho ⊢
    tauto

/-- Operations that are in memory go to the log. -/
theorem Covered.log (recs : List WriteOp)
    (hrecs : ∀ v ∈ recs, v.sequence < s.nextSeq ∧ v ∈ s.memory) (sync : Bool) :
    Covered keeps { s.appendRecord recs sync with logged := s.logged ++ recs } := by
  have hnew : ∀ o ∈ s.segment ++ recs, o.sequence < s.nextSeq ∧
      (o ∈ s.memory ∨ o ∈ s.inventory.flushed ∨ o ∈ s.absorbed) :=
    forall_mem_append.mpr ⟨fun o ho => ⟨h.segment o ho, h.held o ho⟩,
      fun o ho => ⟨(hrecs o ho).1, .inl (hrecs o ho).2⟩⟩
  have hlogged : ∀ o ∈ s.logged ++ recs, o ∈ s.segment ++ recs ∨ o ∈ s.archives.flatten ∨
    keeps s.current o :=
    forall_mem_append.mpr ⟨fun o ho => (h.logged o ho).imp_left (mem_append_left _),
      fun o ho => .inl (mem_append_right _ ho)⟩
  have harchived : ∀ o ∈ s.archives.flatten, keeps s.current o ∨
      Waits keeps { s.appendRecord recs sync with logged := s.logged ++ recs } o := by
    intro o ho
    refine (h.archived o ho).imp_right fun hw => ?_
    cases sync <;> exact { hw with }
  cases sync
  · have hseg : s.wal ++ (s.staged ++ recs) = s.segment ++ recs := by simp [State.segment]
    refine { h with
      segment := fun o ho => (hnew o (hseg ▸ ho)).1
      held := fun o ho => (hnew o (hseg ▸ ho)).2
      archived := harchived
      logged := fun o ho => ?_ }
    rw [State.segment]
    exact hseg ▸ hlogged o ho
  · have hseg : (s.wal ++ s.staged ++ recs) ++ [] = s.segment ++ recs := by simp [State.segment]
    refine { h with
      segment := fun o ho => (hnew o (hseg ▸ ho)).1
      held := fun o ho => (hnew o (hseg ▸ ho)).2
      archived := harchived
      logged := fun o ho => ?_
      acked := fun o ho => ?_ }
    · rw [State.segment]
      exact hseg ▸ hlogged o ho
    · rcases mem_append.mp ho with ho | ho
      · refine (h.acked o ho).imp_left fun ho => ?_
        simp [State.appendRecord, ho]
      · exact .inl (by simp [State.appendRecord, ho])

theorem Covered.commitOps {ops : List BatchOp} {sync : Bool} (hs : s.commitOps ops sync = some s') :
    Covered keeps s' := by
  simp only [State.commitOps] at hs
  split at hs
  · cases hs
  · have happly := h.apply (stampedFrom s.nextSeq ops) (Nat.le_add_right s.nextSeq ops.length)
      (fun v hv => stampedFrom_sequence hv) (max s.publishedSeq (s.nextSeq + ops.length - 1))
    have hlog := happly.log (stampedFrom s.nextSeq ops)
      (fun v hv => ⟨(stampedFrom_sequence hv).2, by simp [State.memory, hv]⟩) sync
    cases sync <;> cases hs <;> exact hlog

/-- The mark of what bypassed the log only rises. -/
theorem Covered.raise {seq : Nat} (hseq : seq < s.nextSeq) :
    Covered keeps { s with wallessSeqHigh := max s.wallessSeqHigh seq } := by
  refine { h with
    walless := Nat.max_lt.mpr ⟨h.walless, hseq⟩
    runs := fun run hrun v hv => Nat.le_trans (h.runs run hrun v hv) (Nat.le_max_left _ _)
    behind := fun inv hinv o ho hnot v hv =>
      (h.behind inv hinv o ho hnot v hv).imp_right fun hle => Nat.le_trans hle (Nat.le_max_left _ _)
    archived := fun o ho => (h.archived o ho).imp_right fun hw => { hw with } }

/-- A put onto the tail of a run never reaches the log. -/
theorem Covered.tailPut {value : Value} (hs : s.tailPut key value = some s') : Covered keeps s' := by
  rw [State.tailPut] at hs
  split at hs
  · cases hs
  cases hs
  refine (h.apply [.put s.nextSeq key (escapeInlineValue value)] (Nat.le_succ s.nextSeq) ?_
    (max s.publishedSeq s.nextSeq)).raise (Nat.lt_succ_self s.nextSeq)
  intro v hv
  obtain rfl := mem_singleton.mp hv
  exact ⟨.refl, Nat.lt_succ_self _⟩

/-! ### Sorted ingest -/

/-- What a run takes out of the memtable is accounted for by the mark. -/
theorem Covered.absorb (mem' taken : Table) {runs' : List BulkRun} {high : Nat}
    (hmem : ∀ o ∈ s.mem, o ∈ mem' ∨ o ∈ taken) (hmem' : ∀ o ∈ mem', o ∈ s.mem)
    (hlow : s.wallessSeqHigh ≤ high)
    (hhigh : high < s.nextSeq) (hruns : ∀ run ∈ runs', ∀ v ∈ run.entries, v.sequence ≤ high) :
    Covered keeps
      { s with mem := mem', bulkRuns := runs', absorbed := s.absorbed ++
        taken, wallessSeqHigh := high } := by
  have hsub : ∀ o ∈ mem' ++ s.imm.toList.flatten, o ∈ s.memory :=
    forall_mem_append.mpr ⟨fun o ho => mem_append_left _ (hmem' o ho), fun o => mem_append_right _⟩
  refine { h with
    memory := fun o ho => h.memory o (hsub o ho)
    walless := hhigh
    runs := fun run hrun v hv => ?_
    recent := fun x hx o ho => h.recent x hx o (hmem' o ho)
    behind := fun inv hinv o ho hnot v hv => ?_
    held := fun o ho => ?_
    archived := fun o ho => (h.archived o ho).imp_right fun hw => { hw with } }
  · simp only [State.runs, mem_append] at hrun
    rcases hrun with (hrun | hrun) | hrun
    · exact hruns run hrun v hv
    · exact Nat.le_trans (h.runs run (by simp [State.runs, hrun]) v hv) hlow
    · exact Nat.le_trans (h.runs run (by simp [State.runs, hrun]) v hv) hlow
  · have ho' : o ∈ s.memory ++ s.inventory.flushed := by
      rcases mem_append.mp ho with ho | ho
      · exact mem_append_left _ (hsub o ho)
      · exact mem_append_right _ ho
    exact (h.behind inv hinv o ho' hnot v hv).imp_right fun hle => Nat.le_trans hle hlow
  · simp only [State.memory, mem_append]
    rcases h.held o ho with hm | hf | ha
    · rcases mem_append.mp hm with hm | hm
      · have := hmem o hm
        tauto
      · tauto
    · tauto
    · tauto

theorem Covered.parkRun (family : Key) : Covered keeps (s.parkRun family) := by
  refine { h with
    runs := fun run hrun => h.runs run ?_
    archived := fun o ho => (h.archived o ho).imp_right fun hw => { hw with } }
  simp only [State.runs, State.parkRun, mem_append, mem_filter] at hrun ⊢
  tauto

end

theorem mem_takeFamily {mem : Table} {o : WriteOp} (ho : o ∈ mem) :
    o ∈ (takeFamily mem family).2 ∨ o ∈ (takeFamily mem family).1 := by
  simp only [takeFamily, mem_filter, ho, true_and, Bool.not_eq_true']
  cases keyInCfFamily o.key family <;> simp

/-- Opening a run moves entries from the memtable to it, and makes none. -/
theorem openRun_spec (s : State) (family : Key) :
    (∀ o ∈ s.mem, o ∈ (s.openRun family).1 ∨ o ∈ (s.openRun family).2.2) ∧
      (∀ o ∈ (s.openRun family).1, o ∈ s.mem) ∧
      ∀ v ∈ (s.openRun family).2.1.flatMap BulkRun.entries,
      v ∈ s.bulkRuns.flatMap BulkRun.entries ∨ v ∈ s.mem := by
  rw [openRun]
  split
  · exact ⟨fun o ho => .inl ho, fun o ho => ho, fun v hv => .inl hv⟩
  · obtain ⟨hmem, hruns⟩ := mem_absorbMemFamilyIntoRun s.mem s.bulkRuns family
    rw [hmem]
    exact ⟨fun o ho => mem_takeFamily ho, fun o ho => (mem_filter.mp ho).1, fun v hv => (hruns v hv).symm⟩

section
variable (h : Covered keeps s)
include h

theorem Covered.bulkAppendPuts {full : Bool}
    (hs : s.bulkAppendPuts cfg family puts full = some s') : Covered keeps s' := by
  simp only [State.bulkAppendPuts] at hs
  split at hs
  · cases hs
  rename_i hguard
  have hlen : 0 < puts.length := by
    refine length_pos_iff.mpr fun hnil => hguard ?_
    simp [hnil]
  obtain ⟨hmem, hmem', hruns⟩ := openRun_spec s family
  have happly := h.apply [] (Nat.le_add_right s.nextSeq puts.length) (by simp)
    (max s.publishedSeq (s.nextSeq + puts.length - 1))
  rw [append_nil] at happly
  -- the run's entries are numbered last, so the absorbed ones lie below
  have hbound :
    ∀ run ∈ pushRun family (numberPuts s.nextSeq (sortBulkKeyVals puts)) (s.openRun family).2.1,
      ∀ v ∈ run.entries, v.sequence ≤ max s.wallessSeqHigh (s.nextSeq + puts.length - 1) := by
    intro run hrun v hv
    rcases mem_pushRun (mem_flatMap.mpr ⟨run, hrun, hv⟩) with hv | hv
    · have := numberPuts_sequence hv
      rw [sortBulkKeyVals_length] at this
      omega
    rcases hruns v hv with hv | hv
    · obtain ⟨r, hr, hv⟩ := mem_flatMap.mp hv
      have := h.runs r (by simp [State.runs, hr]) v hv
      omega
    · have := h.memory v (mem_append_left _ hv)
      omega
  have hpush := happly.absorb (s.openRun family).1 (s.openRun family).2.2 hmem hmem'
    (Nat.le_max_left _ _) (Nat.max_lt.mpr ⟨Nat.lt_of_lt_of_le h.walless
      (Nat.le_add_right _ _), by simp only; omega⟩) hbound
  cases full
  · cases hs
    exact hpush
  · cases hs
    exact hpush.parkRun family

theorem Covered.popParkedBulkJob (hs : s.popParkedBulkJob = some s') : Covered keeps s' := by
  rw [State.popParkedBulkJob] at hs
  split at hs
  · cases hs
  rename_i run rest heq
  cases hs
  refine { h with
    runs := fun r hr => h.runs r ?_
    archived := fun o ho => (h.archived o ho).imp_right fun hw => { hw with } }
  simp only [State.runs, heq, mem_append, mem_cons, not_mem_nil, or_false] at hr ⊢
  tauto

/-! ### Files and MANIFESTs -/

omit h in
/-- The switch moves the active memtable as it is. -/
theorem switchActiveToImm_cases (hs : s.switchActiveToImm = some s') :
    s' = { s with mem := [], imm := some s.mem } ∧
    ∀ o, o ∈ ([] : Table) ++ (some s.mem).toList.flatten ↔ o ∈ s.memory := by
  rw [switchActiveToImm, Option.ite_none_left_eq_some] at hs
  obtain ⟨hguard, hs⟩ := hs
  cases hs
  have himm : s.imm = none := by
    cases hi : s.imm
    · rfl
    · simp [hi] at hguard
  exact ⟨rfl, fun o => by simp [memory, himm]⟩

theorem Covered.switchActiveToImm (hs : s.switchActiveToImm = some s') : Covered keeps s' := by
  obtain ⟨rfl, hmemory⟩ := switchActiveToImm_cases hs
  refine { h with
    memory := fun o ho => h.memory o ((hmemory o).mp ho)
    recent := by simp
    behind := fun inv hinv o ho => h.behind inv hinv o ?_
    held := fun o ho => (h.held o ho).imp_left (hmemory o).mpr
    archived := fun o ho => (h.archived o ho).imp_right fun hw => { hw with } }
  rcases mem_append.mp ho with ho | ho
  · exact mem_append_left _ ((hmemory o).mp ho)
  · exact mem_append_right _ ho

/-- CURRENT moves on to what accounts for as much, and MANIFESTs are taken and written. -/
theorem Covered.manifest {current : Inventory} {pending : List (Nat × Inventory)} {written next : Nat}
    (hkept : ∀ o, keeps s.current o → keeps current o)
    (hinv : ∀ inv ∈ { s with current := current, pending := pending }.inventories, inv ∈ s.inventories)
    (hepochs : written ≤ next ∧ ∀ p ∈ pending, p.1 ≤ next)
    (hnewer : ∀ p ∈ pending, written < p.1 → ∀ o, keeps current o → keeps p.2 o)
    (hpending : ∀ p ∈ pending, ∀ q ∈ pending, p.1 ≤ q.1 → ∀ o, keeps p.2 o → keeps q.2 o) :
    Covered keeps { s with
      current := current, pending := pending, writtenEpoch := written, manifestEpoch := next } :=
  { h with
    entries := fun inv hi => h.entries inv (hinv inv hi)
    behind := fun inv hi => h.behind inv (hinv inv hi)
    epochs := hepochs
    grown := fun inv hi => h.grown inv (hinv inv hi)
    newer := hnewer
    pending := hpending
    clean := fun hclean o ho => hkept o (h.clean hclean o ho)
    floor := fun o ho => (h.floor o ho).imp_left (hkept o)
    archived := fun o ho => (h.archived o ho).imp (hkept o) fun hw =>
      { hw with replayed := fun inv hi => hw.replayed inv (hinv inv hi) }
    logged := fun o ho => (h.logged o ho).imp_right fun h => h.imp_right (hkept o)
    acked := fun o ho => (h.acked o ho).imp_right fun h => h.imp_right (hkept o) }

/-- The inventory a MANIFEST will name is the newest there is. -/
theorem Covered.takeManifestPersist : Covered keeps s.takeManifestPersist := by
  have hpending : ∀ p ∈ s.takeManifestPersist.pending, p ∈ s.pending ∨
      p = (s.manifestEpoch + 1, s.inventory) := by
    intro p hp
    simpa [State.takeManifestPersist] using hp
  have hgrown : ∀ p ∈ s.pending, ∀ o, keeps p.2 o → keeps s.inventory o := fun p hp =>
    h.grown p.2 (by simp only [inventories, mem_cons]; exact .inr (.inr (mem_map_of_mem hp)))
  refine h.manifest (fun _ => id) (takeManifestPersist_inventories s)
    ⟨Nat.le_succ_of_le h.epochs.1, fun p hp => ?_⟩
    (fun p hp hlt => ?_) fun p hp q hq hle => ?_
  · rcases hpending p hp with hp | rfl
    · exact Nat.le_succ_of_le (h.epochs.2 p hp)
    · exact .refl
  · rcases hpending p hp with hp | rfl
    · exact h.newer p hp hlt
    · exact h.grown s.current (by simp [inventories])
  · rcases hpending p hp with hp | rfl
    · rcases hpending q hq with hq | rfl
      · exact h.pending p hp q hq hle
      · exact hgrown p hp
    · rcases hpending q hq with hq | rfl
      · exact absurd (h.epochs.2 q hq) (Nat.not_le.mpr hle)
      · exact fun _ ho => ho

/-- MANIFESTs are written in any order, and an older one is dropped. -/
theorem Covered.writeManifest {i : Nat} (hs : s.writeManifest i = some s') : Covered keeps s' := by
  rw [State.writeManifest] at hs
  split at hs
  · cases hs
  rename_i epoch inv hget
  have hmem : (epoch, inv) ∈ s.pending := mem_of_getElem? hget
  have hsub : ∀ p ∈ s.pending.eraseIdx i, p ∈ s.pending := fun p hp => mem_of_mem_eraseIdx hp
  have hinv : ∀ c, c ∈ s.inventories → ∀ inv' ∈ s.inventory :: c :: (s.pending.eraseIdx i).map Prod.snd,
      inv' ∈ s.inventories := by
    intro c hc inv' hinv'
    rcases mem_cons.mp hinv' with rfl | hinv'
    · exact mem_cons_self
    · rcases mem_cons.mp hinv' with rfl | hinv'
      · exact hc
      · obtain ⟨p, hp, rfl⟩ := mem_map.mp hinv'
        exact mem_cons_of_mem _ (mem_cons_of_mem _ (mem_map_of_mem (hsub p hp)))
  simp only at hs
  split at hs
  · -- a newer one is written already
    cases hs
    have hinv' := hinv s.current (by simp [inventories])
    exact h.manifest (fun _ => id) hinv' ⟨h.epochs.1, fun p hp =>
      h.epochs.2 p (hsub p hp)⟩ (fun p hp => h.newer p (hsub p hp))
      fun p hp q hq => h.pending p (hsub p hp) q (hsub q hq)
  · rename_i hlt
    cases hs
    have hkept : ∀ o, keeps s.current o → keeps inv o := h.newer _ hmem (Nat.not_le.mp hlt)
    have hinv' := hinv inv (mem_cons_of_mem _ (mem_cons_of_mem _ (mem_map.mpr ⟨(epoch, inv), hmem, rfl⟩)))
    exact h.manifest hkept hinv' ⟨h.epochs.2 _ hmem, fun p hp => h.epochs.2 p (hsub p hp)⟩
      (fun p hp hle => h.pending _ hmem p (hsub p hp) (Nat.le_of_lt hle)) fun p hp q hq => h.pending
      p (hsub p hp) q (hsub q hq)

end

/-- A run that becomes a file flushes nothing of the log. -/
theorem installBulkRun_inventory (s : State) (cfg : Config) (run : BulkRun) :
    (s.installBulkRun cfg run).inventory =
      { s.inventory with ssts := s.inventory.ssts ++
        [⟨run.family, maxLsmLevel, writeSstBulkArrays run⟩] } := by
  simp only [installBulkRun, persistBulkManifest]
  split
  · rfl
  · split <;> rfl

section Accounted
variable (hkeeps : ∀ inv o, o ∈ inv.flushed → keeps inv o)
include hkeeps

section
variable (h : Covered keeps s)
include h

/-- Files are added: those of `t`, taken from the immutable memtable, or one of a run. -/
theorem Covered.extend (imm' : Option Table) (t : Table) (below : Bool) {inv' : Inventory}
    (himm : ∀ o, o ∈ s.imm.toList.flatten ↔ o ∈ imm'.toList.flatten ∨ o ∈ t)
    (hflushed : inv'.flushed = s.inventory.flushed ++ t)
    (hentries : ∀ v ∈ inv'.entries, v ∈ s.inventory.entries ∨ v ∈ t ∨ v.sequence ≤ s.wallessSeqHigh)
    (hgrow : ∀ o, keeps s.inventory o → keeps inv' o) (hafter : ∀ v ∈ t, ∀ o ∈ imm'.toList.flatten,
      v.sequence < o.sequence)
    (hbelow : ∀ o ∈ t, below = true ∨ s.manifestPublishedSeq < o.sequence) : Covered keeps
      { s with imm := imm', inventory := inv', unpublishedBelowFloor := s.unpublishedBelowFloor || below,
               manifestDirty := true } := by
  have hsub : ∀ o ∈ s.mem ++ imm'.toList.flatten, o ∈ s.memory :=
    forall_mem_append.mpr ⟨fun o => mem_append_left _, fun o ho =>
      mem_append_right _ ((himm o).mpr (.inl ho))⟩
  have hsub' : ∀ o ∈ (s.mem ++ imm'.toList.flatten) ++ inv'.flushed,
      o ∈ s.memory ++ s.inventory.flushed := by
    intro o ho
    rw [hflushed] at ho
    simp only [State.memory, mem_append] at ho ⊢
    have := himm o
    tauto
  refine { h with
    memory := fun o ho => h.memory o (hsub o ho)
    entries := fun inv hinv v hv => ?_
    recent := fun x hx o ho => h.recent x ((himm x).mpr (.inl hx)) o ho
    behind := fun inv hinv o ho hnot v hv => ?_
    grown := fun inv hinv o ho => ?_
    clean := fun hclean => by cases hclean
    floor := fun o ho => ?_
    held := fun o ho => ?_
    archived := fun o ho => (h.archived o ho).imp_right fun hw =>
      ⟨?_, hw.above, hw.within, fun inv hinv => ?_⟩ }
  · rcases mem_cons.mp hinv with rfl | hinv
    · rcases hentries v hv with hv | hv | hv
      · exact h.entries _ mem_cons_self v hv
      · exact h.memory v (mem_append_right _ ((himm v).mpr (.inr hv)))
      · exact Nat.lt_of_le_of_lt hv h.walless
    · exact h.entries inv (mem_cons_of_mem _ hinv) v hv
  · rcases mem_cons.mp hinv with rfl | hinv
    · -- what is not in the new files is in the memtables, and newer
      have hnot' : o ∉ s.inventory.flushed := fun hmem => hnot (hflushed ▸ mem_append_left _ hmem)
      rcases hentries v hv with hv | hv | hv
      · exact h.behind _ mem_cons_self o (hsub' o ho) hnot' v hv
      · rcases mem_append.mp ho with ho | ho
        · rcases mem_append.mp ho with ho | ho
          · exact .inl (h.recent v ((himm v).mpr (.inr hv)) o ho)
          · exact .inl (hafter v hv o ho)
        · exact absurd ho hnot
      · exact .inr hv
    · exact h.behind inv (mem_cons_of_mem _ hinv) o (hsub' o ho) hnot v hv
  · rcases mem_cons.mp hinv with rfl | hinv
    · exact ho
    · exact hgrow o (h.grown inv (mem_cons_of_mem _ hinv) o ho)
  · rw [hflushed] at ho
    rw [Bool.or_eq_true]
    rcases mem_append.mp ho with ho | ho
    · have := h.floor o ho
      tauto
    · have := hbelow o ho
      tauto
  · rw [hflushed]
    simp only [State.memory, mem_append]
    have hheld := h.held o ho
    rw [State.memory, mem_append, himm o] at hheld
    tauto
  · rw [hflushed]
    exact mem_append_left _ hw.flushed
  · rcases mem_cons.mp hinv with rfl | hinv
    · exact .inl (hkeeps _ _ (hflushed ▸ mem_append_left _ hw.flushed))
    · exact hw.replayed inv (mem_cons_of_mem _ hinv)

/-- A flush moves a memtable from memory to the inventory. -/
theorem Covered.flushImmToL0 (hs : s.flushImmToL0 cfg level = some s')
    (hgrow : ∀ o, keeps s.inventory o → keeps s'.inventory o) :
    Covered keeps s' := by
  rw [State.flushImmToL0] at hs
  split at hs
  · cases hs
  rename_i t heq
  cases hs
  refine h.extend hkeeps none t (s.belowFloor t) (by simp [heq]) rfl (fun v hv => ?_) hgrow
    (by simp) fun o ho => ?_
  · rw [Inventory.entries, flatMap_append, mem_append] at hv
    exact hv.imp_right fun hv => .inl (writeImmL0Files_subset hv)
  · by_cases hle : o.sequence ≤ s.manifestPublishedSeq
    · exact .inl (any_eq_true.mpr ⟨o, ho, by simpa using hle⟩)
    · exact .inr (Nat.not_le.mp hle)

theorem Covered.persistManifest : Covered keeps s.persistManifest := by
  have hcurrent : ∀ o, keeps s.current o → keeps s.inventory o :=
    h.grown s.current (by simp [inventories])
  have hnew :=
    h.manifest hcurrent (persistManifest_inventories s) ⟨Nat.le_refl (s.manifestEpoch + 1),
      fun p hp => Nat.le_succ_of_le (h.epochs.2 p hp)⟩
    (fun p hp hlt => absurd (h.epochs.2 p hp) (Nat.not_le.mpr (Nat.lt_of_succ_lt hlt))) h.pending
  refine { hnew with
    clean := fun _ o ho => hkeeps _ o ho
    floor := fun o ho => .inl (hkeeps _ o ho)
    archived := fun o ho => .inl ?_ }
  rcases h.archived o ho with ho | hw
  · exact hcurrent o ho
  · exact hkeeps _ o hw.flushed

/-- The entries of a run are below the mark, so no segment waits for them. -/
theorem Covered.installBulkRun {run : BulkRun} (hrun : ∀ v ∈ run.entries, v.sequence ≤ s.wallessSeqHigh)
    (hgrow : ∀ o, keeps s.inventory o → keeps (s.installBulkRun cfg run).inventory o) :
    Covered keeps (s.installBulkRun cfg run) := by
  rw [installBulkRun_inventory] at hgrow
  have hext := h.extend hkeeps s.imm [] false (by simp) (by simp) (fun v hv => ?_) hgrow (by simp)
    (by simp)
  · rw [Bool.or_false] at hext
    have hdebt : ∀ d, Covered keeps
        { s with
          inventory :=
            { s.inventory with ssts := s.inventory.ssts ++
              [⟨run.family, maxLsmLevel, writeSstBulkArrays run⟩] }
          manifestDirty := true
          bulkManifestDebt := d } :=
      fun d => { hext with
        archived := fun o ho => (hext.archived o ho).imp_right fun hw => { hw with } }
    simp only [State.installBulkRun, State.persistBulkManifest]
    split
    · exact (hdebt 0).persistManifest hkeeps
    · split
      · exact hdebt _
      · exact (hdebt 0).takeManifestPersist
  · rw [Inventory.entries, flatMap_append, mem_append] at hv
    refine hv.imp_right fun hv => .inr ?_
    simp only [flatMap_cons, flatMap_nil, append_nil, writeSstBulkArrays, mem_map] at hv
    obtain ⟨w, hw, rfl⟩ := hv
    exact hrun w hw

theorem Covered.flushBulkRun (hs : s.flushBulkRun cfg family = some s')
    (hgrow : ∀ o, keeps s.inventory o → keeps s'.inventory o) : Covered keeps s' := by
  rw [State.flushBulkRun] at hs
  split at hs
  · cases hs
  rename_i run hfind
  cases hs
  have hrun : run ∈ s.runs := by simp [State.runs, mem_of_find?_eq_some hfind]
  have hless : Covered keeps { s with bulkRuns := s.bulkRuns.filter fun r => r.family != family } := by
    refine { h with
      runs := fun r hr => h.runs r ?_
      archived := fun o ho => (h.archived o ho).imp_right fun hw => { hw with } }
    simp only [State.runs, mem_append, mem_filter] at hr ⊢
    tauto
  exact hless.installBulkRun hkeeps (h.runs run hrun) hgrow

theorem Covered.finishBulkSst {i : Nat} (hs : s.finishBulkSst cfg i = some s')
    (hgrow : ∀ o, keeps s.inventory o → keeps s'.inventory o) : Covered keeps s' := by
  rw [State.finishBulkSst] at hs
  split at hs
  · cases hs
  rename_i run hget
  cases hs
  have hrun : run ∈ s.runs := by simp [State.runs, mem_of_getElem? hget]
  have hless : Covered keeps { s with bulkEncodings := s.bulkEncodings.eraseIdx i } := by
    refine { h with
      runs := fun r hr => h.runs r ?_
      archived := fun o ho => (h.archived o ho).imp_right fun hw => { hw with } }
    simp only [State.runs, mem_append] at hr ⊢
    exact hr.imp_right mem_of_mem_eraseIdx
  exact hless.installBulkRun hkeeps (h.runs run hrun) hgrow

end

end Accounted

end Covered

end PedraDb.Durable
