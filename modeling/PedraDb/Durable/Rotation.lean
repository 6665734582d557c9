import PedraDb.Durable.Coverage
import PedraDb.Library.Runs

/-! Synced writes and the rotation of the log.

A rotation looks at the memtables, and at two numbers: the highest sequence the MANIFEST
publishes and the highest one that went past the log. It does not look at the bulk runs.
A run that is opened takes its family's entries out of the memtable, synced ones among
them, and from then on only the log has them until the run is a file that is listed: a
rotation before that loses them (`absorbed_put_lost`). A run's file also keeps no kinds, so
a deletion that was absorbed never comes into a file. And a key that no file of a flush
takes is gone with the segment.

Where a flush takes every key, and every operation of the segment that a run has taken is
listed when the segment goes, each synced operation is in the live segment, in an archive a
reopen replays, or in a listed file (`acked_durable`). -/
namespace PedraDb.Durable
open List State
variable {o : WriteOp}

section Covered
variable {keeps : Inventory → WriteOp → Prop} {s : State} {cfg : Config}

theorem Covered.dropArchives (h : Covered keeps s) (n : Nat)
    (hall : ∀ o ∈ s.archives.flatten, keeps s.current o) :
    Covered keeps { s with archives := s.archives.drop n } := by
  have hsub : ∀ o ∈ (s.archives.drop n).flatten, o ∈ s.archives.flatten := by
    intro o ho
    obtain ⟨seg, hseg, ho⟩ := mem_flatten.mp ho
    exact mem_flatten.mpr ⟨seg, mem_of_mem_drop hseg, ho⟩
  exact { h with
    archived := fun o ho => .inl (hall o (hsub o ho))
    logged := fun o ho => by
      rcases h.logged o ho with ho | ho | ho
      · exact .inl ho
      · exact .inr (.inr (hall o ho))
      · exact .inr (.inr ho)
    acked := fun o ho => by
      rcases h.acked o ho with ho | ho | ho
      · exact .inl ho
      · exact .inr (.inr (hall o ho))
      · exact .inr (.inr ho) }

theorem Covered.deleteWalArchives (h : Covered keeps s) : Covered keeps s.deleteWalArchives := by
  rw [State.deleteWalArchives]
  split
  · exact h
  rename_i hpub
  refine h.dropArchives _ fun o ho => ?_
  rcases h.archived o ho with ho | hw
  · exact ho
  · have := hw.above
    have := hw.within
    omega

/-- The store of the change log touches the archives and its own counters. -/
theorem persistChangelog_eq (s : State) (stored : Option Nat) :
    ∃ flushes watermark n, s.persistChangelogBestEffort stored =
      { s with
        changelogFlushesSinceStore := flushes
        changelogDiskWatermark := watermark
        archives := s.archives.drop n } := by
  cases stored with
  | none => exact ⟨s.changelogFlushesSinceStore, s.changelogDiskWatermark, 0, rfl⟩
  | some watermark =>
    simp only [persistChangelogBestEffort, deleteWalArchives]
    split
    · split
      · exact ⟨0, watermark, 0, rfl⟩
      · exact ⟨0, watermark, walArchiveUnlinkBudget, rfl⟩
    · exact ⟨0, watermark, 0, rfl⟩

theorem Covered.persistChangelogBestEffort (h : Covered keeps s) (stored : Option Nat) :
    Covered keeps (s.persistChangelogBestEffort stored) := by
  cases stored with
  | none => exact h
  | some watermark =>
    have hcounters : Covered keeps
        { s with changelogFlushesSinceStore := 0, changelogDiskWatermark := watermark } :=
      { h with
        archived := fun o ho => (h.archived o ho).imp_right fun hw => { hw with } }
    simp only [State.persistChangelogBestEffort]
    split
    · exact hcounters.deleteWalArchives
    · exact hcounters

theorem Covered.persistChangelogAfterExplicitFlush (h : Covered keeps s)
    (hkeeps : ∀ inv o, o ∈ inv.flushed → keeps inv o) (stored : Option Nat) :
    Covered keeps (s.persistChangelogAfterExplicitFlush cfg stored) := by
  rw [State.persistChangelogAfterExplicitFlush]
  split
  · have hcount :
      Covered keeps { s with changelogFlushesSinceStore := s.changelogFlushesSinceStore + 1 } :=
      { h with
        archived := fun o ho => (h.archived o ho).imp_right fun hw => { hw with } }
    simp only
    split
    · exact (hcount.persistManifest hkeeps).persistChangelogBestEffort stored
    · exact hcount
  · exact h

/-! ### Rotation -/

theorem Covered.drainStaged (h : Covered keeps s) : Covered keeps s.drainStaged := by
  have hseg : ∀ o, o ∈ s.drainStaged.segment ↔ o ∈ s.segment := by simp [State.segment, State.drainStaged]
  refine { h with
    segment := fun o ho => h.segment o ((hseg o).mp ho)
    held := fun o ho => h.held o ((hseg o).mp ho)
    archived := fun o ho => (h.archived o ho).imp_right fun hw => { hw with }
    logged := fun o ho => (h.logged o ho).imp_left (hseg o).mpr
    acked := fun o ho => (h.acked o ho).imp_left fun ho => ?_ }
  exact mem_append_left _ ho

theorem memory_nil (hidle : s.walRotateDecision = true) : s.memory = [] := by
  simp only [walRotateDecision, Bool.and_eq_true, List.isEmpty_iff, Option.isNone_iff_eq_none] at hidle
  simp [memory, hidle]

section
variable (h : Covered keeps s)
include h

theorem Covered.truncateSegment (hstaged : s.staged = [])
    (hall : ∀ o ∈ s.segment, keeps s.current o) : Covered keeps s.truncateSegment := by
  have hnil : s.truncateSegment.segment = [] := by simp [State.segment, State.truncateSegment, hstaged]
  refine { h with
    segment := by simp [hnil]
    held := by simp [hnil]
    archived := fun o ho => (h.archived o ho).imp_right fun hw => { hw with }
    logged := fun o ho => ?_
    acked := fun o ho => ?_ }
  · rcases h.logged o ho with ho | ho
    · exact .inr (.inr (hall o ho))
    · exact .inr ho
  · rcases h.acked o ho with ho | ho
    · exact .inr (.inr (hall o (mem_append_left _ ho)))
    · exact .inr ho

/-- A segment whose operations are accounted for or wait to be may become an archive. -/
theorem Covered.archiveSegment (hstaged : s.staged = [])
    (hall : ∀ o ∈ s.segment, keeps s.current o ∨
      Waits keeps { s with walArchiveMaxSeq := max s.walArchiveMaxSeq s.lastSequence } o) :
    Covered keeps s.archiveSegment := by
  have hwal : s.segment = s.wal := by simp [State.segment, hstaged]
  have hnil : s.archiveSegment.segment = [] := by simp [State.segment, State.archiveSegment, hstaged]
  have harch : ∀ o, o ∈ s.archiveSegment.archives.flatten ↔ o ∈ s.archives.flatten ∨ o ∈ s.wal := by
    simp [State.archiveSegment]
  refine { h with
    segment := by simp [hnil]
    held := by simp [hnil]
    archived := fun o ho => ?_
    logged := fun o ho => ?_
    acked := fun o ho => ?_ }
  · rcases (harch o).mp ho with ho | ho
    · exact (h.archived o ho).imp_right fun hw =>
        { hw with within := Nat.le_trans hw.within (Nat.le_max_left _ _) }
    · exact (hall o (hwal ▸ ho)).imp_right fun hw => { hw with }
  · rw [hnil, harch]
    have := h.logged o ho
    rw [hwal] at this
    tauto
  · rw [harch]
    have := h.acked o ho
    tauto

/-- What is in files is accounted for, or waits, where the rotation archives. -/
theorem Covered.waits (hkeeps : ∀ inv o, o ∈ inv.flushed → keeps inv o)
    (harchive : s.archiveNow cfg = true) (ho : o ∈ s.segment) (hflushed : o ∈ s.inventory.flushed) :
    keeps s.current o ∨
    Waits keeps { s with walArchiveMaxSeq := max s.walArchiveMaxSeq s.lastSequence } o := by
  simp only [archiveNow, wallessCovered, Bool.and_eq_true, decide_eq_true_eq, Bool.not_eq_true']
    at harchive
  obtain ⟨⟨hwalless, hflag⟩, _⟩ := harchive
  rcases h.floor o hflushed with hkept | hbelow | habove
  · exact .inl hkept
  · rw [hflag] at hbelow
    cases hbelow
  · have hseq := h.segment o ho
    refine .inr ⟨hflushed, habove, ?_, fun inv hinv => ?_⟩
    · simp only [lastSequence]
      omega
    · by_cases hmem : o ∈ inv.flushed
      · exact .inl (hkeeps inv o hmem)
      · refine .inr fun v hv => ?_
        rcases h.behind inv hinv o (mem_append_right _ hflushed) hmem v hv with hlt | hle
        · exact hlt
        · omega

theorem Covered.prepareRotation (cfg : Config) (hkeeps : ∀ inv o, o ∈ inv.flushed → keeps inv o)
    (stored : Option Nat) : Covered keeps (s.prepareRotation cfg stored) := by
  have hpub : Covered keeps (if s.publishesFirst cfg then s.persistManifest else s) := by
    split
    · exact h.persistManifest hkeeps
    · exact h
  simp only [State.prepareRotation]
  split
  · exact hpub.persistChangelogBestEffort stored
  · exact hpub

end

/-- What the first part of a rotation changes: the MANIFEST if it publishes, the archives
and the change log's counters. -/
theorem prepareRotation_eq (s : State) (cfg : Config) (stored : Option Nat) :
    ∃ flushes watermark n, s.prepareRotation cfg stored =
      { (if s.publishesFirst cfg then s.persistManifest else s) with
        changelogFlushesSinceStore := flushes
        changelogDiskWatermark := watermark
        archives := s.archives.drop n } := by
  have harch : (if s.publishesFirst cfg then s.persistManifest else s).archives = s.archives := by
    split <;> rfl
  simp only [prepareRotation]
  split
  · obtain ⟨flushes, watermark, n, heq⟩ :=
      persistChangelog_eq (if s.publishesFirst cfg then s.persistManifest else s) stored
    refine ⟨flushes, watermark, n, ?_⟩
    rw [heq, harch]
  · refine ⟨(if s.publishesFirst cfg then s.persistManifest else s).changelogFlushesSinceStore,
      (if s.publishesFirst cfg then s.persistManifest else s).changelogDiskWatermark, 0, ?_⟩
    rw [drop_zero, ← harch]

/-- A rotation that does not publish and does not archive finds the MANIFEST up to date. -/
theorem clean_of_truncates (flushes watermark n : Nat) (hpub : s.publishesFirst cfg = false)
    (htrunc : State.archiveNow cfg
      { s with
        changelogFlushesSinceStore := flushes
        changelogDiskWatermark := watermark
        archives := s.archives.drop n } = false) : s.manifestDirty = false := by
  by_contra hdirty
  have hdirty : s.manifestDirty = true := by simpa using hdirty
  have hunsettled : s.settled cfg = false := by simp [settled, hdirty]
  simp only [publishesFirst, hunsettled, Bool.not_false, Bool.true_and, Bool.or_eq_false_iff,
    Bool.not_eq_eq_eq_not, Bool.not_false] at hpub
  obtain ⟨hnow, _⟩ := hpub
  simp only [archiveNow, wallessCovered, Bool.and_eq_true, decide_eq_true_eq] at hnow
  simp only [archiveNow, wallessCovered, settled, hdirty, Bool.not_true, Bool.false_and, Bool.not_false,
    Bool.true_and, hnow.1.1, hnow.1.2, decide_true, length_drop, decide_eq_false_iff_not] at htrunc
  omega

/-- **What a rotation leaves.** It has to be told that the operations of the segment that
went into runs are accounted for by the MANIFEST it leaves. -/
theorem Covered.tryRotateWal (h : Covered keeps s) (hkeeps : ∀ inv o, o ∈ inv.flushed → keeps inv o)
    (habsorbed : s.walRotateDecision = true → ∀ o ∈ s.segment, o ∈ s.absorbed →
      keeps (if s.publishesFirst cfg then s.inventory else s.current) o) (stored : Option Nat) :
    Covered keeps (s.tryRotateWal cfg stored) := by
  rw [State.tryRotateWal]
  split
  swap
  · exact h
  rename_i hidle
  split
  · exact h.drainStaged
  have hdrained := h.drainStaged
  have hprepared := (hdrained.prepareRotation cfg hkeeps stored).drainStaged
  obtain ⟨flushes, watermark, n, heq⟩ := prepareRotation_eq s.drainStaged cfg stored
  have hpub : s.drainStaged.publishesFirst cfg = s.publishesFirst cfg := rfl
  rw [hpub] at heq
  rw [rotateWalNow]
  generalize s.drainStaged.prepareRotation cfg stored = s₁ at hprepared heq ⊢
  have hseg : ∀ o, o ∈ s₁.drainStaged.segment ↔ o ∈ s.segment := by
    intro o
    rw [heq]
    split <;> simp [State.segment, State.drainStaged, State.persistManifest]
  have hcurrent : s₁.drainStaged.current = if s.publishesFirst cfg then s.inventory else s.current := by
    rw [heq]
    split <;> rfl
  have hinventory : s₁.drainStaged.inventory = s.inventory := by
    rw [heq]
    split <;> rfl
  -- with the memtables empty the segment has gone into files and runs
  have hheld : ∀ o ∈ s₁.drainStaged.segment, keeps s₁.drainStaged.current o ∨
      o ∈ s₁.drainStaged.inventory.flushed := by
    intro o ho
    rw [hseg] at ho
    rw [hcurrent, hinventory]
    have hmem := h.held o ho
    rw [memory_nil hidle] at hmem
    rcases hmem with hmem | hmem | hmem
    · cases hmem
    · exact .inr hmem
    · exact .inl (habsorbed hidle o ho hmem)
  split
  · rename_i harchive
    refine hprepared.archiveSegment rfl fun o ho => ?_
    rcases hheld o ho with hkept | hflushed
    · exact .inl hkept
    · exact hprepared.waits hkeeps harchive ho hflushed
  · rename_i htrunc
    have htrunc : s₁.drainStaged.archiveNow cfg = false := by simpa using htrunc
    refine hprepared.truncateSegment rfl fun o ho => ?_
    rcases hheld o ho with hkept | hflushed
    · exact hkept
    by_cases hfirst : s.publishesFirst cfg = true
    · rw [hinventory] at hflushed
      rw [hcurrent, if_pos hfirst]
      exact hkeeps _ o hflushed
    · refine hprepared.clean ?_ o hflushed
      have hfirst : s.publishesFirst cfg = false := by simpa using hfirst
      rw [heq, hfirst] at htrunc ⊢
      exact clean_of_truncates (s := s) flushes watermark n hfirst htrunc

end Covered

/-! ### The system -/

namespace Rotation

/-- A step of the store. `level` gives the level a family's files go to. -/
inductive Event where
  | commit (ops : List BatchOp) (sync : Bool)
  | bulk (family : Key) (puts : List (Key × Value)) (full : Bool)
  | tail (key : Key) (value : Value)
  | switch
  | flush (level : Key → Nat)
  | installRun (family : Key)
  | encode
  | finish (i : Nat)
  | publish
  | take
  | write (i : Nat)
  | store (stored : Option Nat)
  | flushed (stored : Option Nat)
  | rotate (stored : Option Nat)

def step (cfg : Config) (s : State) : Event → Option State
  | .commit ops sync => s.commitOps ops sync
  | .bulk family puts full => s.bulkAppendPuts cfg family puts full
  | .tail key value => s.tailPut key value
  | .switch => s.switchActiveToImm
  | .flush level => s.flushImmToL0 cfg level
  | .installRun family => s.flushBulkRun cfg family
  | .encode => s.popParkedBulkJob
  | .finish i => s.finishBulkSst cfg i
  | .publish => some s.persistManifest
  | .take => some s.takeManifestPersist
  | .write i => s.writeManifest i
  | .store stored => some (s.persistChangelogBestEffort stored)
  | .flushed stored => some (s.persistChangelogAfterExplicitFlush cfg stored)
  | .rotate stored => some (s.tryRotateWal cfg stored)

/-- The newer operation covers the key of the older point. -/
def supersedes (newer older : WriteOp) : Bool :=
  decide (older.sequence < newer.sequence) && older.kind != .rangeDeletion && newer.covers older.key

/-- The entries hold the operation or one that supersedes it. -/
def keptBy (entries : List WriteOp) (o : WriteOp) : Bool :=
  entries.contains o || entries.any fun n => supersedes n o

/-- A reopen replays the operation from an archive. -/
def replayable (lossy : Lossy) (s : State) (o : WriteOp) : Bool :=
  s.archives.flatten.contains o &&
    decide (cfManifestFloor lossy s.current (cfFamilyOf lossy o.key) < o.sequence)

/-- The operation is in the live log, in an archive that is replayed, or in a listed
file. -/
def durable (lossy : Lossy) (s : State) (o : WriteOp) : Bool :=
  s.wal.contains o || replayable lossy s o || s.current.entries.contains o

/-- The files of a flush take every key. A rotation finds the operations of the segment that
runs have taken in the files that are listed when it lets the segment go: those listed
already, or all, if it publishes. -/
def filesAndLists (cfg : Config) (s : State) : Event → Bool
  | .flush _ => s.imm.all (flushTakesAll cfg.lossy cfg.physicalCfs)
  | .rotate _ =>
    !s.walRotateDecision || s.segment.all fun o =>
      !s.absorbed.contains o || keptBy (if s.publishesFirst cfg then s.inventory else s.current).entries o
  | _ => true

/-! ### What a MANIFEST accounts for -/

/-- Files that memtables were written to, or files that hold the operation. -/
def Accounts (inv : Inventory) (o : WriteOp) : Prop := o ∈ inv.flushed ∨ keptBy inv.entries o = true

theorem keptBy_mono {entries entries' : List WriteOp} (hsub : ∀ v ∈ entries, v ∈ entries')
    (h : keptBy entries o = true) : keptBy entries' o = true := by
  simp only [keptBy, Bool.or_eq_true, contains_iff_mem, any_eq_true] at h ⊢
  rcases h with h | ⟨n, hn, hsup⟩
  · exact .inl (hsub o h)
  · exact .inr ⟨n, hsub n hn, hsup⟩

theorem Accounts.mono {inv inv' : Inventory} (hflushed : ∀ o ∈ inv.flushed, o ∈ inv'.flushed)
    (hssts : ∀ f ∈ inv.ssts, f ∈ inv'.ssts) (h : Accounts inv o) : Accounts inv' o := by
  refine h.imp (hflushed o) (keptBy_mono fun v hv => ?_)
  obtain ⟨f, hf, hv⟩ := mem_entries.mp hv
  exact mem_entries.mpr ⟨f, hssts f hf, hv⟩

/-- Files are only added, and a flushed memtable comes with its files. -/
structure Extends (inv inv' : Inventory) : Prop where
  flushed : ∀ o ∈ inv.flushed, o ∈ inv'.flushed
  ssts : ∀ f ∈ inv.ssts, f ∈ inv'.ssts
  filed : ∀ o ∈ inv'.flushed, o ∈ inv.flushed ∨ o ∈ inv'.entries

theorem Extends.refl (inv : Inventory) : Extends inv inv :=
  ⟨fun _ h => h, fun _ h => h, fun _ h => .inl h⟩

structure Inv (s : State) : Prop where
  covered : Covered Accounts s
  filed : ∀ inv ∈ s.inventories, ∀ o ∈ inv.flushed, o ∈ inv.entries

section Step
variable {cfg : Config} {s s' : State}

/-- What a step does to the inventories: it extends the files as they are, and what it
records as a MANIFEST is these files or was recorded before. -/
def Succeeds (s s' : State) : Prop :=
  Extends s.inventory s'.inventory ∧ ∀ inv ∈ s'.inventories, inv ∈ s.inventories ∨ inv = s'.inventory

theorem Succeeds.of_eq (h : s'.inventory = s.inventory)
    (hsub : ∀ inv ∈ s'.inventories, inv ∈ s.inventories) : Succeeds s s' :=
  ⟨h ▸ .refl _, fun inv hinv => .inl (hsub inv hinv)⟩

theorem persistManifest_succeeds (s : State) : Succeeds s s.persistManifest :=
  .of_eq rfl (persistManifest_inventories s)

theorem store_inventories (s : State) (stored : Option Nat) :
    (s.persistChangelogBestEffort stored).inventory = s.inventory ∧
      (s.persistChangelogBestEffort stored).inventories = s.inventories := by
  obtain ⟨_, _, _, heq⟩ := persistChangelog_eq s stored
  rw [heq]
  exact ⟨rfl, rfl⟩

theorem commit_succeeds {ops : List BatchOp} {sync : Bool} (hs : s.commitOps ops sync = some s') :
    Succeeds s s' := by
  simp only [commitOps] at hs
  split at hs
  · cases hs
  · cases sync <;> cases hs <;> exact .of_eq rfl fun _ h => h

theorem bulk_succeeds {family : Key} {puts : List (Key × Value)} {full : Bool}
    (hs : s.bulkAppendPuts cfg family puts full = some s') : Succeeds s s' := by
  simp only [bulkAppendPuts] at hs
  split at hs
  · cases hs
  · cases full <;> cases hs <;> exact .of_eq rfl fun _ h => h

theorem install_succeeds (run : BulkRun) : Succeeds s (s.installBulkRun cfg run) := by
  have hinv := installBulkRun_inventory s cfg run
  refine ⟨?_, fun inv hmem => ?_⟩
  · rw [hinv]
    exact ⟨fun _ h => h, fun f hf => mem_append_left _ hf, fun _ h => .inl h⟩
  · rw [hinv]
    simp only [installBulkRun, persistBulkManifest] at hmem
    split at hmem
    · simp only [inventories, persistManifest, mem_cons] at hmem ⊢
      tauto
    split at hmem
    · simp only [inventories, mem_cons] at hmem ⊢
      tauto
    · simp only [inventories, takeManifestPersist, map_append, mem_cons, mem_append,
        map_cons, map_nil, not_mem_nil, or_false] at hmem ⊢
      tauto

theorem flush_succeeds {level : Key → Nat} (hok : filesAndLists cfg s (.flush level) = true)
    (hs : s.flushImmToL0 cfg level = some s') : Succeeds s s' := by
  rw [flushImmToL0] at hs
  split at hs
  · cases hs
  rename_i t himm
  rw [filesAndLists, himm] at hok
  cases hs
  refine ⟨⟨fun o ho => mem_append_left _ ho, fun f hf => mem_append_left _ hf, fun o ho => ?_⟩,
    fun inv hinv => ?_⟩
  · rcases mem_append.mp ho with ho | ho
    · exact .inl ho
    · refine .inr ?_
      rw [Inventory.entries, flatMap_append, mem_append]
      exact .inr ((mem_writeImmL0Files hok).mpr ho)
  · simp only [inventories, mem_cons] at hinv ⊢
    tauto

theorem write_succeeds {i : Nat} (hs : s.writeManifest i = some s') : Succeeds s s' := by
  rw [writeManifest] at hs
  split at hs
  · cases hs
  rename_i epoch inv hget
  have hmem : inv ∈ s.pending.map Prod.snd := mem_map.mpr ⟨_, mem_of_getElem? hget, rfl⟩
  have hsub : ∀ c ∈ (s.pending.eraseIdx i).map Prod.snd, c ∈ s.pending.map Prod.snd := by
    intro c hc
    obtain ⟨p, hp, rfl⟩ := mem_map.mp hc
    exact mem_map_of_mem (mem_of_mem_eraseIdx hp)
  simp only at hs
  split at hs
  · cases hs
    refine .of_eq rfl fun c hc => ?_
    simp only [inventories, mem_cons] at hc ⊢
    have := hsub c
    tauto
  · cases hs
    refine .of_eq rfl fun c hc => ?_
    simp only [inventories, mem_cons] at hc ⊢
    rcases hc with rfl | rfl | hc
    · exact .inl rfl
    · exact .inr (.inr hmem)
    · exact .inr (.inr (hsub c hc))

theorem rotate_succeeds (stored : Option Nat) : Succeeds s (s.tryRotateWal cfg stored) := by
  have hprep : Succeeds s (s.drainStaged.prepareRotation cfg stored) := by
    obtain ⟨_, _, _, heq⟩ := prepareRotation_eq s.drainStaged cfg stored
    rw [heq]
    split
    · exact ⟨(persistManifest_succeeds s.drainStaged).1, (persistManifest_succeeds s.drainStaged).2⟩
    · exact .of_eq rfl fun _ h => h
  rw [tryRotateWal]
  split
  · split
    · exact .of_eq rfl fun _ h => h
    · rw [rotateWalNow]
      split
      · exact ⟨hprep.1, hprep.2⟩
      · exact ⟨hprep.1, hprep.2⟩
  · exact .of_eq rfl fun _ h => h

theorem step_succeeds {e : Event} (hok : filesAndLists cfg s e = true)
    (hs : step cfg s e = some s') : Succeeds s s' := by
  cases e with
  | commit ops sync => exact commit_succeeds hs
  | bulk family puts full => exact bulk_succeeds hs
  | tail key value =>
    rw [step, tailPut] at hs
    split at hs
    · cases hs
    · cases hs
      exact .of_eq rfl fun _ h => h
  | switch =>
    rw [step, switchActiveToImm] at hs
    split at hs
    · cases hs
    · cases hs
      exact .of_eq rfl fun _ h => h
  | flush level => exact flush_succeeds hok hs
  | installRun family =>
    rw [step, flushBulkRun] at hs
    split at hs
    · cases hs
    · cases hs
      exact install_succeeds (s := { s with bulkRuns := s.bulkRuns.filter fun r => r.family != family }) _
  | encode =>
    rw [step, popParkedBulkJob] at hs
    split at hs
    · cases hs
    · cases hs
      exact .of_eq rfl fun _ h => h
  | finish i =>
    rw [step, finishBulkSst] at hs
    split at hs
    · cases hs
    · cases hs
      exact install_succeeds (s := { s with bulkEncodings := s.bulkEncodings.eraseIdx i }) _
  | publish =>
    cases hs
    exact persistManifest_succeeds s
  | take =>
    cases hs
    exact .of_eq rfl (takeManifestPersist_inventories s)
  | write i => exact write_succeeds hs
  | store stored =>
    cases hs
    obtain ⟨hinv, hall⟩ := store_inventories s stored
    exact .of_eq hinv fun inv h => hall ▸ h
  | flushed stored =>
    cases hs
    rw [persistChangelogAfterExplicitFlush]
    split
    · simp only
      split
      · obtain ⟨hinv, hall⟩ := store_inventories
          (persistManifest { s with
            changelogFlushesSinceStore := s.changelogFlushesSinceStore + 1 }) stored
        refine .of_eq (hinv.trans rfl) fun inv h => ?_
        rw [hall] at h
        exact persistManifest_inventories
          { s with changelogFlushesSinceStore := s.changelogFlushesSinceStore + 1 } inv h
      · exact .of_eq rfl fun _ h => h
    · exact .of_eq rfl fun _ h => h
  | rotate stored =>
    cases hs
    exact rotate_succeeds stored

theorem Inv.step (h : Inv s) {e : Event} (hok : filesAndLists cfg s e = true)
    (hs : step cfg s e = some s') : Inv s' := by
  obtain ⟨hext, hall⟩ := step_succeeds hok hs
  have hgrow : ∀ o, Accounts s.inventory o → Accounts s'.inventory o :=
    fun o => Accounts.mono hext.flushed hext.ssts
  have hkeeps : ∀ inv o, o ∈ inv.flushed → Accounts inv o := fun _ _ h => .inl h
  refine ⟨?_, fun inv hinv o ho => ?_⟩
  · cases e with
    | commit ops sync => exact h.covered.commitOps hs
    | bulk family puts full => exact h.covered.bulkAppendPuts hs
    | tail key value => exact h.covered.tailPut hs
    | switch => exact h.covered.switchActiveToImm hs
    | flush level => exact h.covered.flushImmToL0 hkeeps hs hgrow
    | installRun family => exact h.covered.flushBulkRun hkeeps hs hgrow
    | encode => exact h.covered.popParkedBulkJob hs
    | finish i => exact h.covered.finishBulkSst hkeeps hs hgrow
    | publish =>
      cases hs
      exact h.covered.persistManifest hkeeps
    | take =>
      cases hs
      exact h.covered.takeManifestPersist
    | write i => exact h.covered.writeManifest hs
    | store stored =>
      cases hs
      exact h.covered.persistChangelogBestEffort stored
    | flushed stored =>
      cases hs
      exact h.covered.persistChangelogAfterExplicitFlush hkeeps stored
    | rotate stored =>
      cases hs
      refine h.covered.tryRotateWal hkeeps (fun hidle o ho habs => .inr ?_) stored
      simp only [filesAndLists, hidle, Bool.not_true, Bool.false_or, all_eq_true] at hok
      simpa [habs] using hok o ho
  · rcases hall inv hinv with hinv | rfl
    · exact h.filed inv hinv o ho
    · rcases hext.filed o ho with ho | ho
      · obtain ⟨f, hf, hv⟩ := mem_entries.mp (h.filed _ mem_cons_self o ho)
        exact mem_entries.mpr ⟨f, hext.ssts f hf, hv⟩
      · exact ho

end Step

theorem Inv.empty : Inv .empty := by
  refine ⟨.empty, fun inv hinv o ho => ?_⟩
  obtain rfl : inv = .empty := by simpa [State.inventories, State.empty] using hinv
  cases ho

/-- **Synced writes survive rotation.** In every run whose flushes take every key and whose
rotations find the absorbed operations of the segment listed, each operation acknowledged
with sync is durable, or a newer operation over its key is. -/
theorem acked_durable (cfg : Config) (run : List Event) {s : State}
    (hok : Runs.Along (step cfg) (filesAndLists cfg) .empty run = true)
    (hrun : Runs.exec (step cfg) .empty run = some s) :
    ∀ o ∈ s.acked, durable cfg.lossy s o = true ∨
      ∃ n, durable cfg.lossy s n = true ∧ supersedes n o = true := by
  have hinv : Inv s := Runs.exec_invariant (fun _ _ _ h hok hs => h.step hok hs) .empty hok hrun
  -- what CURRENT accounts for is in a listed file, or a newer operation is
  have hlisted : ∀ o, Accounts s.current o → durable cfg.lossy s o = true ∨
      ∃ n, durable cfg.lossy s n = true ∧ supersedes n o = true := by
    intro o ho
    have hkept : keptBy s.current.entries o = true := by
      rcases ho with ho | ho
      · have := hinv.filed s.current (by simp [inventories]) o ho
        simp [keptBy, this]
      · exact ho
    simp only [keptBy, Bool.or_eq_true, contains_iff_mem, any_eq_true] at hkept
    rcases hkept with hmem | ⟨n, hn, hsup⟩
    · exact .inl (by simp [durable, hmem])
    · exact .inr ⟨n, by simp [durable, hn], hsup⟩
  intro o ho
  rcases hinv.covered.acked o ho with hwal | harch | hkept
  · exact .inl (by simp [durable, hwal])
  · rcases hinv.covered.archived o harch with hkept | hw
    · exact hlisted o hkept
    rcases hw.replayed s.current (by simp [inventories]) with hkept | habove
    · exact hlisted o hkept
    · have hpos : 0 < o.sequence := Nat.lt_of_le_of_lt (Nat.zero_le _) hw.above
      have hfloor := cfManifestFloor_lt hpos habove cfg.lossy (cfFamilyOf cfg.lossy o.key)
      refine .inl ?_
      simp only [durable, replayable, Bool.or_eq_true, Bool.and_eq_true, contains_iff_mem,
        decide_eq_true_eq]
      exact .inl (.inr ⟨harch, hfloor⟩)
  · exact hlisted o hkept

/-- No physical families, the change log left to flushes. -/
def plainConfig : Config := ⟨.replacement, [], 0, 64, 64, false⟩

/-- A synced put is absorbed into the run that an asynchronous batch opens; the rotation
that follows drops the segment, and the put is in no log and no file. -/
theorem absorbed_put_lost : ∃ s, Runs.exec (step plainConfig) .empty
        [.commit [.put [7] [5]] true, .bulk defaultFamily [([8], [5])] false, .rotate none] = some s ∧
      .put 1 [7] [5] ∈ s.acked ∧ ∀ n, durable .replacement s n = false := by
  refine ⟨_, rfl, by decide, fun n => ?_⟩
  rfl

-- The families `a` and `c/` are registered. The flush has a file for `a` and one for
-- `default`, and neither takes the key of `c/`.
example : ∃ s, Runs.exec (step { plainConfig with physicalCfs := [[97], [99, 47]] }) .empty
        [.commit [.put [99, 47, 0, 107] [6], .put [97, 0, 107] [5]] true, .switch, .flush fun _ => 0,
          .publish, .rotate none] = some s ∧
      .put 1 [99, 47, 0, 107] [6] ∈ s.acked ∧
      durable .replacement s (.put 1 [99, 47, 0, 107] [6]) = false := by
  refine ⟨_, rfl, by decide +kernel, by decide +kernel⟩

/-- The run of the absorbed put is installed before the rotation. -/
theorem acked_durable_installed : (Runs.exec (step plainConfig) .empty
        [.commit [.put [7] [5]] true, .bulk defaultFamily [([8], [5])] false,
          .installRun defaultFamily, .rotate none]).isSome = true ∧
      ∀ s, Runs.exec (step plainConfig) .empty
          [.commit [.put [7] [5]] true, .bulk defaultFamily [([8], [5])] false,
            .installRun defaultFamily, .rotate none] = some s →
        ∀ o ∈ s.acked, durable plainConfig.lossy s o = true ∨
          ∃ n, durable plainConfig.lossy s n = true ∧ supersedes n o = true :=
  ⟨by decide, fun _ hs => acked_durable plainConfig _ (by decide) hs⟩

end Rotation

end PedraDb.Durable
