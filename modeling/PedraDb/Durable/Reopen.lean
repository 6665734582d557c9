import PedraDb.Durable.Compaction
import PedraDb.Durable.Rotation
import Mathlib.Data.List.TakeWhile

/-! Reopening after a crash.

A crash leaves the listed files, the archived segments and the live one. A reopen replays
the live segment whole, and of an archive what lies above the highest sequence listed for
the operation's family. That an operation is at or below this floor is taken to mean that
the files hold what it says. For a range deletion the family is that of its start, though
it may cover keys of others: the deletion is then left to the files while an older put of
another family comes back into the memtable, in front of them (`deleted_key_returns`). The
same happens to a put in an archive whose later deletion went with a dropped segment.

Where range deletions stay within their family as far as older points go, a flush takes every
key and gives its files the families of their keys, and a rotation drops no operation over an
older point of an archive that stays, a reopen shows every key as it was (`reopen_exact`). -/
namespace PedraDb.Durable
open List State
open Layers (Sees Stops Newest Heads Answers Distinct Formed shown covers_point)
variable {inv : Inventory} {logged : List WriteOp}

def State.lookup (cfg : Config) (s : State) (key : Key) (snap : Nat) : Lookup :=
  Layers.lookup (s.mem :: s.imm.toList) s.runs (bulkFamilyOfKey cfg.physicalCfs key)
    (sstRuns s.inventory.ssts) key snap

def State.replayed (lossy : Lossy) (s : State) : List WriteOp :=
  s.archives.flatten.filter fun o =>
    decide (cfManifestFloor lossy s.current (cfFamilyOf lossy o.key) < o.sequence)

/-- The state after a crash and a reopen. Staged frames, files that are not listed and what
is in memory are gone. -/
def State.reopen (lossy : Lossy) (s : State) : State :=
  let floor := sstMaxSequenceFloor s.current
  let archiveMax := maxSequence s.archives.flatten
  let keeps := !s.archives.isEmpty && (decide (floor < archiveMax) || !(s.replayed lossy).isEmpty)
  -- what is replayed of the archives is within `archiveMax`
  let last := max (max (max floor (maxSequence s.wal)) archiveMax) s.current.earliestReadableSeq
  { empty with
    nextSeq := last + 1
    publishedSeq := last
    mem := s.replayed lossy ++ s.wal
    inventory := s.current
    wal := s.wal
    archives := if keeps then s.archives else []
    walArchiveMaxSeq := if keeps then archiveMax else 0
    changelogDiskWatermark := max s.changelogDiskWatermark (max archiveMax (maxSequence s.wal))
    manifestPublishedSeq := floor
    current := s.current
    logged := s.logged
    acked := s.acked }

section Visible
variable {key : Key} {snap : Nat} {history ops : List WriteOp}

/-- The value that the newest operation over the key gives. -/
def Visible (key : Key) (snap : Nat) (history : List WriteOp) (value : Option Value) : Prop :=
  ∃ look, Answers key snap history look ∧ value = look.value

theorem Visible.unique {a b : Option Value} (hdistinct : Distinct history)
    (ha : Visible key snap history a)
    (hb : Visible key snap history b) : a = b := by
  obtain ⟨look, hlook, rfl⟩ := ha
  obtain ⟨look', hlook', rfl⟩ := hb
  rw [hlook.eq hlook' hdistinct (fun _ h _ => h) fun v hv hsees => ⟨v, hv, hsees, le_rfl⟩]

theorem value_shown {c : WriteOp} (hkind : c.kind ≠ .value) : (shown c).value = none := by
  rw [shown, if_neg hkind]
  rfl

/-- An answer over a part of the history that has the newest operation, or shows no value
where that is none. -/
theorem visible_of_answers {look : Lookup} (hans : Answers key snap ops look)
    (hsub : ∀ v ∈ ops, v ∈ history)
    (hdistinct : Distinct history) (hnewest : ∀ c, Newest key snap history c →
      c ∈ ops ∨ c.kind ≠ .value ∧ ∀ d, Newest key snap ops d → d.kind ≠ .value) :
      Visible key snap history look.value := by
  rcases Layered.newest_or_none (Sees key snap) WriteOp.sequence history with ⟨c, hc⟩ | hnone
  · refine ⟨shown c, .inl ⟨c, hc, rfl⟩, ?_⟩
    rcases hnewest c hc with hmem | ⟨hkind, hno⟩
    · rcases hans with ⟨d, hd, rfl⟩ | ⟨hnone, _⟩
      · have hc' : Newest key snap ops c := ⟨hmem, hc.seen, fun w hw => hc.top w (hsub w hw)⟩
        rw [hd.unique hc' fun v hv w hw => hdistinct v (hsub v hv) w (hsub w hw)]
      · exact absurd hc.seen (hnone c hmem)
    · rw [value_shown hkind]
      rcases hans with ⟨d, hd, rfl⟩ | ⟨_, rfl⟩
      · exact value_shown (hno d hd)
      · rfl
  · refine ⟨.notFound, .inr ⟨hnone, rfl⟩, ?_⟩
    rcases hans with ⟨d, hd, _⟩ | ⟨_, rfl⟩
    · exact absurd hd.seen (hnone d (hsub d hd.mem))
    · rfl

end Visible

namespace Reopen

/-- A step of the store. -/
inductive Event where
  | commit (ops : List BatchOp)
  | switch
  | flush
  | compact (job : Job) (later : Bool)
  | publish
  | take
  | write (i : Nat)
  | store (stored : Option Nat)
  | flushed (stored : Option Nat)
  | rotate (stored : Option Nat)

def step (cfg : Config) (s : State) : Event → Option State
  | .commit ops => s.commitOps ops true
  | .switch => s.switchActiveToImm
  | .flush => s.flushImmToL0 cfg fun _ => 0
  | .compact job later => s.compactLevels cfg job later
  | .publish => some s.persistManifest
  | .take => some s.takeManifestPersist
  | .write i => s.writeManifest i
  | .store stored => some (s.persistChangelogBestEffort stored)
  | .flushed stored => some (s.persistChangelogAfterExplicitFlush cfg stored)
  | .rotate stored => some (s.tryRotateWal cfg stored)

open Rotation (supersedes)

/-- A range deletion is not inverted and covers no older point of another family. -/
def ownFamily (lossy : Lossy) (history : List WriteOp) (r : WriteOp) : Bool :=
  r.kind != .rangeDeletion || (decide (r.key < r.value) &&
    history.all fun p => !supersedes r p || cfFamilyOf lossy p.key == cfFamilyOf lossy r.key)

/-- The files of a flush take every key. Where families are registered and one file takes
them all, its bounds give the family of each. -/
def flushTags (cfg : Config) (t : Table) : Bool :=
  flushTakesAll cfg.lossy cfg.physicalCfs t && (cfg.physicalCfs = [] ||
    decide (1 < (cfFamilies cfg.lossy t).length) && (t.any fun v => taken cfg.lossy t v.key) ||
      t.all fun v => cfFamilyOf cfg.lossy v.key == cfg.label t)

/-- A rotation that drops the segment leaves no archive with an older point that an
operation of the segment covers. -/
def dropsNothingOver (cfg : Config) (s : State) (stored : Option Nat) : Bool :=
  let prepared := (s.drainStaged.prepareRotation cfg stored).drainStaged
  !s.walRotateDecision || prepared.archiveNow cfg || prepared.archives.flatten.all fun p =>
    s.segment.all fun t => !supersedes t p

def deletionsStay (cfg : Config) (s : State) : Event → Bool
  | .commit ops =>
    (stampedFrom s.nextSeq ops).all (ownFamily cfg.lossy (s.logged ++ stampedFrom s.nextSeq ops))
  | .flush => s.imm.all (flushTags cfg)
  | .rotate stored => dropsNothingOver cfg s stored
  | _ => true

/-! ### The invariant -/

/-- What a MANIFEST accounts for: what memtables brought into its files. -/
def Lists (inv : Inventory) (o : WriteOp) : Prop := o ∈ inv.flushed

/-- The operations logged so far, numbered below `next`. -/
structure History (lossy : Lossy) (logged : List WriteOp) (next : Nat) : Prop where
  distinct : Distinct logged
  formed : ∀ v ∈ logged, Formed v
  bounds : ∀ v ∈ logged, 0 < v.sequence ∧ v.sequence < next
  own : OwnFamily lossy logged

/-- The files of an inventory: what they hold was logged, and they show it to the
snapshots from `last` on. -/
structure Sound (cfg : Config) (logged : List WriteOp) (last : Nat) (inv : Inventory) : Prop where
  flushed : ∀ o ∈ inv.flushed, o ∈ logged
  filed : ∀ v ∈ inv.entries, v ∈ inv.flushed
  tagged : Tagged cfg inv.ssts
  ordered : ∀ key snap, last ≤ snap → FileOrder key snap inv.ssts
  reflects : ∀ key snap, last ≤ snap → Reflects key snap inv

structure Inv (cfg : Config) (s : State) : Prop where
  covered : Covered Lists s
  plain : s.staged = [] ∧ s.wallessSeqHigh = 0 ∧ s.absorbed = [] ∧ s.runs = []
  history : History cfg.lossy s.logged s.nextSeq
  memory : ∀ o ∈ s.memory, o ∈ s.logged
  wal : ∀ o ∈ s.wal, o ∈ s.logged
  archives : ∀ o ∈ s.archives.flatten, o ∈ s.logged
  /-- Memtables are newer than what was flushed. -/
  fresh : ∀ w ∈ s.inventory.flushed, ∀ o ∈ s.memory, w.sequence < o.sequence
  sound : ∀ inv ∈ s.inventories, Sound cfg s.logged s.lastSequence inv
  /-- The live segment has all that came after its first operation. -/
  live : ∀ p ∈ s.wal, ∀ t ∈ s.logged, p.sequence ≤ t.sequence → t ∈ s.wal
  /-- So have the archives from any of them on, as far as their points are concerned. -/
  closed : ∀ n, ∀ p ∈ (s.archives.drop n).flatten, ∀ t ∈ s.logged, supersedes t p = true →
    t ∈ (s.archives.drop n).flatten ∨ t ∈ s.wal

section Step
variable {cfg : Config} {s s' : State}

theorem supersedes_iff {t p : WriteOp} :
    supersedes t p = true ↔ p.sequence < t.sequence ∧ p.kind ≠ .rangeDeletion ∧
    t.covers p.key = true := by
  simp [supersedes, and_assoc]

attribute [local simp] empty in
theorem Inv.empty : Inv cfg .empty := by
  refine ⟨.empty, by simp [State.runs], ⟨?_, ?_, ?_, ?_⟩, ?_, ?_, ?_, ?_, fun inv hinv => ?_, ?_, ?_⟩
  · simp [Distinct]
  · simp
  · simp
  · simp [OwnFamily]
  · simp [State.memory]
  · simp
  · simp
  · simp [Inventory.empty]
  · obtain rfl : inv = .empty := by simpa [State.inventories] using hinv
    refine ⟨by simp [Inventory.empty], by simp [Inventory.entries,
      Inventory.empty], by simp [Tagged, Inventory.empty],
      fun _ _ _ => .nil, fun _ _ _ c hc => ?_⟩
    cases hc.mem
  · simp
  · simp

/-! ### Steps that change no table -/

/-- Archives may go from the old end, and MANIFESTs may be written. -/
structure Keeps (s s' : State) : Prop where
  nextSeq : s'.nextSeq = s.nextSeq
  mem : s'.mem = s.mem
  imm : s'.imm = s.imm
  runs : s'.runs = s.runs
  wal : s'.wal = s.wal
  staged : s'.staged = s.staged
  wallessSeqHigh : s'.wallessSeqHigh = s.wallessSeqHigh
  absorbed : s'.absorbed = s.absorbed
  logged : s'.logged = s.logged
  inventory : s'.inventory = s.inventory
  inventories : ∀ inv ∈ s'.inventories, inv ∈ s.inventories
  archives : ∃ n, s'.archives = s.archives.drop n

theorem Inv.keeps (h : Inv cfg s) (hk : Keeps s s') (hcovered : Covered Lists s') : Inv cfg s' := by
  cases s'
  obtain ⟨rfl, rfl, rfl, hruns, rfl, rfl, rfl, rfl, rfl, rfl, hinventories, n, rfl⟩ := hk
  refine ⟨hcovered, ?_, h.history, h.memory, h.wal, fun o ho => ?_, h.fresh,
    fun inv hinv => h.sound inv (hinventories inv hinv),
    h.live, fun m p hp t ht hsup => ?_⟩
  · rw [hruns]
    exact h.plain
  · obtain ⟨seg, hseg, ho⟩ := mem_flatten.mp ho
    exact h.archives o (mem_flatten.mpr ⟨seg, mem_of_mem_drop hseg, ho⟩)
  · rw [drop_drop] at hp ⊢
    exact h.closed (n + m) p hp t ht hsup

theorem persistManifest_keeps (s : State) : Keeps s s.persistManifest :=
  ⟨rfl, rfl, rfl, rfl, rfl, rfl, rfl, rfl, rfl, rfl, persistManifest_inventories s, 0, rfl⟩

theorem takeManifestPersist_keeps (s : State) : Keeps s s.takeManifestPersist :=
  ⟨rfl, rfl, rfl, rfl, rfl, rfl, rfl, rfl, rfl, rfl, takeManifestPersist_inventories s, 0, rfl⟩

theorem writeManifest_keeps {i : Nat} (hs : s.writeManifest i = some s') : Keeps s s' := by
  have hsub := (Rotation.write_succeeds hs)
  rw [writeManifest] at hs
  split at hs
  · cases hs
  simp only at hs
  have hinv : ∀ inv ∈ s'.inventories, s'.inventory = s.inventory → inv ∈ s.inventories := by
    intro inv hinv heq
    rcases hsub.2 inv hinv with h | rfl
    · exact h
    · rw [heq]
      exact mem_cons_self
  split at hs
  · cases hs
    exact ⟨rfl, rfl, rfl, rfl, rfl, rfl, rfl, rfl, rfl, rfl, fun inv h => hinv inv h rfl, 0, rfl⟩
  · cases hs
    exact ⟨rfl, rfl, rfl, rfl, rfl, rfl, rfl, rfl, rfl, rfl, fun inv h => hinv inv h rfl, 0, rfl⟩

theorem Keeps.trans {s₁ s₂ s₃ : State} (h : Keeps s₁ s₂) (h' : Keeps s₂ s₃) : Keeps s₁ s₃ := by
  obtain ⟨n, hn⟩ := h.archives
  obtain ⟨m, hm⟩ := h'.archives
  exact ⟨h'.nextSeq.trans h.nextSeq, h'.mem.trans h.mem, h'.imm.trans h.imm, h'.runs.trans h.runs,
    h'.wal.trans h.wal,
    h'.staged.trans h.staged, h'.wallessSeqHigh.trans h.wallessSeqHigh, h'.absorbed.trans h.absorbed,
    h'.logged.trans h.logged, h'.inventory.trans h.inventory, fun inv hinv =>
    h.inventories inv (h'.inventories inv hinv),
    n + m, by rw [hm, hn, drop_drop]⟩

theorem persistChangelog_keeps (s : State) (stored : Option Nat) :
    Keeps s (s.persistChangelogBestEffort stored) := by
  obtain ⟨_, _, n, heq⟩ := persistChangelog_eq s stored
  rw [heq]
  exact ⟨rfl, rfl, rfl, rfl, rfl, rfl, rfl, rfl, rfl, rfl, fun _ h => h, n, rfl⟩

theorem explicitFlush_keeps (s : State) (stored : Option Nat) :
    Keeps s (s.persistChangelogAfterExplicitFlush cfg stored) := by
  have hcount : Keeps s { s with changelogFlushesSinceStore := s.changelogFlushesSinceStore + 1 } :=
    ⟨rfl, rfl, rfl, rfl, rfl, rfl, rfl, rfl, rfl, rfl, fun _ h => h, 0, rfl⟩
  rw [persistChangelogAfterExplicitFlush]
  split
  · simp only
    split
    · exact (hcount.trans (persistManifest_keeps _)).trans (persistChangelog_keeps _ stored)
    · exact hcount
  · exact ⟨rfl, rfl, rfl, rfl, rfl, rfl, rfl, rfl, rfl, rfl, fun _ h => h, 0, rfl⟩

theorem prepareRotation_keeps (cfg : Config) (s : State) (stored : Option Nat) :
    Keeps s (s.prepareRotation cfg stored) := by
  obtain ⟨_, _, n, heq⟩ := prepareRotation_eq s cfg stored
  rw [heq]
  split
  · have h := persistManifest_keeps s
    exact ⟨rfl, rfl, rfl, rfl, rfl, rfl, rfl, rfl, rfl, rfl, h.inventories, n, rfl⟩
  · exact ⟨rfl, rfl, rfl, rfl, rfl, rfl, rfl, rfl, rfl, rfl, fun _ h => h, n, rfl⟩

theorem stampedFrom_distinct (seq : Nat) (ops : List BatchOp) : Distinct (stampedFrom seq ops) := by
  induction ops generalizing seq with
  | nil => simp [stampedFrom, Distinct]
  | cons op ops ih =>
    intro v hv w hw heq
    rw [stampedFrom] at hv hw
    rcases mem_cons.mp hv with rfl | hv
    · rcases mem_cons.mp hw with rfl | hw
      · rfl
      · have := stampedFrom_sequence hw
        rw [stamped_sequence] at heq
        omega
    · rcases mem_cons.mp hw with rfl | hw
      · have := stampedFrom_sequence hv
        rw [stamped_sequence] at heq
        omega
      · exact ih (seq + 1) v hv w hw heq

theorem History.append {lossy : Lossy} {recs : List WriteOp} {next next' : Nat}
    (h : History lossy logged next) (hpos : 0 < next) (hle : next ≤ next')
    (hrecs : ∀ v ∈ recs, next ≤ v.sequence ∧ v.sequence < next') (hdistinct : Distinct recs)
    (hown : ∀ r ∈ recs, ownFamily lossy (logged ++ recs) r = true) :
    History lossy (logged ++ recs) next' := by
  have hnew : ∀ v ∈ recs, ∀ w ∈ logged, w.sequence < v.sequence := fun v hv w hw =>
    lt_of_lt_of_le (h.bounds w hw).2 (hrecs v hv).1
  have hrange : ∀ r ∈ recs, r.kind = .rangeDeletion → r.key < r.value ∧
      ∀ p ∈ logged ++ recs, supersedes r p = true →
        cfFamilyOf lossy p.key = cfFamilyOf lossy r.key := by
    intro r hr hkind
    have hr := hown r hr
    simp only [ownFamily, hkind, bne_self_eq_false, Bool.false_or, Bool.and_eq_true,
      decide_eq_true_eq, all_eq_true] at hr
    exact ⟨hr.1, fun p hp hsup => by simpa [hsup] using hr.2 p hp⟩
  refine ⟨fun v hv w hw heq => ?_, fun v hv => ?_, fun v hv => ?_,
    fun r hr hkind p hp hpoint hlt hcovers => ?_⟩
  · rcases mem_append.mp hv with hv | hv
    · rcases mem_append.mp hw with hw | hw
      · exact h.distinct v hv w hw heq
      · exact absurd heq (ne_of_lt (hnew w hw v hv))
    · rcases mem_append.mp hw with hw | hw
      · exact absurd heq.symm (ne_of_lt (hnew v hv w hw))
      · exact hdistinct v hv w hw heq
  · rcases mem_append.mp hv with hv | hv
    · exact h.formed v hv
    · exact fun hkind => ⟨(hrange v hv hkind).1, lt_of_lt_of_le hpos (hrecs v hv).1⟩
  · rcases mem_append.mp hv with hv | hv
    · exact ⟨(h.bounds v hv).1, lt_of_lt_of_le (h.bounds v hv).2 hle⟩
    · exact ⟨lt_of_lt_of_le hpos (hrecs v hv).1, (hrecs v hv).2⟩
  · rcases mem_append.mp hr with hr | hr
    · rcases mem_append.mp hp with hp | hp
      · exact h.own r hr hkind p hp hpoint hlt hcovers
      · exact absurd hlt (not_lt.mpr (le_of_lt (hnew p hp r hr)))
    · exact (hrange r hr hkind).2 p hp (supersedes_iff.mpr ⟨hlt, hpoint, hcovers⟩)

theorem Sound.mono {logged' : List WriteOp} {last last' : Nat} (h : Sound cfg logged last inv)
    (hlogged : ∀ v ∈ logged, v ∈ logged') (hlast : last ≤ last') : Sound cfg logged' last' inv :=
  ⟨fun o ho => hlogged o (h.flushed o ho), h.filed, h.tagged,
    fun key snap hle => h.ordered key snap (le_trans hlast hle),
    fun key snap hle => h.reflects key snap (le_trans hlast hle)⟩

theorem Inv.commit (h : Inv cfg s) {ops : List BatchOp} (hok : deletionsStay cfg s (.commit ops) = true)
    (hs : s.commitOps ops true = some s') : Inv cfg s' := by
  have hcovered := h.covered.commitOps hs
  simp only [State.commitOps] at hs
  split at hs
  · cases hs
  have hrecs : ∀ v ∈ stampedFrom s.nextSeq ops, s.nextSeq ≤ v.sequence ∧
    v.sequence < s.nextSeq + ops.length :=
    fun v hv => stampedFrom_sequence hv
  have hnew : ∀ v ∈ stampedFrom s.nextSeq ops, ∀ w ∈ s.logged, w.sequence < v.sequence := fun v hv w hw =>
    lt_of_lt_of_le (h.history.bounds w hw).2 (hrecs v hv).1
  have hhistory := h.history.append h.covered.positive (Nat.le_add_right _ _) hrecs
    (stampedFrom_distinct _ _)
    (by simpa [deletionsStay] using hok)
  generalize stampedFrom s.nextSeq ops = recs at *
  have hmemory : ∀ o ∈ (s.mem ++ recs) ++ s.imm.toList.flatten, o ∈ s.memory ∨ o ∈ recs := by
    intro o ho
    simp only [State.memory, mem_append] at ho ⊢
    tauto
  have hwal : ∀ o, o ∈ s.wal ++ s.staged ++ recs ↔ o ∈ s.wal ∨ o ∈ recs := by simp [h.plain.1]
  cases hs
  refine ⟨hcovered, ⟨rfl, h.plain.2⟩, hhistory, fun o ho => ?_, fun o ho => ?_, fun o ho => ?_,
    fun w hw o ho => ?_,
    fun inv hinv => (h.sound inv hinv).mono (fun v hv => mem_append_left _ hv) ?_,
    fun p hp t ht hle => ?_,
    fun n p hp t ht hsup => ?_⟩
  · rcases hmemory o ho with ho | ho
    · exact mem_append_left _ (h.memory o ho)
    · exact mem_append_right _ ho
  · rcases (hwal o).mp ho with ho | ho
    · exact mem_append_left _ (h.wal o ho)
    · exact mem_append_right _ ho
  · exact mem_append_left _ (h.archives o ho)
  · rcases hmemory o ho with ho | ho
    · exact h.fresh w hw o ho
    · exact hnew o ho w ((h.sound _ mem_cons_self).flushed w hw)
  · simp only [State.lastSequence]
    omega
  · refine (hwal t).mpr ?_
    rcases mem_append.mp ht with ht | ht
    · rcases (hwal p).mp hp with hp | hp
      · exact .inl (h.live p hp t ht hle)
      · exact absurd hle (not_le.mpr (hnew p hp t ht))
    · exact .inr ht
  · rcases mem_append.mp ht with ht | ht
    · exact (h.closed n p hp t ht hsup).imp_right fun ht => (hwal t).mpr (.inl ht)
    · exact .inr ((hwal t).mpr (.inr ht))

/-! ### Memtables become files -/

theorem Inv.switch (h : Inv cfg s) (hs : s.switchActiveToImm = some s') : Inv cfg s' := by
  have hcovered := h.covered.switchActiveToImm hs
  obtain ⟨rfl, hmemory⟩ := switchActiveToImm_cases hs
  exact { h with
    covered := hcovered
    memory := fun o ho => h.memory o ((hmemory o).mp ho)
    fresh := fun w hw o ho => h.fresh w hw o ((hmemory o).mp ho) }

theorem flushFiles_split {lossy : Lossy} {physicalCfs : List Key} {t : Table}
    (hcfs : physicalCfs ≠ []) (hmany : 1 < (cfFamilies lossy t).length)
    (htaken : ∃ v ∈ t, taken lossy t v.key = true) :
    flushFiles lossy physicalCfs t = familyFiles lossy t := by
  obtain ⟨v, hv⟩ := htaken
  obtain ⟨f, hf, _⟩ := mem_familyFiles.mpr hv
  have hsome : (familyFiles lossy t).isEmpty = false := by
    simpa using ne_nil_of_mem hf
  rw [flushFiles, if_neg]
  simp [hcfs, hmany, hsome]

/-- A file of one family has the keys of that family. -/
theorem familyFiles_tag {lossy : Lossy} {t : Table} {f : Key × Table}
    (hf : f ∈ familyFiles lossy t) {v : WriteOp} (hv : v ∈ f.2) :
    cfFamilyOf lossy v.key = f.1 := by
  obtain ⟨g, hg, rfl⟩ := mem_map.mp (mem_filter.mp hf).1
  exact cfFamilyOf_of_keyInCfFamily hg (mem_filter.mp hv).2

theorem writeImmL0Files_tagged {level : Key → Nat} {t : Table} (h : flushTags cfg t = true) :
    Tagged cfg (writeImmL0Files cfg level t) := by
  intro hcfs g hg v hv
  obtain ⟨f, hf, rfl⟩ := mem_map.mp hg
  have hv : v ∈ f.2 := hv
  simp only [flushTags, hcfs, Bool.and_eq_true, Bool.or_eq_true, decide_eq_true_eq, any_eq_true,
    all_eq_true, beq_iff_eq, decide_false, Bool.false_eq_true, false_or] at h
  rcases h.2 with ⟨hmany, htaken⟩ | hlabel
  · rw [flushFiles_split hcfs hmany htaken] at hf
    exact familyFiles_tag hf hv
  · rcases flushFiles_cases hf with rfl | ⟨hfamily, hfilter⟩
    · exact hlabel v hv
    · rw [hfilter] at hv
      exact cfFamilyOf_of_keyInCfFamily hfamily (mem_filter.mp hv).2

theorem writeImmL0Files_ordered {t : List WriteOp} (hown : OwnFamily cfg.lossy logged)
    (ht : ∀ v ∈ t, v ∈ logged) (key : Key) (snap : Nat) :
    FileOrder key snap (writeImmL0Files cfg (fun _ => 0) t) := by
  have hlevel : ∀ f ∈ writeImmL0Files cfg (fun _ => 0) t, f.level = 0 := by
    intro f hf
    obtain ⟨_, _, rfl⟩ := mem_map.mp hf
    rfl
  refine ⟨pairwise_map.mpr ?_, fun f hf g hg hlt => ?_⟩
  swap
  · rw [hlevel f hf, hlevel g hg] at hlt
    cases hlt
  rw [flushFiles]
  split
  · exact pairwise_singleton _ _
  -- two files of one split are of two families
  have hnames : (familyFiles cfg.lossy t).Pairwise fun f g => f.1 ≠ g.1 := by
    refine Pairwise.filter _ (pairwise_map.mpr ((families_sorted _).imp fun {a b} hlt heq => ?_))
    have heq : a = b := heq
    exact List.lt_irrefl _ (heq ▸ hlt)
  refine hnames.imp_of_mem fun {f g} hf hg hne _ => ?_
  have hmem : ∀ {f}, f ∈ familyFiles cfg.lossy t → ∀ v ∈ f.2, v ∈ logged := fun hf v hv =>
    ht v (mem_familyFiles.mp ⟨_, hf, hv⟩).1
  refine heads_of_family hown (hmem hg) (hmem hf) fun v hv w hw heq => hne ?_
  rw [← familyFiles_tag hf hw, ← familyFiles_tag hg hv, heq]

theorem Inv.flush (h : Inv cfg s) (hok : deletionsStay cfg s .flush = true)
    (hs : s.flushImmToL0 cfg (fun _ => 0) = some s') : Inv cfg s' := by
  have hall : Rotation.filesAndLists cfg s (.flush fun _ => 0) = true := by
    cases himm : s.imm with
    | none => rw [Rotation.filesAndLists, himm]; rfl
    | some t =>
      rw [deletionsStay, himm, Option.all_some, flushTags, Bool.and_eq_true] at hok
      rw [Rotation.filesAndLists, himm, Option.all_some, hok.1]
  have hgrow : ∀ o, Lists s.inventory o → Lists s'.inventory o :=
    (Rotation.flush_succeeds hall hs).1.flushed
  have hcovered := h.covered.flushImmToL0 (fun _ _ ho => ho) hs hgrow
  rw [flushImmToL0] at hs
  split at hs
  · cases hs
  rename_i t himm
  rw [Rotation.filesAndLists, himm, Option.all_some] at hall
  rw [deletionsStay, himm, Option.all_some] at hok
  have hsound := h.sound _ mem_cons_self
  have ht : ∀ v ∈ t, v ∈ s.memory := fun v hv => mem_append_right _ (by simpa [himm] using hv)
  have hnewer : ∀ v ∈ t, ∀ w ∈ s.inventory.flushed, w.sequence < v.sequence :=
    fun v hv w hw => h.fresh w hw v (ht v hv)
  have hent : ∀ v, v ∈ (s.inventory.ssts ++ writeImmL0Files cfg (fun _ => 0) t).flatMap Sst.table ↔
      v ∈ s.inventory.entries ∨ v ∈ t := by
    intro v
    rw [flatMap_append, mem_append, mem_writeImmL0Files hall]
    rfl
  have hmemory : ∀ o ∈ s.mem ++ (none : Option Table).toList.flatten, o ∈ s.mem := by simp
  cases hs
  refine { h with
    covered := hcovered
    memory := fun o ho => h.memory o (mem_append_left _ (hmemory o ho))
    fresh := fun w hw o ho => ?_
    sound := fun inv hinv => ?_ }
  · have ho := hmemory o ho
    rcases mem_append.mp hw with hw | hw
    · exact h.fresh w hw o (mem_append_left _ ho)
    · exact h.covered.recent w (by simpa [himm] using hw) o ho
  · rcases mem_cons.mp hinv with rfl | hinv
    swap
    · exact h.sound inv (mem_cons_of_mem _ hinv)
    refine ⟨forall_mem_append.mpr ⟨hsound.flushed, fun o ho => h.memory o (ht o ho)⟩, fun v hv => ?_,
      fun hcfs => forall_mem_append.mpr ⟨hsound.tagged hcfs, writeImmL0Files_tagged hok hcfs⟩,
      fun key snap hle => ?_,
      fun key snap hle c hc => ?_⟩
    · rcases (hent v).mp hv with hv | hv
      · exact mem_append_left _ (hsound.filed v hv)
      · exact mem_append_right _ hv
    · have hfile : ∀ g ∈ writeImmL0Files cfg (fun _ => 0) t,
          g.level = 0 ∧ ∀ v ∈ g.table, v ∈ t := by
        intro g hg
        refine ⟨?_, fun v hv => writeImmL0Files_subset (mem_flatMap.mpr ⟨g, hg, hv⟩)⟩
        obtain ⟨_, _, rfl⟩ := mem_map.mp hg
        rfl
      refine (hsound.ordered key snap hle).append
        (writeImmL0Files_ordered h.history.own (fun v hv => h.memory v (ht v hv)) key snap)
        (fun f hf g hg _ => Layered.Heads.of_lt (fun _ h => h.1) fun v hv w hw _ _ => ?_)
        fun f _ g hg hlt => ?_
      · exact le_of_lt (hnewer v ((hfile g hg).2 v hv) w (hsound.filed w (mem_entries.mpr ⟨f, hf, hw⟩)))
      · rw [(hfile g hg).1] at hlt
        cases hlt
    · rcases mem_append.mp hc.mem with hmem | hmem
      swap
      · exact .inl ((hent c).mpr (.inr hmem))
      -- nothing of the memtable is seen, it would be newer
      have hunseen : ∀ v ∈ t, ¬ Sees key snap v := fun v hv hsees =>
        absurd (hc.top v (mem_append_right _ hv) hsees) (not_le.mpr (hnewer v hv c hmem))
      have hold : Newest key snap s.inventory.flushed c :=
        ⟨hmem, hc.seen, fun w hw => hc.top w (mem_append_left _ hw)⟩
      refine (hsound.reflects key snap hle c hold).imp (fun hin => (hent c).mpr (.inl hin))
        (And.imp_right fun hnone w hw hsees => ?_)
      rcases (hent w).mp hw with hw | hw
      · exact hnone w hw hsees
      · exact absurd hsees (hunseen w hw)

theorem Sound.rewriteSsts {next last : Nat} {inv' : Inventory} {job : Job}
    (h : Sound cfg logged last inv) (hhistory : History cfg.lossy logged next)
    (holdest : ∀ o, job.oldest = some o → o ≤ last)
    (hjob : job.rewriteSsts cfg inv = some inv') : Sound cfg logged last inv' := by
  have hflushed : inv'.flushed = inv.flushed := by rw [(rewriteSsts_eq hjob).1]
  have hsub : ∀ v ∈ inv.entries, v ∈ logged := fun v hv => h.flushed v (h.filed v hv)
  refine ⟨hflushed ▸ h.flushed, fun v hv => hflushed ▸ h.filed v (entries_rewriteSsts hjob hv),
    h.tagged.rewriteSsts hjob,
    fun key snap hle => ?_, fun key snap hle => ?_⟩
  · exact (h.ordered key snap hle).rewriteSsts hhistory.own hhistory.distinct hsub h.tagged
      (fun o ho => le_trans (holdest o ho) hle) hjob
  · exact (h.reflects key snap hle).rewriteSsts hhistory.distinct hsub h.tagged
      (fun o ho => le_trans (holdest o ho) hle) h.filed hjob

theorem Inv.compact (h : Inv cfg s) {job : Job} {later : Bool}
    (hs : s.compactLevels cfg job later = some s') : Inv cfg s' := by
  rw [compactLevels] at hs
  split at hs
  · cases hs
  rename_i holdest
  split at hs
  · cases hs
  rename_i inv' hjob
  have holdest : ∀ o, job.oldest = some o → o ≤ s.lastSequence := by
    intro o ho
    simpa [ho] using holdest
  have hflushed : inv'.flushed = s.inventory.flushed := by rw [(rewriteSsts_eq hjob).1]
  have hcovered : Covered Lists { s with inventory := inv', manifestDirty := true } := by
    have hext := h.covered.extend (fun _ _ ho => ho) s.imm [] false (by simp)
      (by rw [hflushed, append_nil])
      (fun v hv => .inl (entries_rewriteSsts hjob hv)) (fun o ho =>
        show o ∈ inv'.flushed from hflushed ▸ ho) (by simp) (by simp)
    rw [Bool.or_false] at hext
    exact hext
  have hinv : Inv cfg { s with inventory := inv', manifestDirty := true } := by
    refine { h with
      covered := hcovered
      fresh := fun w hw => h.fresh w (hflushed ▸ hw)
      sound := fun inv hinv => ?_ }
    rcases mem_cons.mp hinv with rfl | hinv
    · exact (h.sound _ mem_cons_self).rewriteSsts h.history holdest hjob
    · exact h.sound inv (mem_cons_of_mem _ hinv)
  cases hs
  split
  · exact hinv.keeps (takeManifestPersist_keeps _) hcovered.takeManifestPersist
  · exact hinv.keeps (persistManifest_keeps _) (hcovered.persistManifest fun _ _ ho => ho)

theorem Inv.rotate (h : Inv cfg s) {stored : Option Nat} (hok : dropsNothingOver cfg s stored = true) :
    Inv cfg (s.tryRotateWal cfg stored) := by
  have hcovered : Covered Lists (s.tryRotateWal cfg stored) :=
    h.covered.tryRotateWal (fun _ _ ho => ho) (fun _ o _ habs => by simp [h.plain.2.2.1] at habs) stored
  have hdrain : s.drainStaged = s := by
    rw [drainStaged, h.plain.1, append_nil]
    have hstaged := h.plain.1
    cases s
    simp_all
  rw [tryRotateWal] at hcovered ⊢
  split
  swap
  · exact h
  rename_i hidle
  rw [hdrain] at hcovered ⊢
  split
  · exact h
  rename_i hne
  rw [if_pos hidle, if_neg hne] at hcovered
  rw [rotateWalNow] at hcovered ⊢
  simp only [dropsNothingOver, hidle, hdrain, Bool.not_true, Bool.false_or, Bool.or_eq_true] at hok
  have hprep := h.keeps (prepareRotation_keeps cfg s stored)
    (h.covered.prepareRotation cfg (fun _ _ ho => ho) stored)
  have hwal : (s.prepareRotation cfg stored).wal = s.wal := (prepareRotation_keeps cfg s stored).wal
  have hdrain' : (s.prepareRotation cfg stored).drainStaged = s.prepareRotation cfg stored := by
    rw [drainStaged, hprep.plain.1, append_nil]
    have hstaged := hprep.plain.1
    generalize s.prepareRotation cfg stored = s₁ at hstaged ⊢
    cases s₁
    simp_all
  rw [hdrain'] at hcovered hok ⊢
  have hsegment : s.segment = s.wal := by rw [State.segment, h.plain.1, append_nil]
  rw [hsegment, ← hwal] at hok
  generalize s.prepareRotation cfg stored = s₁ at hcovered hprep hok ⊢
  split at hcovered
  · rename_i harchive
    rw [if_pos harchive]
    refine { hprep with
      covered := hcovered
      wal := by simp [archiveSegment]
      archives := fun o ho => ?_
      live := by simp [archiveSegment]
      closed := fun n p hp t ht hsup => ?_ }
    · simp only [archiveSegment, flatten_append, mem_append, flatten_cons, flatten_nil, append_nil] at ho
      exact ho.elim (hprep.archives o) (hprep.wal o)
    · refine .inl ?_
      simp only [archiveSegment, drop_append, flatten_append, mem_append] at hp ⊢
      rcases hp with hp | hp
      · -- archives are left, so the new one is too
        have hlt : n < s₁.archives.length := by
          by_contra hge
          simp [drop_eq_nil_of_le (not_lt.mp hge)] at hp
        rw [Nat.sub_eq_zero_of_le (le_of_lt hlt)]
        simpa using hprep.closed n p hp t ht hsup
      · right
        obtain ⟨seg, hseg, hp⟩ := mem_flatten.mp hp
        obtain rfl := mem_singleton.mp (mem_of_mem_drop hseg)
        exact mem_flatten.mpr ⟨_, hseg, hprep.live p hp t ht (le_of_lt (supersedes_iff.mp hsup).1)⟩
  · rename_i harchive
    rw [if_neg harchive]
    refine { hprep with
      covered := hcovered
      wal := by simp [truncateSegment]
      live := by simp [truncateSegment]
      closed := fun n p hp t ht hsup => .inl ?_ }
    rcases hprep.closed n p hp t ht hsup with hin | hin
    · exact hin
    have hin' : p ∈ s₁.archives.flatten := by
      obtain ⟨seg, hseg, hp⟩ := mem_flatten.mp hp
      exact mem_flatten.mpr ⟨seg, mem_of_mem_drop hseg, hp⟩
    have hnone := hok.resolve_left harchive
    rw [all_eq_true] at hnone
    have hnone := all_eq_true.mp (hnone p hin') t hin
    simp [hsup] at hnone

theorem Inv.step (h : Inv cfg s) {e : Event} (hok : deletionsStay cfg s e = true)
    (hs : step cfg s e = some s') : Inv cfg s' := by
  cases e with
  | commit ops => exact h.commit hok hs
  | switch => exact h.switch hs
  | flush => exact h.flush hok hs
  | compact job later => exact h.compact hs
  | publish =>
    cases hs
    exact h.keeps (persistManifest_keeps s) (h.covered.persistManifest fun _ _ ho => ho)
  | take =>
    cases hs
    exact h.keeps (takeManifestPersist_keeps s) h.covered.takeManifestPersist
  | write i => exact h.keeps (writeManifest_keeps hs) (h.covered.writeManifest hs)
  | store stored =>
    cases hs
    exact h.keeps (persistChangelog_keeps s stored) (h.covered.persistChangelogBestEffort stored)
  | flushed stored =>
    cases hs
    exact h.keeps (explicitFlush_keeps s stored)
      (h.covered.persistChangelogAfterExplicitFlush (fun _ _ ho => ho) stored)
  | rotate stored =>
    cases hs
    exact h.rotate hok

end Step

/-! ### Before the crash and after the reopen -/

section Exact
variable {cfg : Config} {s : State} (h : Inv cfg s)
include h

theorem Inv.stored {o : WriteOp} (ho : o ∈ s.logged) : o ∈ s.memory ∨ o ∈ s.inventory.flushed := by
  have hcurrent : ∀ o, Lists s.current o → Lists s.inventory o :=
    h.covered.grown s.current (mem_cons_of_mem _ mem_cons_self)
  rcases h.covered.logged o ho with hseg | harch | hkept
  · rcases h.covered.held o hseg with hmem | hflushed | habs
    · exact .inl hmem
    · exact .inr hflushed
    · rw [h.plain.2.2.1] at habs
      cases habs
  · rcases h.covered.archived o harch with hkept | hw
    · exact .inr (hcurrent o hkept)
    · exact .inr hw.flushed
  · exact .inr (hcurrent o hkept)

/-- A read through one memtable after the other and the files, where the memtables head
the files. -/
theorem Inv.answers (hinv : inv ∈ s.inventories) (layers : List Table) (family key : Key)
    (hlayers : ∀ v ∈ layers.flatten, v ∈ s.logged) (hpair : layers.Pairwise (Heads key s.lastSequence))
    (hheads : ∀ t ∈ layers, ∀ f ∈ inv.ssts, Heads key s.lastSequence t f.table) :
    Answers key s.lastSequence (layers ++ (sstRuns inv.ssts).flatten).flatten
      (Layers.lookup layers [] family (sstRuns inv.ssts) key s.lastSequence) := by
  have hsound := h.sound inv hinv
  have hsub : ∀ v ∈ (layers ++ (sstRuns inv.ssts).flatten).flatten, v ∈ s.logged := by
    intro v hv
    rw [flatten_append] at hv
    rcases mem_append.mp hv with hv | hv
    · exact hlayers v hv
    · exact hsound.flushed v (hsound.filed v (mem_entries.mpr (mem_sstRuns.mp hv)))
  refine Layers.lookup_answers_of_leads
    (Layered.leads_of_pairwise (pairwise_append.mpr ⟨hpair, ?_, ?_⟩) [])
    (fun v hv w hw => h.history.distinct v (hsub v hv) w (hsub w hw))
    (fun v hv => h.history.formed v (hlayers v hv))
    (fun v hv _ => (h.history.bounds v (hsub v hv)).1) fun _ => rfl
  · exact (hsound.ordered key s.lastSequence le_rfl).pairwise
  · intro t ht u hu
    simp only [sstRuns, mem_flatten, mem_map] at hu
    obtain ⟨_, ⟨l, _, rfl⟩, hu⟩ := hu
    obtain ⟨f, hf, rfl⟩ := mem_map.mp (mem_reverse.mp hu)
    exact hheads t ht f (mem_filter.mp hf).1

/-- A newest operation that was flushed shows in the files of an inventory that accounts
for it. -/
theorem Inv.reflected (hinv : inv ∈ s.inventories) {key : Key} {c : WriteOp}
    (hc : Newest key s.lastSequence s.logged c) (hlisted : c ∈ inv.flushed) :
    c ∈ inv.entries ∨ c.kind ≠ .value ∧ ∀ w ∈ inv.entries, Sees key s.lastSequence w →
    w.kind ≠ .value := by
  have hsound := h.sound inv hinv
  exact hsound.reflects key _ le_rfl c ⟨hlisted, hc.seen, fun w hw => hc.top w (hsound.flushed w hw)⟩

/-- The running store shows the history. -/
theorem Inv.visible (key : Key) : Visible key s.lastSequence s.logged
    (s.lookup cfg key s.lastSequence).value := by
  have hsound := h.sound _ mem_cons_self
  have hans := h.answers mem_cons_self (s.mem :: s.imm.toList)
    (bulkFamilyOfKey cfg.physicalCfs key) key h.memory ?_ ?_
  · rw [State.lookup, h.plain.2.2.2]
    refine visible_of_answers hans (fun v hv => ?_) h.history.distinct fun c hc => ?_
    · rw [flatten_append] at hv
      rcases mem_append.mp hv with hv | hv
      · exact h.memory v hv
      · exact hsound.flushed v (hsound.filed v (mem_entries.mpr (mem_sstRuns.mp hv)))
    · rw [flatten_append, mem_append, mem_sstRuns]
      rcases h.stored hc.mem with hmem | hflushed
      · exact .inl (.inl hmem)
      refine (h.reflected mem_cons_self hc hflushed).imp (fun hin => .inr (mem_entries.mp hin))
        fun ⟨hkind, hnone⟩ =>
        ⟨hkind, fun d hd => ?_⟩
      rcases mem_append.mp hd.mem with hmem | hmem
      · -- the memtables see nothing: it would be newer
        have hle := hc.top d (h.memory d hmem) hd.seen
        exact absurd hle (not_le.mpr (h.fresh c hflushed d hmem))
      · exact hnone d (mem_entries.mpr (mem_sstRuns.mp hmem)) hd.seen
  · refine pairwise_cons.mpr ⟨fun t ht =>
      Layered.Heads.of_lt (fun _ h => h.1) fun v hv w hw _ _ => ?_, ?_⟩
    · exact le_of_lt (h.covered.recent w (mem_flatten.mpr ⟨t, ht, hw⟩) v hv)
    · cases s.imm <;> simp
  · intro t ht f hf
    refine Layered.Heads.of_lt (fun _ h => h.1) fun v hv w hw _ _ => ?_
    exact le_of_lt (h.fresh w (hsound.filed w (mem_entries.mpr ⟨f, hf, hw⟩)) v
      (mem_flatten.mpr ⟨t, ht, hv⟩))

theorem Inv.replayed {p t : WriteOp} (hp : p ∈ s.replayed cfg.lossy ++ s.wal) (ht : t ∈ s.logged)
    (hsup : supersedes t p = true) :
    t ∈ s.replayed cfg.lossy ++ s.wal := by
  obtain ⟨hlt, hpoint, hcovers⟩ := supersedes_iff.mp hsup
  rcases mem_append.mp hp with hp | hp
  swap
  · exact mem_append_right _ (h.live p hp t ht (le_of_lt hlt))
  obtain ⟨harch, hfloor⟩ := mem_filter.mp hp
  have hfloor : cfManifestFloor cfg.lossy s.current (cfFamilyOf cfg.lossy p.key) < p.sequence := by
    simpa using hfloor
  rcases h.closed 0 p harch t ht hsup with hin | hin
  swap
  · exact mem_append_right _ hin
  -- both are of one family, so one floor decides
  have hfamily : cfFamilyOf cfg.lossy p.key = cfFamilyOf cfg.lossy t.key := by
    by_cases hkind : t.kind = .rangeDeletion
    · exact h.history.own t ht hkind p (h.archives p harch) hpoint hlt hcovers
    · rw [(covers_point hkind).mp hcovers]
  refine mem_append_left _ (mem_filter.mpr ⟨hin, ?_⟩)
  rw [← hfamily]
  simpa using lt_trans hfloor hlt

theorem Inv.recovered {o : WriteOp} (ho : o ∈ s.logged) :
    o ∈ s.replayed cfg.lossy ++ s.wal ∨ o ∈ s.current.flushed := by
  have hwal : s.segment = s.wal := by rw [State.segment, h.plain.1, append_nil]
  rcases h.covered.logged o ho with hseg | harch | hkept
  · exact .inl (mem_append_right _ (hwal ▸ hseg))
  · rcases h.covered.archived o harch with hkept | hw
    · exact .inr hkept
    · rcases hw.replayed s.current (mem_cons_of_mem _ mem_cons_self) with hkept | habove
      · exact .inr hkept
      · have hfloor := cfManifestFloor_lt (lt_of_le_of_lt (Nat.zero_le _) hw.above) habove cfg.lossy
          (cfFamilyOf cfg.lossy o.key)
        exact .inl (mem_append_left _ (mem_filter.mpr ⟨harch, by simpa using hfloor⟩))
  · exact .inr hkept

/-- The reopened store shows the history. -/
theorem Inv.visible_reopen (key : Key) : Visible key s.lastSequence s.logged
    ((s.reopen cfg.lossy).lookup cfg key s.lastSequence).value := by
  have hcurrent : s.current ∈ s.inventories := mem_cons_of_mem _ mem_cons_self
  have hsound := h.sound _ hcurrent
  have hmem : ∀ v ∈ [s.replayed cfg.lossy ++ s.wal].flatten, v ∈ s.logged := by
    intro v hv
    rw [flatten_singleton] at hv
    rcases mem_append.mp hv with hv | hv
    · exact h.archives v (mem_filter.mp hv).1
    · exact h.wal v hv
  have hans := h.answers hcurrent _ (bulkFamilyOfKey cfg.physicalCfs key) key hmem
    (pairwise_singleton _ _) ?_
  · refine visible_of_answers hans (fun v hv => ?_) h.history.distinct fun c hc => ?_
    · rw [flatten_append] at hv
      rcases mem_append.mp hv with hv | hv
      · exact hmem v hv
      · exact hsound.flushed v (hsound.filed v (mem_entries.mpr (mem_sstRuns.mp hv)))
    · rw [flatten_append, mem_append, mem_sstRuns, flatten_singleton]
      rcases h.recovered hc.mem with hin | hlisted
      · exact .inl (.inl hin)
      refine (h.reflected hcurrent hc hlisted).imp (fun hin => .inr (mem_entries.mp hin))
        fun ⟨hkind, hnone⟩ =>
        ⟨hkind, fun d hd hvalue => ?_⟩
      rcases mem_append.mp hd.mem with hin | hin
      · -- a value that is replayed brings the newest operation with it
        have hdkind : d.kind ≠ .rangeDeletion := by simp [hvalue]
        have hdlog := hmem d (by simpa using hin)
        have hlt : d.sequence < c.sequence := by
          refine lt_of_le_of_ne (hc.top d hdlog hd.seen) fun heq => ?_
          rw [h.history.distinct d hdlog c hc.mem heq] at hvalue
          exact hkind hvalue
        have hsup : supersedes c d = true :=
          supersedes_iff.mpr ⟨hlt, hdkind, (covers_point hdkind).mp hd.seen.1 ▸ hc.seen.1⟩
        have hcin := h.replayed hin hc.mem hsup
        have hle := hd.top c (mem_append_left _ (by simpa using hcin)) hc.seen
        exact absurd hle (not_le.mpr hlt)
      · exact hnone d (mem_entries.mpr (mem_sstRuns.mp hin)) hd.seen hvalue
  · rintro t ht f hf ⟨p, hp, hsees, hkind⟩ w hw hwsees
    obtain rfl := mem_singleton.mp ht
    by_cases hlt : p.sequence < w.sequence
    · have hwlog := hsound.flushed w (hsound.filed w (mem_entries.mpr ⟨f, hf, hw⟩))
      have hsup : supersedes w p = true :=
        supersedes_iff.mpr ⟨hlt, hkind, (covers_point hkind).mp hsees.1 ▸ hwsees.1⟩
      exact ⟨w, h.replayed hp hwlog hsup, hwsees, le_rfl⟩
    · exact ⟨p, hp, hsees, Nat.le_of_not_lt hlt⟩

end Exact

-- The other way: the segment of a deletion is dropped while the put under it stays in an
-- archive. The compaction has nothing left to list, so the floor is below the put.
example :
    ∃ s, Runs.exec (step Rotation.plainConfig) .empty
        [.commit [.put [7] [5]], .switch, .flush, .rotate none, .commit [.delete [7]], .switch,
          .flush, .publish,
          .rotate none, .compact ⟨0, 1, [], some 2⟩ false] = some s ∧
      (s.lookup Rotation.plainConfig [7] s.lastSequence).value = none ∧
      ((s.reopen .replacement).lookup Rotation.plainConfig [7] s.lastSequence).value = some [5] :=
  ⟨_, rfl, by decide, by decide⟩

end Reopen

end PedraDb.Durable
