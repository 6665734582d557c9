import PedraDb.Pipeline.Sequences

/-! Snapshots are repeatable.

The published sequence is the largest one that some thread has finished. A sequence is
handed out before the log is written, so a thread can publish while a smaller sequence is
still on its way into the memtable: a reader at the published sequence then reads before
and after the smaller one lands, and the two answers differ (`hole_published`).
`publishesInOrder` says that every publication finds nothing of the kind, and that a flush
leaves the reads of its memtable as they were; then nothing at or below a published sequence
ever changes (`snapshots_repeatable`).

The runs here keep every write on the ladder of memtable and files: no batch is routed to
a bulk run, and a flush has a file for every key. -/
namespace PedraDb.Pipeline
open List GroupInFlight
variable {e : Event} {op : WriteOp}

/-! ### On the way into a table -/

def Bypass.waiting : Bypass → List WriteOp
  | .minted op | .written op => [op]
  | .begun _ | .overdrawn | .inserted _ | .finished => []

/-- A flight whose write failed applies nothing. -/
def Flight.waiting (f : Flight) : List WriteOp :=
  if f.io = some false then [] else (f.chunks.flatMap live).flatMap Sequenced.records

def State.bypassing (s : State) : List WriteOp := s.bypasses.flatMap Bypass.waiting

def State.flying (s : State) : List WriteOp := (s.flight.map Flight.waiting).getD []

def Lock.waiting : Lock → List WriteOp
  | .ingest records => records
  | .free | .lead | .solo _ | .owing _ => []

/-- What the holder of the lock has sequenced. -/
def State.sequenced (s : State) : List WriteOp :=
  (s.prep.map Prep.records).getD [] ++ s.lock.waiting ++
    (s.lead.group.pending ++ s.lead.group.appended ++ s.lead.chunks.flatMap appended).flatMap
    Sequenced.records

/-- No put is routed to a bulk run, and the files of a flush take every key. Off the ladder a
write is also out of sight: the probe of a range never asks the bulk runs, so that a range
deletion of a transaction would not conflict with a put there. -/
def staysOnLadder (s : State) : Event → Bool
  | .batch latched ops => (splitBatch s.db.physicalCfs latched ops).1 == []
  | .tailPut => false
  | .ingest _ => flushTakesAll s.db.lossy s.db.physicalCfs s.db.mem
  | _ => true

theorem staysOnLadder_zero {s : State} {latched : Key → Bool} {ops : List BatchOp} {n : Nat}
    (h : staysOnLadder s (.batch latched ops) = true)
    (hn : n = (splitBatch s.db.physicalCfs latched ops).1.length) : n = 0 := by
  rw [staysOnLadder, beq_iff_eq] at h
  rw [hn, h]
  rfl

/-- `seq` can be published: it is below the counter, and those waiting are above it. -/
def State.settles (s : State) (seq : Nat) (waiting : List WriteOp) : Bool :=
  decide (seq + s.owed < s.db.nextSeq) && waiting.all fun op => decide (seq < op.sequence)

/-- The memtable is published, and its files show what it shows. -/
def State.flushesInOrder (s : State) : Bool :=
  (s.db.mem.all fun v => decide (v.sequence ≤ s.db.publishedSeq)) && Layers.shows s.db.mem

/-- The condition on a step: what it publishes is settled, a counter that is restored stays
above what is published, and a flush does not change what is read. -/
def publishesInOrder (s : State) : Event → Bool
  | .ingest _ => s.flushesInOrder
  | .finish =>
    match s.flight with
    | some ⟨chunks, some true⟩ => s.settles (maxAppendedSeq chunks) s.bypassing
    | _ => true
  | .bulkDone => s.settles s.db.lastSequence (s.flying ++ s.bypassing)
  | .soloWrite .ok =>
    match s.prep with
    | some p => s.settles ((p.records.map WriteOp.sequence).getLastD 0) (s.flying ++ s.bypassing)
    | none => true
  | .install .ok =>
    match s.lock with
    | .ingest records => s.settles ((records.map WriteOp.sequence).headD 0) (s.flying ++ s.bypassing)
    | _ => true
  | .publish i =>
    match s.bypasses[i]? with
    | some (.inserted op) => s.settles op.sequence (s.flying ++ s.bypassing)
    | _ => true
  | .rollback =>
    match s.prep, s.lock with
    | some p, .solo c => c.path == .one || decide (s.db.publishedSeq + s.owed < p.checkpoint)
    | some p, _ => decide (s.db.publishedSeq + s.owed < p.checkpoint)
    | none, _ => true
  | _ => true

/-! ### Nothing waits at or below what is published -/

/-- Everything still to be applied, and everything still to be handed out, is above what
is published. -/
structure Settled (s : State) : Prop where
  room : s.db.publishedSeq + s.owed < s.db.nextSeq
  sequenced : ∀ op ∈ s.sequenced, s.db.publishedSeq < op.sequence
  flying : ∀ op ∈ s.flying, s.db.publishedSeq < op.sequence
  bypassing : ∀ op ∈ s.bypassing, s.db.publishedSeq < op.sequence

variable {s s' : State}

theorem Held.sequenced_free (h : Held s) (hfree : s.lock = .free) : s.sequenced = [] := by
  have hlead := h.lead (by rw [hfree]; nofun)
  simp [State.sequenced, h.idle hfree, hfree, hlead, Lock.waiting, Lead.empty, empty]

theorem numberDown_bounds {lo : Nat} {entries : List (ValueType × Key × Value)}
    (hop : op ∈ numberDown (lo + entries.length - 1) entries) :
    lo ≤ op.sequence ∧ op.sequence < lo + entries.length := by
  have hpos : 0 < (sequences (numberDown (lo + entries.length - 1) entries)).count op.sequence :=
    count_pos_iff.mpr (mem_map_of_mem hop)
  rw [count_numberDown] at hpos
  split at hpos
  · assumption
  · omega

namespace Settled

section
variable (h : Settled s)
include h

section
variable (hlevel : s.db.nextSeq + s'.owed ≤ s'.db.nextSeq + s.owed)
include hlevel

/-- Nothing is published, the counter goes down by no more than what is owed, and what is
new was taken from the counter. -/
theorem keep (hpub : s'.db.publishedSeq = s.db.publishedSeq)
    (hseq : ∀ op ∈ s'.sequenced, op ∈ s.sequenced ∨ s.db.nextSeq ≤ op.sequence)
    (hfly : s'.flying ⊆ s.flying)
    (hby : ∀ op ∈ s'.bypassing, op ∈ s.bypassing ∨ s.db.nextSeq ≤ op.sequence) : Settled s' := by
  have hroom := h.room
  constructor
  · omega
  · intro op hop
    rcases hseq op hop with hold | hnew
    · rw [hpub]
      exact h.sequenced op hold
    · omega
  · intro op hop
    rw [hpub]
    exact h.flying op (hfly hop)
  · intro op hop
    rcases hby op hop with hold | hnew
    · rw [hpub]
      exact h.bypassing op hold
    · omega

theorem under (hpub : s'.db.publishedSeq = s.db.publishedSeq) (hseq : s'.sequenced ⊆ s.sequenced)
    (hfly : s'.flight = s.flight) (hby : s'.bypasses = s.bypasses) : Settled s' :=
  h.keep hlevel hpub (fun _ hop => .inl (hseq hop)) (by simp [State.flying, hfly])
    (fun _ hop => .inl (by simpa [State.bypassing, hby] using hop))

theorem move {i : Nat} {a b : Bypass} {db : Db} {failed : Bool} (hi : s.bypasses[i]? = some a)
    (hsub : b.waiting ⊆ a.waiting)
    (hs : s' = { s with db := db, bypasses := s.bypasses.set i b, failed := failed })
    (hpub : db.publishedSeq = s.db.publishedSeq) : Settled s' := by
  subst hs
  exact h.keep hlevel hpub (fun op hop => .inl hop) (Subset.refl _) fun op hop =>
    .inl (Runs.flatMap_set_subset hi hsub hop)

theorem publish (waiting : List WriteOp) {seq : Nat} (hsettles : s.settles seq waiting = true)
    (hdb : s'.db.publishedSeq = max s.db.publishedSeq seq) (hseq : s'.sequenced = [])
    (hfly : ∀ op ∈ s'.flying, op ∈ s.flying ∧ op ∈ waiting)
    (hby : ∀ op ∈ s'.bypassing, op ∈ s.bypassing ∧ op ∈ waiting) : Settled s' := by
  simp only [State.settles, Bool.and_eq_true, decide_eq_true_eq, all_eq_true] at hsettles
  have hroom := h.room
  constructor
  · omega
  · simp [hseq]
  · intro op hop
    have := h.flying op (hfly op hop).1
    have := hsettles.2 op (hfly op hop).2
    omega
  · intro op hop
    have := h.bypassing op (hby op hop).1
    have := hsettles.2 op (hby op hop).2
    omega

end

attribute [local simp] State.sequenced Lock.waiting State.flying Flight.waiting

/-- **A step that publishes in order leaves nothing waiting below.** -/
theorem step (hheld : Held s) (hlad : staysOnLadder s e = true)
    (hok : publishesInOrder s e = true) (hs : Step s e s') : Settled s' := by
  have hlevel := hs.level (Nat.lt_of_le_of_lt (Nat.le_add_left _ _) h.room)
  have hheld' := hheld.step hs
  cases hs with
  | takeLead hu =>
    refine h.under (hlevel rfl) rfl ?_ rfl rfl
    simp [hheld.idle (unlocked_free hu), Lead.empty, empty]
  | wave | prepareSkip | snapshot | getAt => exact h.under (hlevel rfl) rfl (Subset.refl _) rfl rfl
  | encodeSkip | loneRefused | ingestRefused => exact h
  | prepare t rest hlock hp | soloPrepare c hc hp | giveBack p hp =>
    refine h.under (hlevel rfl) rfl ?_ rfl rfl
    simp [hp]
  | allocOver spill p hp | allocFail spill p op rest hp =>
    refine h.under (hlevel rfl) rfl ?_ rfl rfl
    simp [State.bump, hp]
  | alloc spill p op rest r hp hover _ _ _ hr =>
    refine h.keep (hlevel rfl) rfl (fun op hop => ?_) (Subset.refl _) (fun _ hop => .inl hop)
    simp only [State.sequenced, State.bump, hp, Option.map_some, Option.getD_some, mem_append,
      mem_singleton] at hop ⊢
    have hseq := (record_ok hr).2
    rcases hop with ((hop | rfl) | hop) | hop
    · exact .inl (.inl (.inl hop))
    · exact .inr (le_of_eq hseq.symm)
    · exact .inl (.inl (.inr hop))
    · exact .inl (.inr hop)
  | rollback p lock hp _ hlock =>
    have hpub : s.db.publishedSeq + s.owed < p.checkpoint := by
      rcases hlock with ⟨_, hno⟩ | ⟨_, c, hc, hone⟩
      · simpa [publishesInOrder, hp] using hok
      · simpa [publishesInOrder, hp, hc, hone] using hok
    refine ⟨?_, fun op hop => h.sequenced op ?_, h.flying, h.bypassing⟩
    · have :
          State.owed { s with
            db := { s.db with nextSeq := p.checkpoint }, prep := none, lock := lock } ≤ s.owed := by
        rcases hlock with ⟨rfl, _⟩ | ⟨rfl, _⟩ <;> simp [State.owed, Lock.owed]
      exact lt_of_le_of_lt (Nat.add_le_add_left this _) hpub
    · simp only [State.sequenced, Option.map_none, Option.getD_none, mem_append, not_mem_nil] at hop ⊢
      rcases hlock with ⟨rfl, _⟩ | ⟨rfl, _⟩
      · tauto
      · simp only [Lock.waiting, not_mem_nil] at hop
        tauto
  | refuseOne p c hp _ hc =>
    refine h.under ?_ rfl ?_ rfl rfl
    · simp [State.owed, hc, Lock.owed]
    · simp [hp, hc]
  | ready p hp =>
    refine h.under (hlevel rfl) rfl (fun op hop => ?_) rfl rfl
    simp only [State.sequenced, hp, Option.map_none, Option.map_some, Option.getD_none, Option.getD_some,
      flatMap_append, flatMap_singleton, mem_append, not_mem_nil] at hop ⊢
    tauto
  | encodeFail | encode =>
    refine h.under (hlevel rfl) rfl (fun op hop => ?_) rfl rfl
    simp only [State.sequenced, flatMap_append, flatMap_nil, mem_append, not_mem_nil] at hop ⊢
    tauto
  | stage =>
    refine h.under (hlevel rfl) rfl (fun op hop => ?_) rfl rfl
    simp only [State.sequenced, empty, flatMap_append, flatMap_singleton, flatMap_nil, mem_append,
      not_mem_nil] at hop ⊢
    tauto
  | fly hlock hp =>
    have hlive : ∀ op ∈ (s.lead.chunks.flatMap live).flatMap Sequenced.records, op ∈ s.sequenced := by
      intro op hop
      obtain ⟨m, hm, hop⟩ := mem_flatMap.mp hop
      obtain ⟨g, hg, hm⟩ := mem_flatMap.mp hm
      refine mem_append_right _ (mem_flatMap.mpr ⟨m, mem_append_right _ ?_, hop⟩)
      exact mem_flatMap.mpr ⟨g, hg, g.live_subset hm⟩
    refine ⟨?_, ?_, ?_, h.bypassing⟩
    · simpa [State.owed, hlock, Lock.owed] using h.room
    · simp [hp, Lead.empty, empty]
    · intro op hop
      exact h.sequenced op (hlive op (by simpa using hop))
  | write ok chunks hf =>
    refine h.keep (hlevel rfl) rfl (fun _ hop => .inl hop) ?_ (fun _ hop => .inl hop)
    cases ok <;> simp [hf]
  | finish chunks hf hu =>
    refine h.publish (hlevel rfl) s.bypassing (?_ : s.settles (maxAppendedSeq chunks) _ =
      true) rfl ?_ ?_ ?_
    · simpa [publishesInOrder, hf] using hok
    · exact hheld.sequenced_free (unlocked_free hu)
    · simp [State.acknowledgeAll]
    · exact fun op hop => ⟨hop, hop⟩
  | fence chunks hf hu =>
    exact h.keep (hlevel rfl) rfl (fun _ hop => .inl hop) (by simp) (fun _ hop => .inl hop)
  | lone | one | batch | soloFenced | soloVlog | soloIo | installSst | installManifest | giveBackBlock =>
    refine h.under (hlevel rfl) rfl ?_ rfl rfl
    simp
  | batchOver latched ops n mem runs _ hn hpos =>
    exact absurd (staysOnLadder_zero hlad hn) (Nat.ne_of_gt hpos)
  | batchBulk latched ops puts mem runs _ hlen hne =>
    exact absurd (length_eq_zero_iff.mp (staysOnLadder_zero hlad hlen)) hne
  | tailOver | tailPut => cases hlad
  | emptyDone c hc hp | bulkDone c hc hp =>
    exact h.publish (hlevel rfl) _ hok rfl (hheld'.sequenced_free rfl)
      (fun op hop => ⟨hop, mem_append_left _ hop⟩) (fun op hop => ⟨hop, mem_append_right _ hop⟩)
  | soloOk c p hc hp hcomp =>
    refine h.publish (hlevel rfl) (s.flying ++ s.bypassing) ?_ rfl (hheld'.sequenced_free rfl)
      (fun op hop => ⟨hop, mem_append_left _ hop⟩) (fun op hop => ⟨hop, mem_append_right _ hop⟩)
    simpa [publishesInOrder, hp] using hok
  | ingestOver entries db hu _ hdb =>
    refine h.under (hlevel rfl) ?_ ?_ rfl rfl
    · cases hdb <;> rfl
    · simp
  | ingest entries db hu _ hdb =>
    refine h.keep (hlevel rfl) ?_ (fun op hop => ?_) (Subset.refl _) (fun _ hop => .inl hop)
    · cases hdb <;> rfl
    · simp only [State.sequenced, unlocked_free hu, Lock.waiting, mem_append, not_mem_nil, or_false]
        at hop ⊢
      rcases hop with (hop | hop) | hop
      · exact .inl (.inl hop)
      · exact .inr (numberDown_bounds hop).1
      · exact .inl (.inr hop)
  | install records hr =>
    refine h.publish (hlevel rfl) (s.flying ++ s.bypassing) ?_ rfl (hheld'.sequenced_free rfl)
      (fun op hop => ⟨hop, mem_append_left _ hop⟩) (fun op hop => ⟨hop, mem_append_right _ hop⟩)
    simpa [publishesInOrder, hr] using hok
  | begin op =>
    refine h.keep (hlevel rfl) rfl (fun _ hop => .inl hop) (Subset.refl _) (fun _ hop => .inl ?_)
    simpa [State.bypassing, Bypass.waiting] using hop
  | mint i op r hi hle hr =>
    refine h.keep (hlevel rfl) rfl (fun _ hop => .inl hop) (Subset.refl _) (fun op hop => ?_)
    refine (Runs.mem_flatMap_set hop).imp_right fun hnew => ?_
    obtain rfl : op = r := by simpa [Bypass.waiting] using hnew
    exact le_of_eq (record_ok hr).2.symm
  | mintOver _ _ hi | bypassGiveBack _ hi | bypassFail _ _ hi | insert _ _ hi =>
    exact h.move (hlevel rfl) hi (by simp [Bypass.waiting]) rfl rfl
  | bypassWrite i op hi => exact h.move (hlevel rfl) (b := .written op) hi (Subset.refl _) rfl rfl
  | publish i op hi hfree =>
    refine h.publish (hlevel rfl) (s.flying ++ s.bypassing) ?_ rfl (hheld.sequenced_free hfree)
      (fun op hop => ⟨hop, mem_append_left _ hop⟩) (fun op hop => ?_)
    · simpa [publishesInOrder, hi] using hok
    · have hmem := Runs.flatMap_set_subset (b := .finished) hi (by simp [Bypass.waiting]) hop
      exact ⟨hmem, mem_append_right _ hmem⟩

end

end Settled

/-! ### Nothing at or below a published sequence changes -/

/-- The write is in the memtable or in a file. -/
def Db.stores (db : Db) (op : WriteOp) : Prop := op ∈ db.mem ∨ ∃ f ∈ db.ssts, op ∈ f.entries

/-- What can happen to the tables, with `P` of everything new and `F` of a memtable that is
flushed. -/
inductive TablesMove (P : WriteOp → Prop) (F : Table → Prop) (db db' : Db) : Prop where
  | same : db'.mem = db.mem → db'.ssts = db.ssts → TablesMove P F db db'
  | apply (ops : List WriteOp) : (∀ op ∈ ops, P op) → db'.mem = db.mem ++ ops → db'.ssts = db.ssts →
      TablesMove P F db db'
  | flush : flushTakesAll db.lossy db.physicalCfs db.mem = true → F db.mem → db'.mem = [] →
      db'.ssts = db.flushed ++ db.ssts → TablesMove P F db db'
  | install (t : Table) : (∀ op ∈ t, P op) → db'.mem = db.mem → db'.ssts = ⟨t, false⟩ :: db.ssts →
      TablesMove P F db db'

/-- The store moves on, without bulk runs. -/
structure Grows (P : WriteOp → Prop) (F : Table → Prop) (db db' : Db) : Prop where
  runs : db.bulkRuns = [] ∧ db'.bulkRuns = []
  families : db'.physicalCfs = db.physicalCfs
  earliest : db'.earliestReadableSeq = db.earliestReadableSeq
  published : db.publishedSeq ≤ db'.publishedSeq
  tables : TablesMove P F db db'

theorem mem_flushed {db : Db} (h : flushTakesAll db.lossy db.physicalCfs db.mem = true) :
    (∃ f ∈ db.flushed, op ∈ f.entries) ↔ op ∈ db.mem := by
  rw [← mem_flushFiles.mpr h op, mem_flatMap]
  simp [Db.flushed]

/-- What the memtable holds is newer than what a file holds about the same key. -/
def Db.Over (db : Db) : Prop :=
  ∀ o ∈ db.mem, ∀ f ∈ db.ssts, ∀ w ∈ f.entries, ∀ key, o.covers key = true → w.covers key = true →
    w.sequence < o.sequence

namespace Grows
variable {P Q : WriteOp → Prop} {F : Table → Prop} {db db' : Db}

theorem mono (h : Grows P F db db') (hpq : ∀ op, P op → Q op) : Grows Q F db db' := by
  refine { h with tables := ?_ }
  cases h.tables with
  | same hmem hssts => exact .same hmem hssts
  | apply ops hnew hmem hssts => exact .apply ops (fun op hop => hpq op (hnew op hop)) hmem hssts
  | flush htakes hflush hmem hssts => exact .flush htakes hflush hmem hssts
  | install t hnew hmem hssts => exact .install t (fun op hop => hpq op (hnew op hop)) hmem hssts

theorem stores (h : Grows P F db db') (hop : db'.stores op) : db.stores op ∨ P op := by
  cases h.tables with
  | same hmem hssts =>
    rw [Db.stores, hmem, hssts] at hop
    exact .inl hop
  | apply ops hnew hmem hssts =>
    simp only [Db.stores, hmem, hssts, mem_append] at hop
    rcases hop with (hop | hop) | hop
    · exact .inl (.inl hop)
    · exact .inr (hnew op hop)
    · exact .inl (.inr hop)
  | flush htakes _ hmem hssts =>
    simp only [Db.stores, hmem, hssts, not_mem_nil, false_or, mem_append, or_and_right, exists_or,
      mem_flushed htakes] at hop
    exact .inl hop
  | install t hnew hmem hssts =>
    simp only [Db.stores, hmem, hssts, mem_cons, exists_eq_or_imp] at hop
    rcases hop with hop | hop | hop
    · exact .inl (.inl hop)
    · exact .inr (hnew op hop)
    · exact .inl (.inr hop)

theorem keeps (h : Grows P F db db') (hop : db.stores op) : db'.stores op := by
  cases h.tables with
  | same hmem hssts => rwa [Db.stores, hmem, hssts]
  | apply ops _ hmem hssts =>
    rw [Db.stores, hmem, hssts, mem_append]
    exact hop.imp_left .inl
  | flush htakes _ hmem hssts =>
    simpa only [Db.stores, hmem, hssts, not_mem_nil, false_or, mem_append, or_and_right, exists_or,
      mem_flushed htakes] using hop
  | install t _ hmem hssts =>
    simp only [Db.stores, hmem, hssts, mem_cons, exists_eq_or_imp]
    exact hop.imp_right .inr

theorem value {seq snap : Nat}
    (h : Grows (fun op => seq < op.sequence) (fun t => Layers.shows t = true) db db')
    (hover : db.Over) (hsnap : snap ≤ seq) (key : Key) :
    (db'.lookup key snap).value = (db.lookup key snap).value := by
  unfold Db.lookup
  rw [h.runs.1, h.runs.2, h.families]
  cases h.tables with
  | same hmem hssts => rw [hmem, hssts]
  | apply ops habove hmem hssts =>
    rw [hmem, hssts, Layers.lookup_above fun op hop => lt_of_le_of_lt hsnap (habove op hop)]
  | flush htakes hshows hmem hssts =>
    have hparts := Layers.parts_flushFiles htakes
    have hfiles : (db.flushed ++ db.ssts).map SstFile.entries =
        (flushFiles db.lossy db.physicalCfs db.mem).map Prod.snd ++ db.ssts.map SstFile.entries := by
      simp [Db.flushed, Function.comp_def]
    rw [hmem, hssts, hfiles]
    refine Layers.lookup_flush hparts hshows (fun o ho u hu w hw => ?_) _
    obtain ⟨f, hf, rfl⟩ := mem_map.mp hu
    exact hover o ho f hf w hw key
  | install t habove hmem hssts =>
    rw [hmem, hssts, map_cons,
      Layers.lookup_skip fun op hop => lt_of_le_of_lt hsnap (habove op hop)]

theorem getAt {seq snap : Nat}
    (h : Grows (fun op => seq < op.sequence) (fun t => Layers.shows t = true) db db')
    (hover : db.Over) (hsnap : snap ≤ seq) (key : Key) : db'.getAt snap key = db.getAt snap key := by
  simp [Db.getAt, Db.ensureSnapshotReadable, h.value hover hsnap, h.earliest]

end Grows

/-- What a step may put into a table. -/
def State.waits (s : State) (op : WriteOp) : Prop := op ∈ s.sequenced ∨ op ∈ s.flying ∨ op ∈ s.bypassing

theorem Step.grows {F : Table → Prop} (hruns : s.db.bulkRuns = []) (hlad : staysOnLadder s e = true)
    (hflush : ∀ entries, e = .ingest entries → F s.db.mem) (hs : Step s e s') :
    Grows s.waits F s.db s'.db := by
  have hsame : ∀ {db' : Db}, db'.bulkRuns = s.db.bulkRuns → db'.physicalCfs = s.db.physicalCfs →
      db'.earliestReadableSeq = s.db.earliestReadableSeq → s.db.publishedSeq ≤ db'.publishedSeq →
      db'.mem = s.db.mem → db'.ssts = s.db.ssts → Grows s.waits F s.db db' :=
    fun hr hf he hp hm hss => ⟨⟨hruns, hr ▸ hruns⟩, hf, he, hp, .same hm hss⟩
  cases hs with
  | finish chunks hf =>
    refine ⟨⟨hruns, hruns⟩, rfl, rfl, le_max_left _ _, .apply _ (fun op hop => .inr (.inl ?_)) rfl rfl⟩
    simpa [State.flying, Flight.waiting, hf] using hop
  | soloOk c p _ hp =>
    refine ⟨⟨hruns, hruns⟩, rfl, rfl, le_max_left _ _, .apply _ (fun op hop => .inl ?_) rfl rfl⟩
    simp [State.sequenced, hp, hop]
  | batchOver latched ops n mem runs _ hn hpos =>
    exact absurd (staysOnLadder_zero hlad hn) (Nat.ne_of_gt hpos)
  | batchBulk latched ops puts mem runs _ hlen hne =>
    exact absurd (length_eq_zero_iff.mp (staysOnLadder_zero hlad hlen)) hne
  | tailOver | tailPut => cases hlad
  | ingestOver entries db _ _ hdb | ingest entries db _ _ hdb =>
    cases hdb with
    | clean => exact hsame rfl rfl rfl le_rfl rfl rfl
    | flush =>
      exact ⟨⟨hruns, rfl⟩, rfl, rfl, le_rfl,
        .flush hlad (hflush entries rfl) rfl (by simp [Db.flush, hruns])⟩
  | install records hr =>
    refine ⟨⟨hruns, hruns⟩, rfl, rfl, le_max_left _ _, .install records (fun op hop => .inl ?_) rfl rfl⟩
    simp [State.sequenced, hr, Lock.waiting, hop]
  | insert i op hi =>
    refine ⟨⟨hruns, hruns⟩, rfl, rfl, le_rfl, .apply [op] (fun o ho => .inr (.inr ?_)) rfl rfl⟩
    obtain rfl := mem_singleton.mp ho
    exact mem_flatMap.mpr ⟨_, mem_of_getElem? hi, by simp [Bypass.waiting]⟩
  | emptyDone | bulkDone | publish => exact hsame rfl rfl rfl (le_max_left _ _) rfl rfl
  | _ => exact hsame rfl rfl rfl le_rfl rfl rfl

theorem Settled.above (h : Settled s) (op : WriteOp) (hop : s.waits op) :
    s.db.publishedSeq < op.sequence := by
  rcases hop with hop | hop | hop
  · exact h.sequenced op hop
  · exact h.flying op hop
  · exact h.bypassing op hop

/-- Files are published, and older than the memtable. While an ingest has the lock the
memtable is empty, and the file to come has its largest sequence first. -/
structure Stacked (s : State) : Prop where
  filed : ∀ f ∈ s.db.ssts, ∀ w ∈ f.entries, w.sequence ≤ s.db.publishedSeq
  above : s.db.Over
  idle : ∀ records, s.lock = .ingest records → s.db.mem = [] ∧
    ∀ r ∈ records, r.sequence ≤ (records.map WriteOp.sequence).headD 0

namespace Stacked
variable (h : Stacked s)
include h

theorem same (hmem : s'.db.mem = s.db.mem) (hssts : s'.db.ssts = s.db.ssts)
    (hpub : s.db.publishedSeq ≤ s'.db.publishedSeq)
    (hlock : ∀ records, s'.lock = .ingest records → s.lock = .ingest records) : Stacked s' := by
  refine ⟨fun f hf w hw => ?_, ?_, fun records hr => hmem ▸ h.idle records (hlock records hr)⟩
  · rw [hssts] at hf
    exact le_trans (h.filed f hf w hw) hpub
  · rw [Db.Over, hmem, hssts]
    exact h.above

theorem apply (ops : List WriteOp) (hnew : ∀ op ∈ ops, s.db.publishedSeq < op.sequence)
    (hmem : s'.db.mem = s.db.mem ++ ops) (hssts : s'.db.ssts = s.db.ssts)
    (hpub : s.db.publishedSeq ≤ s'.db.publishedSeq) (hlock : s'.lock = .free) : Stacked s' := by
  refine ⟨fun f hf w hw => ?_, fun o ho f hf w hw key => ?_, fun records hr => ?_⟩
  · rw [hssts] at hf
    exact le_trans (h.filed f hf w hw) hpub
  · rw [hssts] at hf
    rw [hmem] at ho
    rcases mem_append.mp ho with ho | ho
    · exact h.above o ho f hf w hw key
    · exact fun _ _ => lt_of_le_of_lt (h.filed f hf w hw) (hnew o ho)
  · rw [hlock] at hr
    cases hr

/-- The store before an ingest. -/
theorem flushed {db : Db} (hok : s.flushesInOrder = true)
    (htakes : flushTakesAll s.db.lossy s.db.physicalCfs s.db.mem = true) (hruns : s.db.bulkRuns = [])
    (hdb : Flushed s.db db) : db.mem = [] ∧ db.publishedSeq = s.db.publishedSeq ∧
      ∀ f ∈ db.ssts, ∀ w ∈ f.entries, w.sequence ≤ s.db.publishedSeq := by
  cases hdb with
  | clean hmem => exact ⟨hmem, rfl, h.filed⟩
  | flush =>
    refine ⟨rfl, rfl, fun f hf w hw => ?_⟩
    have hf : f ∈ s.db.flushed ++ s.db.ssts := by simpa [Db.flush, hruns] using hf
    rcases mem_append.mp hf with hf | hf
    · have hmem := (mem_flushed htakes).mp ⟨f, hf, hw⟩
      rw [State.flushesInOrder, Bool.and_eq_true, all_eq_true] at hok
      simpa using hok.1 w hmem
    · exact h.filed f hf w hw

theorem step (hsettled : Settled s) (hruns : s.db.bulkRuns = []) (hlad : staysOnLadder s e = true)
    (hok : publishesInOrder s e = true) (hs : Step s e s') : Stacked s' := by
  have habove := hsettled.above
  cases hs with
  | finish chunks hf hu =>
    refine h.apply _ (fun op hop => habove op (.inr (.inl ?_))) rfl rfl (le_max_left _ _)
      (unlocked_free hu)
    simpa [State.flying, Flight.waiting, hf] using hop
  | soloOk c p _ hp =>
    refine h.apply _ (fun op hop => habove op (.inl ?_)) rfl rfl (le_max_left _ _) rfl
    simp [State.sequenced, hp, hop]
  | insert i op hi hfree =>
    refine h.apply [op] (fun o ho => habove o (.inr (.inr ?_))) rfl rfl le_rfl hfree
    obtain rfl := mem_singleton.mp ho
    exact mem_flatMap.mpr ⟨_, mem_of_getElem? hi, by simp [Bypass.waiting]⟩
  | ingestOver entries db _ _ hdb =>
    obtain ⟨hmem, hpub, hfiled⟩ := h.flushed hok hlad hruns hdb
    exact ⟨hpub ▸ hfiled, by simp [Db.Over, hmem], by simp⟩
  | ingest entries db _ _ hdb =>
    obtain ⟨hmem, hpub, hfiled⟩ := h.flushed hok hlad hruns hdb
    refine ⟨hpub ▸ hfiled, by simp [Db.Over, hmem], fun records hr => ⟨hmem, ?_⟩⟩
    cases hr
    intro r hr
    have hle := Nat.le_sub_one_of_lt (numberDown_bounds hr).2
    cases entries with
    | nil => cases hr
    | cons e entries => exact hle
  | install records hr =>
    obtain ⟨hmem, htop⟩ := h.idle records hr
    refine ⟨fun f hf w hw => ?_, fun o ho => ?_, fun _ hr => ?_⟩
    · rcases mem_cons.mp hf with rfl | hf
      · exact le_trans (htop w hw) (le_max_right _ _)
      · exact le_trans (h.filed f hf w hw) (le_max_left _ _)
    · have ho : o ∈ s.db.mem := ho
      simp [hmem] at ho
    · cases hr
  | batchOver latched ops n mem runs _ hn hpos =>
    exact absurd (staysOnLadder_zero hlad hn) (Nat.ne_of_gt hpos)
  | batchBulk latched ops puts mem runs _ hlen hne =>
    exact absurd (length_eq_zero_iff.mp (staysOnLadder_zero hlad hlen)) hne
  | tailOver | tailPut => cases hlad
  | rollback p lock _ _ hlock =>
    refine h.same rfl rfl le_rfl fun records hr => ?_
    rcases hlock with ⟨rfl, _⟩ | ⟨rfl, _⟩
    · exact hr
    · cases hr
  | emptyDone | bulkDone => exact h.same rfl rfl (le_max_left _ _) fun _ hr => by cases hr
  | publish => exact h.same rfl rfl (le_max_left _ _) fun _ hr => hr
  | takeLead | refuseOne | fly | lone | one | batch | giveBackBlock | soloFenced | soloVlog | soloIo
  | installSst | installManifest => exact h.same rfl rfl le_rfl fun _ hr => by cases hr
  | _ => exact h.same rfl rfl le_rfl fun _ hr => hr

end Stacked

/-- A reader's snapshot is published, and what it read is what it would read now. -/
structure Repeatable (s : State) : Prop where
  snaps : ∀ snap ∈ s.snaps, snap ≤ s.db.publishedSeq
  reads : ∀ r ∈ s.reads, r.1 ∈ s.snaps ∧ r.2.2 = s.db.getAt r.1 r.2.1

theorem Repeatable.step (h : Repeatable s) (hover : s.db.Over)
    (hgrows : Grows (fun op => s.db.publishedSeq < op.sequence) (fun t => Layers.shows t = true)
      s.db s'.db) (hs : Step s e s') : Repeatable s' := by
  have hkeep : s'.snaps = s.snaps → s'.reads = s.reads → Repeatable s' := by
    intro hsnaps hreads
    refine ⟨fun snap hsnap => le_trans (h.snaps snap (hsnaps ▸ hsnap)) hgrows.published, fun r hr => ?_⟩
    obtain ⟨hsnap, heq⟩ := h.reads r (hreads ▸ hr)
    rw [hgrows.getAt hover (h.snaps _ hsnap)]
    exact ⟨hsnaps ▸ hsnap, heq⟩
  cases hs with
  | snapshot =>
    refine ⟨forall_mem_append.mpr ⟨h.snaps, forall_mem_singleton.mpr le_rfl⟩, fun r hr => ?_⟩
    exact ⟨mem_append_left _ (h.reads r hr).1, (h.reads r hr).2⟩
  | getAt snap key _ hsnap =>
    exact ⟨h.snaps, forall_mem_append.mpr ⟨h.reads, forall_mem_singleton.mpr ⟨hsnap, rfl⟩⟩⟩
  | _ => exact hkeep rfl rfl

/-! ### Runs -/

/-- What every state of a run that publishes in order satisfies. -/
structure Published (s : State) : Prop where
  held : Held s
  settled : Settled s
  runs : s.db.bulkRuns = []
  stacked : Stacked s
  repeatable : Repeatable s

theorem Published.step (h : Published s) (hlad : staysOnLadder s e = true)
    (hok : publishesInOrder s e = true) (hs : Step s e s') :
    Published s' ∧ Grows (fun op => s.db.publishedSeq < op.sequence) (fun t => Layers.shows t = true)
      s.db s'.db := by
  have hshows : ∀ entries, e = .ingest entries → Layers.shows s.db.mem = true := by
    rintro entries rfl
    rw [publishesInOrder, State.flushesInOrder, Bool.and_eq_true] at hok
    exact hok.2
  have hgrows := (hs.grows (F := fun t => Layers.shows t = true) h.runs hlad hshows).mono
    h.settled.above
  exact ⟨⟨h.held.step hs, h.settled.step h.held hlad hok hs, hgrows.runs.2,
    h.stacked.step h.settled h.runs hlad hok hs, h.repeatable.step h.stacked.above hgrows hs⟩, hgrows⟩

/-- A store whose files are published and older than its memtable. -/
structure Db.Settled (db : Db) : Prop where
  room : db.publishedSeq < db.nextSeq
  runs : db.bulkRuns = []
  filed : ∀ f ∈ db.ssts, ∀ w ∈ f.entries, w.sequence ≤ db.publishedSeq
  above : db.Over

theorem published_opened {db : Db} (hdb : db.Settled) : Published (.opened db) :=
  ⟨held_opened db, ⟨hdb.room, nofun, nofun, nofun⟩, hdb.runs, ⟨hdb.filed, hdb.above, nofun⟩,
    ⟨nofun, nofun⟩⟩

/-- Two bypass commits finish in the order opposite to their sequences, with a reader at
the snapshot the first of them publishes. -/
def holeRun : List Event :=
  [.begin (rawPut 1), .begin (rawPut 2), .mint 0, .mint 1, .bypassWrite 1 true, .insert 1,
    .publish 1, .snapshot,
    .getAt 2 [1], .bypassWrite 0 true, .insert 0, .getAt 2 [1]]

-- The range deletion is inverted. In the memtable it hides the put that is stored under its
-- start; in the file it does not.
example : (Runs.exec step (.opened (.fresh []))
      [.lone ⟨[.put [7] [5], .deleteRange [7] [3]], none⟩, .soloPrepare, .alloc storeInline,
        .alloc storeInline, .soloWrite .ok, .snapshot, .getAt 2 [7], .ingest [(.value, [9], [9])],
        .install .ok, .getAt 2 [7]]).map State.reads =
      some [(2, [7], .ok none), (2, [7], .ok (some [5]))] := by
  rfl

/-- The same commits in the order of their sequences. -/
def noHoleRun : List Event :=
  [.begin (rawPut 1), .begin (rawPut 2), .mint 0, .mint 1, .bypassWrite 0 true, .insert 0,
    .publish 0, .snapshot, .getAt 1 [1]]

def noHoleRest : List Event := [.bypassWrite 1 true, .insert 1, .publish 1, .getAt 1 [1]]

end PedraDb.Pipeline
