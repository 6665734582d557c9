import PedraDb.Pipeline.System

/-! What a step can do.

`Step s e s'` lists the steps one by one, each with its guard and the state it leads to:
`step_cases` reads it off the step function. Everything proved of runs is a case split
over it; the first such fact, that what a thread has under the write lock it has only
while it holds the lock (`Held`), is used by all the others. -/
namespace PedraDb.Pipeline
open State

/-- A batch with a sequence for each operation. -/
def Prep.complete (p : Prep) : Prop := p.todo = [] ∧ p.overdrawn = false ∧ p.failed = false

/-- The sequence counter goes up. -/
def State.bump (s : State) (n : Nat) : State := { s with db := { s.db with nextSeq := s.db.nextSeq + n } }

/-- The store when an ingest takes its sequences: nothing was pending, or it is flushed. -/
inductive Flushed (db : Db) : Db → Prop where
  | clean : db.mem = [] → Flushed db db
  | flush : Flushed db db.flush

/-- What a step does, one constructor for each way through its function. -/
inductive Step (s : State) : Event → State → Prop where
  | takeLead : s.unlocked = true → s.flight = none →
      Step s .takeLead { s with lock := .lead, lead := .empty }
  | wave (members refused accepted queue) : s.lock = .lead → s.prep = none → s.lead.idle = true →
      accepted = (validateAll s.db s.lead.accepted members).1 →
      (queue = [] ∨ queue = (validateAll s.db s.lead.accepted members).2) →
      Step s (.wave members refused)
        { s with lead := { s.lead with accepted := accepted, queue := queue } }
  | prepareSkip (t rest) : s.lock = .lead → s.prep = none → s.lead.queue = t :: rest →
      (t.ops = [] ∨ s.db.durabilityFenced = true) →
      Step s .prepare { s with lead := { s.lead with queue := rest } }
  | prepare (t rest) : s.lock = .lead → s.prep = none → s.lead.queue = t :: rest → t.ops ≠ [] →
      s.db.durabilityFenced = false →
      Step s .prepare { s with
        lead := { s.lead with queue := rest }
        prep := some ⟨t, s.db.nextSeq, [], [], t.ops, false, false⟩ }
  | allocOver (spill p) : s.prep = some p → p.overdrawn = false → p.failed = false →
      maxAssignableSequenceNumber < s.db.nextSeq →
      Step s (.alloc spill) { s.bump 1 with prep := some { p with overdrawn := true } }
  | allocFail (spill p op rest) : s.prep = some p → p.overdrawn = false → p.failed = false →
      p.todo = op :: rest → s.db.nextSeq ≤ maxAssignableSequenceNumber →
      Step s (.alloc spill) { s.bump 1 with
        prep := some { p with taken := p.taken ++ [s.db.nextSeq], failed := true } }
  | alloc (spill p op rest r) : s.prep = some p → p.overdrawn = false → p.failed = false →
      p.todo = op :: rest → s.db.nextSeq ≤ maxAssignableSequenceNumber →
      record (s.stored spill) s.db.nextSeq op = .ok r →
      Step s (.alloc spill) { s.bump 1 with
        prep := some { p with
          taken := p.taken ++ [s.db.nextSeq], records := p.records ++ [r], todo := rest } }
  | giveBack (p) : s.prep = some p → p.overdrawn = true →
      Step s .giveBack { s with
        db := { s.db with nextSeq := s.db.nextSeq - 1 }
        prep := some { p with overdrawn := false, failed := true } }
  | rollback (p lock) : s.prep = some p → p.failed = true →
      (lock = s.lock ∧ (∀ c, s.lock ≠ .solo c) ∨ lock = .free ∧ ∃ c, s.lock = .solo c ∧ c.path ≠ .one) →
      Step s .rollback { s with db := { s.db with nextSeq := p.checkpoint }, prep := none, lock := lock }
  | refuseOne (p c) : s.prep = some p → p.failed = true → s.lock = .solo c → c.path = .one →
      Step s .rollback { s with prep := none, lock := .free }
  | ready (p) : s.prep = some p → s.lock = .lead → p.complete →
      Step s .ready { s with
        lead := { s.lead with
          group := { s.lead.group with pending := s.lead.group.pending ++ [⟨p.txn, p.records⟩] } }
        prep := none }
  | encodeFail (flush encode) : s.lock = .lead → s.prep = none → s.lead.queue = [] →
      Step s (.encode flush encode)
        { s with lead := { s.lead with group := { s.lead.group with failed := true, pending := [] } } }
  | encodeSkip (flush encode) : s.lock = .lead → s.prep = none → s.lead.queue = [] →
      Step s (.encode flush encode) s
  | encode (flush encode) : s.lock = .lead → s.prep = none → s.lead.queue = [] →
      s.lead.group.failed = false → s.db.durabilityFenced = false →
      Step s (.encode flush encode) { s with
        lead := { s.lead with
          group := { s.lead.group with
            appended := s.lead.group.appended ++ s.lead.group.pending
            pending := [] } } }
  | stage : s.lock = .lead → s.prep = none → s.lead.queue = [] → s.lead.group.pending = [] →
      Step s .stage { s with
        db := { s.db with unapplied := s.db.unapplied ++ s.lead.group.ops }
        lead := { s.lead with group := .empty, chunks := s.lead.chunks ++ [s.lead.group] } }
  | fly : s.lock = .lead → s.prep = none → s.lead.queue = [] → s.lead.group = .empty →
      Step s .fly { s with lock := .free, lead := .empty, flight := some ⟨s.lead.chunks, none⟩ }
  | write (ok chunks) : s.flight = some ⟨chunks, none⟩ →
      Step s (.write ok) { s with flight := some ⟨chunks, some ok⟩, failed := s.failed || !ok }
  | finish (chunks) : s.flight = some ⟨chunks, some true⟩ → s.unlocked = true →
      Step s .finish ({ s with
        db := ((unstageUnapplied s.db chunks).apply
          ((chunks.flatMap GroupInFlight.live).flatMap Sequenced.records)).publishSequence
          (maxAppendedSeq chunks)
        flight := none }.acknowledgeAll .group (chunks.flatMap GroupInFlight.live))
  | fence (chunks) : s.flight = some ⟨chunks, some false⟩ → s.unlocked = true →
      Step s .finish { s with
        db := { unstageUnapplied s.db chunks with durabilityFenced := true }
        flight := none }
  | loneRefused (t) : s.unlocked = true → Step s (.lone t) s
  | lone (t) : s.unlocked = true → t.ops ≠ [] → validateLone s.db t = .ok () →
      Step s (.lone t) { s with lock := .solo ⟨.lone, t, []⟩ }
  | one (op) : s.unlocked = true → Step s (.one op) { s with lock := .solo ⟨.one, ⟨[op], none⟩, []⟩ }
  | batch (latched ops) : s.unlocked = true → (splitBatch s.db.physicalCfs latched ops).1 = [] →
      Step s (.batch latched ops) { s with
        lock := .solo ⟨.batch, ⟨(splitBatch s.db.physicalCfs latched ops).2, none⟩, []⟩ }
  | batchOver (latched ops n mem runs) : s.unlocked = true →
      n = (splitBatch s.db.physicalCfs latched ops).1.length → 0 < n →
      maxAssignableSequenceNumber < s.db.nextSeq + n - 1 →
      Step s (.batch latched ops) { s.bump n with
        db := { (s.bump n).db with mem := mem, bulkRuns := runs }
        lock := .owing n }
  | batchBulk (latched ops puts mem runs) : s.unlocked = true →
      puts.length = (splitBatch s.db.physicalCfs latched ops).1.length → puts ≠ [] →
      s.db.nextSeq + puts.length - 1 ≤ maxAssignableSequenceNumber →
      Step s (.batch latched ops)
        { s.bump puts.length with
          db := { (s.bump puts.length).db with mem := mem, bulkRuns := runs }
          lock := .solo ⟨.batch, ⟨(splitBatch s.db.physicalCfs latched ops).2, none⟩,
            numberPuts s.db.nextSeq puts⟩ }
  | giveBackBlock (n) : s.lock = .owing n →
      Step s .giveBackBlock { s with db := { s.db with nextSeq := s.db.nextSeq - n }, lock := .free }
  | emptyDone (c) : s.lock = .solo c → s.prep = none → c.txn.ops = [] → c.bulk = [] →
      Step s .bulkDone { s with db := s.db.publishSequence s.db.lastSequence, lock := .free }
  | bulkDone (c) : s.lock = .solo c → s.prep = none → c.path = .batch → c.txn.ops = [] → c.bulk ≠ [] →
      Step s .bulkDone ({ s with
        db := s.db.publishSequence s.db.lastSequence, lock := .free }.acknowledge .batch c.txn c.bulk)
  | tailOver (c) : s.lock = .solo c → s.prep = none → maxAssignableSequenceNumber < s.db.nextSeq →
      Step s .tailPut { s.bump 1 with lock := .owing 1 }
  | tailPut (c op) : s.lock = .solo c → s.prep = none → s.db.nextSeq ≤ maxAssignableSequenceNumber →
      op.sequence = s.db.nextSeq →
      Step s .tailPut ({ s.bump 1 with
        db := ((s.bump 1).db.apply [op]).publishSequence s.db.nextSeq
        lock := .free }.acknowledge .batch c.txn (c.bulk ++ [op]))
  | soloFenced (c) : s.lock = .solo c → s.prep = none → s.db.durabilityFenced = true →
      Step s .soloPrepare { s with lock := .free }
  | soloPrepare (c) : s.lock = .solo c → s.prep = none → c.txn.ops ≠ [] → s.db.durabilityFenced = false →
      Step s .soloPrepare { s with prep := some ⟨c.txn, s.db.nextSeq, [], [], c.txn.ops, false, false⟩ }
  | soloOk (c p) : s.lock = .solo c → s.prep = some p → p.complete →
      Step s (.soloWrite .ok)
        ({ s with
          db := (s.db.apply p.records).publishSequence ((p.records.map WriteOp.sequence).getLastD 0)
          lock := .free
          prep := none }.acknowledge c.path c.txn (c.bulk ++ p.records))
  | soloVlog (c p) : s.lock = .solo c → s.prep = some p → p.complete →
      Step s (.soloWrite .vlog) { s with lock := .free, prep := none }
  | soloIo (c p) : s.lock = .solo c → s.prep = some p → p.complete →
      Step s (.soloWrite .io) { s with
        db := { s.db with durabilityFenced := true }, lock := .free, prep := none, failed := true }
  | ingestRefused (entries) : s.unlocked = true → Step s (.ingest entries) s
  | ingestOver (entries db) : s.unlocked = true → entries ≠ [] → Flushed s.db db →
      maxAssignableSequenceNumber < s.db.nextSeq + entries.length - 1 →
      Step s (.ingest entries)
        { s with
          db := { db with nextSeq := s.db.nextSeq + entries.length }
          lock := .owing entries.length }
  | ingest (entries db) : s.unlocked = true → entries ≠ [] → Flushed s.db db →
      s.db.nextSeq + entries.length - 1 ≤ maxAssignableSequenceNumber →
      Step s (.ingest entries) { s with
        db := { db with nextSeq := s.db.nextSeq + entries.length }
        lock := .ingest (numberDown (s.db.nextSeq + entries.length - 1) entries) }
  | install (records) : s.lock = .ingest records →
      Step s (.install .ok)
        ({ s with
          db := { s.db with ssts := ⟨records, false⟩ :: s.db.ssts }.publishSequence
            ((records.map WriteOp.sequence).headD 0)
          lock := .free }.acknowledge .ingest ⟨[], none⟩ records)
  | installSst (records) : s.lock = .ingest records → Step s (.install .sst) { s with lock := .free }
  | installManifest (records) : s.lock = .ingest records →
      Step s (.install .manifest) { s with db := { s.db with durabilityFenced := true }, lock := .free }
  | begin (op) : s.lock = .free → Step s (.begin op) { s with bypasses := s.bypasses ++ [.begun op] }
  | mintOver (i op) : s.bypasses[i]? = some (.begun op) → maxAssignableSequenceNumber < s.db.nextSeq →
      Step s (.mint i) { s.bump 1 with bypasses := s.bypasses.set i .overdrawn }
  | mint (i op r) : s.bypasses[i]? = some (.begun op) → s.db.nextSeq ≤ maxAssignableSequenceNumber →
      record (fun v => .ok (escapeInlineValue v)) s.db.nextSeq op = .ok r →
      Step s (.mint i) { s.bump 1 with bypasses := s.bypasses.set i (.minted r) }
  | bypassGiveBack (i) : s.bypasses[i]? = some .overdrawn →
      Step s (.bypassGiveBack i) { s with
        db := { s.db with nextSeq := s.db.nextSeq - 1 }
        bypasses := s.bypasses.set i .finished }
  | bypassWrite (i op) : s.bypasses[i]? = some (.minted op) →
      Step s (.bypassWrite i true) { s with bypasses := s.bypasses.set i (.written op) }
  | bypassFail (i op) : s.bypasses[i]? = some (.minted op) →
      Step s (.bypassWrite i false) { s with bypasses := s.bypasses.set i .finished, failed := true }
  | insert (i op) : s.bypasses[i]? = some (.written op) → s.lock = .free →
      Step s (.insert i) { s with db := s.db.apply [op], bypasses := s.bypasses.set i (.inserted op) }
  | publish (i op) : s.bypasses[i]? = some (.inserted op) → s.lock = .free →
      Step s (.publish i) ({ s with
        db := s.db.publishSequence op.sequence
        bypasses := s.bypasses.set i .finished }.acknowledge .bypass ⟨[], none⟩ [op])
  | snapshot : s.lock = .free → Step s .snapshot { s with snaps := s.snaps ++ [s.db.publishedSeq] }
  | getAt (snap key) : s.lock = .free → snap ∈ s.snaps →
      Step s (.getAt snap key) { s with reads := s.reads ++ [(snap, key, s.db.getAt snap key)] }

open Option (ite_none_right_eq_some)
variable {s s' : State}

/-- A sequence is refused, or taken for a record that is made or fails to spill. -/
theorem alloc_cases {spill : Value → Result Value} (h : s.alloc spill = some s') :
    Step s (.alloc spill) s' := by
  unfold alloc at h
  split at h
  · cases h
  rename_i p hp
  split at h
  · cases h
  rename_i hflags
  obtain ⟨hover, hfail⟩ : p.overdrawn = false ∧ p.failed = false := by simpa using hflags
  split at h
  · cases h
  rename_i op rest htodo
  simp only [seqExhausted, decide_eq_true_eq] at h
  split at h
  · rename_i hlt
    cases h
    exact .allocOver spill p hp hover hfail hlt
  rename_i hlt
  split at h
  · cases h
    exact .allocFail spill p op rest hp hover hfail htodo (Nat.not_lt.mp hlt)
  · rename_i r hr
    cases h
    exact .alloc spill p op rest r hp hover hfail htodo (Nat.not_lt.mp hlt) hr

theorem giveBack_cases (h : s.giveBack = some s') : Step s .giveBack s' := by
  unfold giveBack at h
  split at h
  · cases h
  · rename_i p hp
    obtain ⟨hover, ⟨⟩⟩ := ite_none_right_eq_some.mp h
    exact .giveBack p hp hover

/-- A failed preparation gives back what it took. -/
theorem rollback_cases (h : s.rollback = some s') : Step s .rollback s' := by
  unfold rollback at h
  split at h
  · cases h
  rename_i p hp
  obtain ⟨hf, h⟩ := ite_none_right_eq_some.mp h
  split at h
  · rename_i c hc
    cases h
    by_cases hone : c.path = .one
    · simp only [hone, if_true]
      exact .refuseOne p c hp hf hc hone
    · simp only [hone, if_false]
      exact .rollback p .free hp hf (.inr ⟨rfl, c, hc, hone⟩)
  · rename_i hlock
    cases h
    exact .rollback p s.lock hp hf (.inl ⟨rfl, fun c hc => hlock c hc⟩)

/-! ### The leader -/

theorem Lead.idle_iff (l : Lead) : l.idle = true ↔ l.queue = [] ∧ l.group.pending = [] := by
  simp [Lead.idle]

/-- The leader takes members in, validated or refused. -/
theorem wave_cases {members : List Txn} {refused : Bool} (h : s.wave members refused = some s') :
    Step s (.wave members refused) s' := by
  obtain ⟨hg, ⟨⟩⟩ := ite_none_right_eq_some.mp h
  refine .wave members refused _ _ hg.1 hg.2.1 hg.2.2.1 rfl ?_
  split
  · exact .inl rfl
  · exact .inr rfl

/-- A member that has nothing to write is passed over. -/
theorem prepare_cases (h : s.prepare = some s') : Step s .prepare s' := by
  obtain ⟨hg, h⟩ := ite_none_right_eq_some.mp h
  split at h
  · cases h
  rename_i t rest hq
  split at h
  · rename_i hnil
    cases h
    exact .prepareSkip t rest hg.1 hg.2 hq (.inl hnil)
  rename_i hne
  cases h
  by_cases hf : s.db.durabilityFenced = true
  · have : s.beginPrep t = s.prep := by simp [beginPrep, hf, hg.2]
    rw [this]
    exact .prepareSkip t rest hg.1 hg.2 hq (.inr hf)
  · rw [beginPrep, if_neg hf]
    exact .prepare t rest hg.1 hg.2 hq hne (by simpa using hf)

/-- A member whose records are all made joins the group. -/
theorem ready_cases (h : s.ready = some s') : Step s .ready s' := by
  unfold ready at h
  split at h
  · cases h
  rename_i p hp
  obtain ⟨hg, ⟨⟩⟩ := ite_none_right_eq_some.mp h
  exact .ready p hp hg.1 hg.2

/-- The group goes to the log buffer, unless the encoding fails. -/
theorem encode_cases {flush encode : Bool} (h : s.encode flush encode = some s') :
    Step s (.encode flush encode) s' := by
  obtain ⟨hg, ⟨⟩⟩ := ite_none_right_eq_some.mp h
  split
  · exact .encodeFail flush encode hg.1 hg.2.1 hg.2.2
  split
  · exact .encodeSkip flush encode hg.1 hg.2.1 hg.2.2
  rename_i hlive
  split
  · exact .encodeFail flush encode hg.1 hg.2.1 hg.2.2
  · rename_i hfence
    simp only [Bool.or_eq_true, not_or, Bool.not_eq_true] at hlive hfence
    exact .encode flush encode hg.1 hg.2.1 hg.2.2 hlive.1 hfence.1

theorem stage_cases (h : s.stage = some s') : Step s .stage s' := by
  obtain ⟨hg, ⟨⟩⟩ := ite_none_right_eq_some.mp h
  obtain ⟨hq, hp⟩ := (Lead.idle_iff _).mp hg.2.2
  exact .stage hg.1 hg.2.1 hq hp

/-- The leader leaves the lock, and the group is in flight. -/
theorem fly_cases (h : s.fly = some s') : Step s .fly s' := by
  obtain ⟨hg, ⟨⟩⟩ := ite_none_right_eq_some.mp h
  exact .fly hg.1 hg.2.1 ((Lead.idle_iff _).mp hg.2.2.1).1 hg.2.2.2.1

/-- The log write of a flight succeeds or fails. -/
theorem write_cases {ok : Bool} (h : s.write ok = some s') : Step s (.write ok) s' := by
  unfold write at h
  split at h
  · rename_i chunks hf
    cases h
    exact .write ok chunks hf
  · cases h

/-- A flight applies what it wrote and answers its members. -/
theorem finish_cases (h : s.finish = some s') : Step s .finish s' := by
  unfold finish at h
  split at h
  · rename_i chunks ok hf
    obtain ⟨hlock, h⟩ := ite_none_right_eq_some.mp h
    split at h
    · rename_i hok
      cases h
      exact .finish chunks (hok ▸ hf) hlock
    · rename_i hok
      cases h
      exact .fence chunks ((Bool.not_eq_true _ ▸ hok : ok = false) ▸ hf) hlock
  · cases h

/-! ### Commits under the lock -/

/-- A transaction alone is validated under the lock. -/
theorem lone_cases {t : Txn} (h : s.lone t = some s') : Step s (.lone t) s' := by
  obtain ⟨hg, h⟩ := ite_none_right_eq_some.mp h
  split at h
  · cases h
    exact .loneRefused t hg.1
  · rename_i hv
    cases h
    exact .lone t hg.1 hg.2 hv

theorem one_cases {op : BatchOp} (h : s.one op = some s') : Step s (.one op) s' := by
  obtain ⟨hu, ⟨⟩⟩ := ite_none_right_eq_some.mp h
  exact .one op hu

/-- A batch is split into its bulk part and the rest. -/
theorem batch_cases {latched : Key → Bool} {ops : List BatchOp} (h : s.batch latched ops = some s') :
    Step s (.batch latched ops) s' := by
  obtain ⟨hu, h⟩ := ite_none_right_eq_some.mp h
  split at h
  rename_i bulk ladder hsplit
  have hbulk : (splitBatch s.db.physicalCfs latched ops).1 = bulk := by rw [hsplit]
  have hladder : (splitBatch s.db.physicalCfs latched ops).2 = ladder := by rw [hsplit]
  split at h
  · cases h
    subst hladder
    exact .batch latched ops hu hbulk
  rename_i key value rest
  simp only [seqExhausted, decide_eq_true_eq] at h
  split at h
  · rename_i hlt
    cases h
    exact .batchOver latched ops (rest.length + 1) _ _ hu (by rw [hbulk]; rfl) (Nat.succ_pos _) hlt
  rename_i hlt
  have hputs : (sortBulkKeyVals ((key, value) :: rest)).length = rest.length + 1 :=
    sortBulkKeyVals_length _
  cases h
  subst hladder
  have hstep := Step.batchBulk (s := s) latched ops (sortBulkKeyVals ((key, value) :: rest))
    (s.db.openRun (bulkFamilyOfKey s.db.physicalCfs key)).1
    (pushRun (bulkFamilyOfKey s.db.physicalCfs key)
      (numberPuts s.db.nextSeq (sortBulkKeyVals ((key, value) :: rest)))
      (s.db.openRun (bulkFamilyOfKey s.db.physicalCfs key)).2)
    hu (by rw [hputs, hbulk]; rfl) (List.ne_nil_of_length_pos (by omega)) (by omega)
  simp only [bump, hputs] at hstep
  exact hstep

theorem giveBackBlock_cases (h : s.giveBackBlock = some s') : Step s .giveBackBlock s' := by
  unfold giveBackBlock at h
  split at h
  · rename_i n hn
    cases h
    exact .giveBackBlock n hn
  · cases h

theorem bulkDone_cases (h : s.bulkDone = some s') : Step s .bulkDone s' := by
  unfold bulkDone at h
  split at h
  · rename_i c hc
    obtain ⟨hg, ⟨⟩⟩ := ite_none_right_eq_some.mp h
    split
    · exact .emptyDone c hc hg.2.2 hg.2.1 (by assumption)
    · exact .bulkDone c hc hg.2.2 hg.1 hg.2.1 (by assumption)
  · cases h

/-- A put takes a sequence under the lock and goes to the tail of a run. -/
theorem tailPut_cases (h : s.tailPut = some s') : Step s .tailPut s' := by
  unfold tailPut at h
  split at h
  · rename_i c hc
    split at h
    · obtain ⟨hg, h⟩ := ite_none_right_eq_some.mp h
      simp only [seqExhausted, decide_eq_true_eq] at h
      split at h
      · rename_i hover
        cases h
        exact .tailOver c hc hg.2.2 hover
      · rename_i hroom
        cases h
        exact .tailPut c _ hc hg.2.2 (Nat.le_of_not_lt hroom) rfl
    · cases h
  · cases h

theorem soloPrepare_cases (h : s.soloPrepare = some s') : Step s .soloPrepare s' := by
  unfold soloPrepare at h
  split at h
  · rename_i c hc
    obtain ⟨hg, h⟩ := ite_none_right_eq_some.mp h
    by_cases hf : s.db.durabilityFenced = true
    · simp only [beginPrep, if_pos hf] at h
      cases h
      exact .soloFenced c hc hg.1 hf
    · simp only [beginPrep, if_neg hf] at h
      cases h
      exact .soloPrepare c hc hg.1 hg.2 (by simpa using hf)
  · cases h

/-- What becomes of a commit when the log answers. -/
theorem soloWrite_cases {outcome : WalOutcome} (h : s.soloWrite outcome = some s') : Step s
    (.soloWrite outcome) s' := by
  unfold soloWrite at h
  split at h
  · rename_i c p hc hp
    obtain ⟨hg, h⟩ := ite_none_right_eq_some.mp h
    split at h
    · cases h
      exact .soloOk c p hc hp hg
    · cases h
      exact .soloVlog c p hc hp hg
    · cases h
      exact .soloIo c p hc hp hg
  · cases h

/-- An ingest takes a block of sequences, or finds none left. -/
theorem ingest_cases {entries : List (ValueType × Key × Value)} (h : s.ingest entries = some s') :
    Step s (.ingest entries) s' := by
  obtain ⟨hg, h⟩ := ite_none_right_eq_some.mp h
  simp only [seqExhausted, decide_eq_true_eq] at h
  have hdb : ∀ db, db = (if s.db.mem = [] ∧ s.db.bulkRuns = [] then s.db else s.db.flush) →
      Flushed s.db db := by
    intro db hdb
    subst hdb
    split
    · rename_i hnone
      exact .clean hnone.1
    · exact .flush
  split at h
  · cases h
    exact .ingestRefused entries hg.1
  split at h
  · rename_i hlt
    cases h
    exact .ingestOver entries _ hg.1 hg.2 (hdb _ rfl) hlt
  · rename_i hlt
    cases h
    exact .ingest entries _ hg.1 hg.2 (hdb _ rfl) (Nat.not_lt.mp hlt)

/-- An ingest is put where its outcome says. -/
theorem install_cases {outcome : IngestOutcome} (h : s.install outcome = some s') :
    Step s (.install outcome) s' := by
  unfold install at h
  split at h
  · rename_i records hr
    split at h
    · cases h
      exact .install records hr
    · cases h
      exact .installSst records hr
    · cases h
      exact .installManifest records hr
  · cases h

/-! ### The bypass and the readers -/

theorem begin_cases {op : BatchOp} (h : s.begin op = some s') : Step s (.begin op) s' := by
  obtain ⟨hfree, ⟨⟩⟩ := ite_none_right_eq_some.mp h
  exact .begin op hfree

variable {i : Nat}

/-- A bypassing write takes its sequence without the lock. -/
theorem mint_cases (h : s.mint i = some s') : Step s (.mint i) s' := by
  unfold mint at h
  split at h
  swap
  · cases h
  rename_i op hi
  simp only [seqExhausted, decide_eq_true_eq] at h
  split at h
  · rename_i hlt
    cases h
    exact .mintOver i op hi hlt
  rename_i hlt
  split at h
  · cases h
  · rename_i r hr
    cases h
    exact .mint i op r hi (Nat.not_lt.mp hlt) hr

theorem bypassGiveBack_cases (h : s.bypassGiveBack i = some s') : Step s (.bypassGiveBack i) s' := by
  unfold bypassGiveBack at h
  split at h
  · cases h
    exact .bypassGiveBack i (by assumption)
  · cases h

/-- A bypassing write logs on its own. -/
theorem bypassWrite_cases {ok : Bool} (h : s.bypassWrite i ok = some s') :
    Step s (.bypassWrite i ok) s' := by
  unfold bypassWrite at h
  split at h
  · rename_i op hi
    cases ok with
    | true =>
      cases h
      exact .bypassWrite i op hi
    | false =>
      cases h
      exact .bypassFail i op hi
  · cases h

theorem insert_cases (h : s.insert i = some s') : Step s (.insert i) s' := by
  unfold State.insert at h
  split at h
  · rename_i op hi
    obtain ⟨hfree, ⟨⟩⟩ := ite_none_right_eq_some.mp h
    exact .insert i op hi hfree
  · cases h

theorem publish_cases (h : s.publish i = some s') : Step s (.publish i) s' := by
  unfold publish at h
  split at h
  · rename_i op hi
    obtain ⟨hfree, ⟨⟩⟩ := ite_none_right_eq_some.mp h
    exact .publish i op hi hfree
  · cases h

/-- Every step is one of those listed. -/
theorem step_cases {e : Event} (h : step s e = some s') : Step s e s' := by
  cases e with
  | takeLead =>
    obtain ⟨hg, ⟨⟩⟩ := ite_none_right_eq_some.mp h
    rw [Bool.and_eq_true, Option.isNone_iff_eq_none] at hg
    exact .takeLead hg.1 hg.2
  | wave members refused => exact wave_cases h
  | prepare => exact prepare_cases h
  | alloc spill => exact alloc_cases h
  | giveBack => exact giveBack_cases h
  | rollback => exact rollback_cases h
  | ready => exact ready_cases h
  | encode flush encode => exact encode_cases h
  | stage => exact stage_cases h
  | fly => exact fly_cases h
  | write ok => exact write_cases h
  | finish => exact finish_cases h
  | lone t => exact lone_cases h
  | one op => exact one_cases h
  | batch latched ops => exact batch_cases h
  | giveBackBlock => exact giveBackBlock_cases h
  | bulkDone => exact bulkDone_cases h
  | tailPut => exact tailPut_cases h
  | soloPrepare => exact soloPrepare_cases h
  | soloWrite outcome => exact soloWrite_cases h
  | ingest entries => exact ingest_cases h
  | install outcome => exact install_cases h
  | begin op => exact begin_cases h
  | mint i => exact mint_cases h
  | bypassGiveBack i => exact bypassGiveBack_cases h
  | bypassWrite i ok => exact bypassWrite_cases h
  | insert i => exact insert_cases h
  | publish i => exact publish_cases h
  | snapshot =>
    obtain ⟨hfree, ⟨⟩⟩ := ite_none_right_eq_some.mp h
    exact .snapshot hfree
  | getAt snap key =>
    obtain ⟨hg, ⟨⟩⟩ := ite_none_right_eq_some.mp h
    exact .getAt snap key hg.1 hg.2

/-! ### What goes with the lock -/

theorem unlocked_free (h : s.unlocked = true) : s.lock = .free := by
  simp only [unlocked, Bool.and_eq_true, beq_iff_eq] at h
  exact h.1

/-- Only the leader has members, and only the leader and a commit that keeps the lock
prepare. -/
structure Held (s : State) : Prop where
  lead : s.lock ≠ .lead → s.lead = .empty
  prep : s.prep ≠ none → s.lock = .lead ∨ ∃ c, s.lock = .solo c

section
variable (h : Held s)
include h

/-- Nothing is prepared without the lock. -/
theorem Held.idle_of (hlead : s.lock ≠ .lead) (hsolo : ∀ c, s.lock ≠ .solo c) : s.prep = none := by
  by_contra hp
  rcases h.prep hp with hl | ⟨c, hc⟩
  · exact hlead hl
  · exact hsolo c hc

theorem Held.idle (hfree : s.lock = .free) : s.prep = none :=
  h.idle_of (by rw [hfree]; nofun) (by rw [hfree]; nofun)

/-- A step that gives the lock up leaves nothing behind. -/
theorem Held.release (hlead : s.lock ≠ .lead) (hl : s'.lead = s.lead) (hp : s'.prep = none) : Held s' :=
  ⟨fun _ => hl ▸ h.lead hlead, fun hne => absurd hp hne⟩

theorem Held.acquire (hu : s.unlocked = true) (hl : s'.lead = s.lead) (hp : s'.prep = s.prep) :
    Held s' := by
  have hfree := unlocked_free hu
  refine ⟨fun _ => hl ▸ h.lead (by rw [hfree]; nofun), fun hne => ?_⟩
  rw [hp, h.idle hfree] at hne
  exact absurd rfl hne

theorem Held.keep (hlock : s'.lock = s.lock) (hl : s'.lead = s.lead)
    (hp : s.prep = none → s'.prep = none) : Held s' := by
  refine ⟨fun hne => ?_, fun hne => ?_⟩
  · rw [hl]
    exact h.lead (hlock ▸ hne)
  · rw [hlock]
    exact h.prep fun hnone => hne (hp hnone)

end

theorem Held.leads (hlock : s'.lock = .lead) : Held s' :=
  ⟨fun hne => absurd hlock hne, fun _ => .inl hlock⟩

/-- **The lock guards the leader and the preparation.** -/
theorem Held.step {e : Event} (h : Held s) (hs : Step s e s') : Held s' := by
  cases hs with
  | takeLead => exact .leads rfl
  | wave _ _ _ _ hlock | prepareSkip _ _ hlock | prepare _ _ hlock | ready _ _ hlock
  | encodeFail _ _ hlock
  | encode _ _ hlock | stage hlock => exact .leads hlock
  | encodeSkip | loneRefused | ingestRefused => exact h
  | allocOver _ p hp | allocFail _ p _ _ hp | alloc _ p _ _ _ hp | giveBack p hp =>
    exact h.keep rfl rfl fun hnone => absurd hp (by rw [hnone]; nofun)
  | rollback p lock hp _ hlock =>
    rcases hlock with ⟨rfl, _⟩ | ⟨rfl, c, hc, _⟩
    · exact h.keep rfl rfl fun _ => rfl
    · exact h.release (by rw [hc]; nofun) rfl rfl
  | refuseOne p c _ _ hc => exact h.release (by rw [hc]; nofun) rfl rfl
  | fly _ hp => exact ⟨fun _ => rfl, fun hne => absurd hp hne⟩
  | lone _ hu | one _ hu | batch _ _ hu | batchOver _ _ _ _ _ hu | batchBulk _ _ _ _ _ hu
  | ingestOver _ _ hu
  | ingest _ _ hu => exact h.acquire hu rfl rfl
  | giveBackBlock n hn =>
    exact h.release (by rw [hn]; nofun) rfl (h.idle_of (by rw [hn]; nofun) (by rw [hn]; nofun))
  | emptyDone c hc hp | bulkDone c hc hp | tailOver c hc hp | tailPut c _ hc hp | soloFenced c hc hp =>
    exact h.release (by rw [hc]; nofun) rfl hp
  | soloPrepare c hc => exact ⟨h.lead, fun _ => .inr ⟨c, hc⟩⟩
  | soloOk c p hc | soloVlog c p hc | soloIo c p hc => exact h.release (by rw [hc]; nofun) rfl rfl
  | install _ hr | installSst _ hr | installManifest _ hr =>
    exact h.release (by rw [hr]; nofun) rfl (h.idle_of (by rw [hr]; nofun) (by rw [hr]; nofun))
  | write | finish | fence | begin | mintOver | mint | bypassGiveBack | bypassWrite | bypassFail
  | insert | publish
  | snapshot | getAt => exact h.keep rfl rfl id

theorem held_opened (db : Db) : Held (.opened db) := ⟨fun _ => rfl, fun h => absurd rfl h⟩

end PedraDb.Pipeline
