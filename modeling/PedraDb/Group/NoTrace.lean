import PedraDb.Group.Outcome

/-! What a failed member leaves behind.

A member told `Err` should leave nothing: not in the memtable, and not in the log a
reopen would replay. A wave that fails after others of its group were encoded breaks
this: the group answers them all with an error, but the frame with their records is
written all the same (`failed_wave_written`). `err_reply_no_trace` says it holds in
every round whose absorbed waves only fail while the group has encoded nobody.

The argument is about sequences: what a round prepares for different members lies in
disjoint stretches of sequences above everything already in the store, so a record
found in the memtable or the log is that of the one member it was prepared for. -/
namespace PedraDb.Group
open List Chunk Schedule
variable {r recs : List WriteOp} {lo hi i : Nat}
variable {g : GroupInFlight} {own : List (Option (List WriteOp))} {db db₁ : Db} {s : Schedule}
    {ps : List PendingWrite}
variable {frame : List (List WriteOp)}

/-! ### Stretches of sequences -/

/-- The preparations lie one after another between `lo` and `hi`. -/
def Stretches : Nat → List (Option (List WriteOp)) → Nat → Prop
  | lo, [], hi => lo ≤ hi
  | lo, none :: rest, hi => Stretches lo rest hi
  | lo, some recs :: rest, hi =>
    ∃ mid, lo ≤ mid ∧ (∀ op ∈ recs, lo ≤ op.sequence ∧ op.sequence < mid) ∧ Stretches mid rest hi

theorem Stretches.le (h : Stretches lo own hi) : lo ≤ hi := by
  induction own generalizing lo with
  | nil => exact h
  | cons o own ih =>
    cases o with
    | none => exact ih h
    | some recs =>
      obtain ⟨mid, hle, _, hrest⟩ := h
      exact Nat.le_trans hle (ih hrest)

variable {mid : Nat}

theorem Stretches.lower (hle : lo ≤ mid) (h : Stretches mid own hi) : Stretches lo own hi := by
  induction own generalizing mid with
  | nil => exact Nat.le_trans hle h
  | cons o own ih =>
    cases o with
    | none => exact ih hle h
    | some recs =>
      obtain ⟨m, hm, hin, hrest⟩ := h
      exact ⟨m, Nat.le_trans hle hm, fun op hop =>
        ⟨Nat.le_trans hle (hin op hop).1, (hin op hop).2⟩, hrest⟩

theorem Stretches.append {a b : List (Option (List WriteOp))}
    (ha : Stretches lo a mid) (hb : Stretches mid b hi) : Stretches lo (a ++ b) hi := by
  induction a generalizing lo with
  | nil => exact hb.lower ha
  | cons o a ih =>
    cases o with
    | none => exact ih ha
    | some recs =>
      obtain ⟨m, hle, hin, hrest⟩ := ha
      exact ⟨m, hle, hin, ih hrest⟩

theorem Stretches.none (lo : Nat) (ps : List PendingWrite) :
    Stretches lo (ps.map fun _ => Option.none) lo := by
  induction ps with
  | nil => exact Nat.le_refl lo
  | cons p ps ih => exact ih

theorem Stretches.bounds (h : Stretches lo own hi) (hi' : own[i]? = some (some recs)) {op : WriteOp}
    (hop : op ∈ recs) : lo ≤ op.sequence ∧ op.sequence < hi := by
  induction own generalizing lo i with
  | nil => cases hi'
  | cons o own ih =>
    cases o with
    | none =>
      cases i with
      | zero => cases hi'
      | succ i => exact ih h hi'
    | some rs =>
      obtain ⟨mid, hle, hin, hrest⟩ := h
      cases i with
      | zero =>
        have : rs = recs := by simpa using hi'
        subst this
        exact ⟨(hin op hop).1, Nat.lt_of_lt_of_le (hin op hop).2 hrest.le⟩
      | succ i =>
        obtain ⟨h1, h2⟩ := ih hrest hi'
        exact ⟨Nat.le_trans hle h1, h2⟩

theorem Stretches.unique (h : Stretches lo own hi) {j : Nat} {a b : List WriteOp}
    (ha : own[i]? = some (some a))
    (hb : own[j]? = some (some b)) {x y : WriteOp} (hx : x ∈ a) (hy : y ∈ b)
    (hseq : x.sequence = y.sequence) : i = j := by
  induction own generalizing lo i j with
  | nil => cases ha
  | cons o own ih =>
    cases i with
    | zero =>
      cases j with
      | zero => rfl
      | succ j =>
        have : o = some a := by simpa using ha
        subst this
        obtain ⟨mid, _, hin, hrest⟩ := h
        have hlow := (hrest.bounds (i := j) hb hy).1
        have hhigh := (hin x hx).2
        omega
    | succ i =>
      cases j with
      | zero =>
        have : o = some b := by simpa using hb
        subst this
        obtain ⟨mid, _, hin, hrest⟩ := h
        have hlow := (hrest.bounds (i := i) ha hx).1
        have hhigh := (hin y hy).2
        omega
      | succ j =>
        refine congrArg (· + 1) ?_
        cases o with
        | none => exact ih h ha hb
        | some rs =>
          obtain ⟨mid, _, _, hrest⟩ := h
          exact ih hrest ha hb

theorem assign_seqs {spill : Nat → Value → Result Value} {j : Nat} {next next' : Nat}
    {ops : List BatchOp} (h : assign spill j next ops = .ok (recs, next')) :
    next ≤ next' ∧ ∀ op ∈ recs, next ≤ op.sequence ∧ op.sequence < next' := by
  induction ops generalizing j next recs with
  | nil =>
    cases h
    exact ⟨.refl, by simp⟩
  | cons op ops ih =>
    simp only [assign] at h
    split at h
    · cases h
    rename_i seq next₁ halloc
    have hseq : seq = next ∧ next₁ = next + 1 := by
      unfold allocSeq at halloc
      split at halloc
      · cases halloc
      · cases halloc
        exact ⟨rfl, rfl⟩
    split at h
    · cases h
    rename_i r hr
    split at h
    · cases h
    rename_i rest _ hrest
    cases h
    obtain ⟨hle, hin⟩ := ih hrest
    have hrseq : r.sequence = seq := (record_ok hr).2
    refine ⟨by omega, fun op hop => ?_⟩
    rcases mem_cons.mp hop with rfl | hop
    · omega
    · have := hin op hop
      omega

theorem preparedWave_stretches (spill : Nat → Nat → Value → Result Value) (off : Nat) (db : Db)
    (inputs : List Input) :
    Stretches db.nextSeq (preparedWave spill off db inputs) (waveDb spill off db inputs).nextSeq := by
  induction inputs generalizing off db with
  | nil => exact .refl
  | cons input rest ih =>
    have hrest := ih (off + 1) (memberDb db (spill off) input)
    simp only [preparedWave, waveDb]
    rcases prepareMember_cases db (.empty 0) (spill off) 0 input with
      ⟨_, ho, hm, _⟩ | ⟨e, ho, hm, _⟩ | ⟨db', recs, hprep, ho, hm, _⟩
    · rw [hm] at hrest ⊢
      rw [ho]
      exact hrest
    · rw [hm] at hrest ⊢
      rw [ho]
      exact hrest
    · rw [hm] at hrest ⊢
      rw [ho]
      obtain ⟨next, hassign, hdb⟩ := prepareWriteOps_db hprep
      obtain ⟨hle, hin⟩ := assign_seqs hassign
      subst hdb
      exact ⟨next, hle, hin, hrest⟩

/-! ### The counter through a round -/

theorem groupAppendOps_nextSeq (db : Db) (g : GroupInFlight) (io : WaveIo) :
    (groupAppendOps db g io).1.nextSeq = db.nextSeq := by
  rcases groupAppendOps_cases db g io with ⟨_, h⟩ | ⟨e, h⟩ | h <;> rw [h]

theorem groupStart_stretches {db' : Db} {w : Wave} {r : Except (List (Result Nat)) GroupInFlight}
    (h : groupStart db w.inputs w.io = (db', r)) : Stretches db.nextSeq (startOwn db w) db'.nextSeq := by
  have hw := preparedWave_stretches w.io.spill 0 db w.inputs
  unfold startOwn
  rcases groupStart_cases db w.inputs w.io with
    ⟨hnil, heq⟩ | ⟨e, _, hr, heq⟩ | ⟨e, _, hr, heq⟩ | ⟨_, hr, g, _, _, heq⟩ <;>
    rw [heq] at h <;> obtain ⟨rfl, _⟩ := Prod.mk.inj h
  · have hm : w.members = [] := by simpa [Wave.inputs] using hnil
    rw [hnil, hm]
    split <;> exact .refl
  · rw [if_pos (by simp [hr])]
    exact .none _ _
  · rw [if_neg (by simp [hr])]
    exact hw
  · rw [if_neg (by simp [hr]), groupAppendOps_nextSeq]
    exact hw

theorem groupAbsorb_stretches (db : Db) (g : GroupInFlight) (w : Wave) :
    Stretches db.nextSeq (absorbOwn db g w) (groupAbsorb db g w.inputs w.io).1.nextSeq := by
  unfold absorbOwn
  split
  · rename_i hf
    rw [groupAbsorb_failed db g w.inputs w.io hf]
    exact .none _ _
  rename_i hf
  by_cases hnil : w.inputs = []
  · rw [hnil, groupAbsorb_nil]
    exact .refl
  have hw := preparedWave_stretches w.io.spill 0 db w.inputs
  have hcond : ¬ (g.failed || w.inputs.isEmpty) = true := by simp [hf, hnil]
  simp only [groupAbsorb, if_neg hcond]
  cases w.io.vlog with
  | some e =>
    simp only [groupPrepare_db]
    exact hw
  | none =>
    simp only [groupAppendOps_nextSeq, groupPrepare_db]
    exact hw

theorem absorbWaves_stretches (db : Db) (g : GroupInFlight) (ws : List Wave) :
    Stretches db.nextSeq (absorbedOwn db g ws) (absorbWaves db g ws).1.nextSeq := by
  induction ws generalizing db g with
  | nil => exact .refl
  | cons w ws ih => exact (groupAbsorb_stretches db g w).append (ih _ _)

theorem startChunk_stretches (db : Db) (w : Wave) :
    Stretches db.nextSeq (startOwn db w) (startChunk db w).1.nextSeq := by
  unfold startChunk
  split
  · rename_i hstart
    exact groupStart_stretches hstart
  · rename_i db' g hstart
    exact (groupStart_stretches hstart : Stretches _ _ db'.nextSeq)

theorem startChunks_stretches (db : Db) (ws : List Wave) :
    Stretches db.nextSeq (chunksOwn db ws) (startChunks db ws).1.nextSeq := by
  induction ws generalizing db with
  | nil => exact .refl
  | cons w ws ih => exact (startChunk_stretches db w).append (ih _)

/-! ### What a round adds to the store -/

def Chunk.slots : Chunk → List Slot
  | .fly g => g.appended
  | .done _ => []

theorem startChunk_wal (db : Db) (w : Wave) :
    (startChunk db w).1.wal = db.wal.encodeWriteOpBatches ((startChunk db w).2.slots.map Slot.ops) ∧
      (startChunk db w).1.mem = db.mem ∧ (startChunk db w).1.durabilityFenced = db.durabilityFenced := by
  unfold startChunk
  split
  · rename_i hstart
    obtain ⟨_, _, next, rfl⟩ := groupStart_error hstart
    exact ⟨by simp [Chunk.slots, Wal.encodeWriteOpBatches], rfl, rfl⟩
  rename_i db' g hstart
  obtain ⟨_, slots, henc⟩ := groupStart_ok hstart
  have happ : g.appended = slots := by simpa [GroupInFlight.empty] using henc.appended
  refine ⟨?_, ?_, ?_⟩
  · simp [stageUnapplied, Chunk.slots, happ, henc.wal]
  · exact (congrArg (fun d : Db => d.mem) henc.store :)
  · exact (congrArg (fun d : Db => d.durabilityFenced) henc.store :)

theorem startChunks_wal (db : Db) (ws : List Wave) : (startChunks db ws).1.wal =
        db.wal.encodeWriteOpBatches (((startChunks db ws).2.flatMap slots).map Slot.ops) ∧
      (startChunks db ws).1.mem = db.mem ∧ (startChunks db ws).1.durabilityFenced =
      db.durabilityFenced := by
  induction ws generalizing db with
  | nil => exact ⟨by simp [startChunks, Wal.encodeWriteOpBatches], rfl, rfl⟩
  | cons w ws ih =>
    obtain ⟨hw, hm, hf⟩ := startChunk_wal db w
    obtain ⟨hw', hm', hf'⟩ := ih (startChunk db w).1
    refine ⟨?_, hm'.trans hm, hf'.trans hf⟩
    simp only [startChunks, hw', hw]
    simp [Wal.encodeWriteOpBatches]

theorem applyChunks_mem_sub (db : Db) (cs : List Chunk) {op : WriteOp}
    (h : op ∈ (applyChunks db cs).1.mem) : op ∈ db.mem ∨ ∃ s ∈ cs.flatMap slots, op ∈ s.ops := by
  induction cs generalizing db with
  | nil => exact .inl h
  | cons c cs ih =>
    have hlater : (∃ s ∈ cs.flatMap slots, op ∈ s.ops) → ∃ s ∈ (c :: cs).flatMap slots, op ∈ s.ops :=
      fun ⟨s, hs, hop⟩ => ⟨s, by simp [hs], hop⟩
    cases c with
    | done rs => exact (ih db h).imp_right hlater
    | fly g =>
      rcases ih (groupApply db g).1 h with hold | hnew
      · unfold groupApply at hold
        split at hold
        · exact .inl hold
        · rcases mem_append.mp hold with hold | hnew
          · exact .inl hold
          · obtain ⟨s, hs, hop⟩ := mem_flatMap.mp hnew
            exact .inr ⟨s, by simp [slots, hs], hop⟩
      · exact .inr (hlater hnew)

theorem applyChunks_frame (db : Db) (cs : List Chunk) :
    (applyChunks db cs).1.durabilityFenced = db.durabilityFenced ∧
    (applyChunks db cs).1.nextSeq = db.nextSeq := by
  induction cs generalizing db with
  | nil => exact ⟨rfl, rfl⟩
  | cons c cs ih =>
    cases c with
    | done rs => exact ih db
    | fly g =>
      refine (ih (groupApply db g).1).imp (·.trans ?_) (·.trans ?_) <;>
      · unfold groupApply
        split <;> rfl

variable {cs : List Chunk}

theorem ChunksFor.encoded_ok (h : ChunksFor frame ps own cs) (db : Db)
    (hclean : ∀ g, fly g ∈ cs → g.failed = true → g.appended = []) {s : Slot}
    (hs : s ∈ cs.flatMap slots) :
    ∃ (i : Nat) (seq : Nat), own[i]? = some (some s.ops) ∧
    (applyChunks db cs).2[i]? = some (.ok seq) := by
  induction h generalizing db with
  | nil => cases hs
  | @cons ps own c ps' own' cs hc _ ih =>
    have hrest : s ∈ cs.flatMap slots → ∀ db', ∃ (i : Nat) (seq : Nat),
        (own ++ own')[own.length + i]? = some (some s.ops) ∧
        (applyChunks db' cs).2[i]? = some (.ok seq) := by
      intro hs db'
      obtain ⟨i, seq, ho, hr⟩ := ih db' (fun g hg => hclean g (mem_cons_of_mem _ hg)) hs
      exact ⟨i, seq, by rw [getElem?_append_right (by omega), Nat.add_sub_cancel_left]; exact ho, hr⟩
    rw [flatMap_cons] at hs
    cases hc with
    | @done rs _ _ hl ho _ =>
      obtain ⟨i, seq, hown, hr⟩ := hrest (by simpa [slots] using hs) db
      refine ⟨own.length + i, seq, hown, ?_⟩
      simp only [applyChunks]
      rw [ho, ← hl, getElem?_append_right (by omega), Nat.add_sub_cancel_left]
      exact hr
    | @fly g _ _ hset _ =>
      rcases mem_append.mp hs with hmem | hlater
      · have hmem' : s ∈ g.appended := hmem
        have hf : g.failed = false := by
          cases hf : g.failed with
          | false => rfl
          | true => exact absurd (hclean g (mem_cons_self ..) hf) (ne_nil_of_mem hmem')
        have hlt : s.index < g.results.length := by
          rw [hset.places]
          exact hset.slot_lt (mem_append_right _ hmem')
        obtain ⟨t, ht, hti, hget⟩ := answerAll_mem (fun t => .ok t.lastSeq) g.results hmem' hlt
        have hown := (hset.slot s (mem_append_right _ hmem')).1
        refine ⟨s.index, t.lastSeq, ?_, ?_⟩
        · rw [getElem?_append_left (List.getElem?_eq_some_iff.mp hown).1]
          exact hown
        · have hg : (groupApply db g).2 =
              finishGroupResults (answerAll (fun s => .ok s.lastSeq) g.appended g.results) := by
            simp [groupApply, hf]
          simp only [applyChunks]
          rw [getElem?_append_left (by rw [hg]; simpa using hlt), hg, finishGroupResults,
            getElem?_map, hget]
          rfl
      · obtain ⟨i, seq, hown, hr⟩ := hrest hlater (groupApply db g).1
        refine ⟨own.length + i, seq, hown, ?_⟩
        have hlen := hset.groupApply_length db
        simp only [applyChunks]
        rw [hset.own_length, ← hlen, getElem?_append_right (by omega), Nat.add_sub_cancel_left]
        exact hr

/-! ### Waves that fail with nobody encoded -/

/-- Every absorbed wave whose flush or encode fails finds the group with nobody encoded
(or already failed, when it is not taken in at all). -/
def absorbsCleanly : Db → GroupInFlight → List Wave → Bool
  | _, _, [] => true
  | db, g, w :: rest =>
    (g.failed || g.appended.isEmpty || w.members.isEmpty || (w.io.vlog.isNone && w.io.encode.isNone)) &&
      absorbsCleanly (groupAbsorb db g w.inputs w.io).1 (groupAbsorb db g w.inputs w.io).2 rest

/-- No wave of the round fails with members of its group encoded, and members and results
stay paired. -/
def Schedule.failsCleanly (s : Schedule) (db : Db) : Bool :=
  s.aligned db &&
    match groupStart db s.start.inputs s.start.io with
    | (_, .error _) => true
    | (db, .ok g) => absorbsCleanly db g s.absorbed

variable (db)

theorem groupAppendOps_failed (g : GroupInFlight) (io : WaveIo) (hg : g.failed = false)
    (hf : (groupAppendOps db g io).2.failed = true) :
    (groupAppendOps db g io).2.appended = g.appended := by
  rcases groupAppendOps_cases db g io with ⟨_, h⟩ | ⟨e, h⟩ | h <;> rw [h] at hf ⊢
  · rfl
  · simp [hg] at hf

theorem groupAppendOps_live (g : GroupInFlight) (io : WaveIo) (hg : g.failed = false)
    (hfence : db.durabilityFenced = false) (he : io.encode = none) :
    (groupAppendOps db g io).2.failed = false := by
  unfold groupAppendOps
  split
  · exact hg
  · simp [hfence, he, hg]

theorem groupStart_failed {db db' : Db} {inputs : List Input} {io : WaveIo}
    (h : groupStart db inputs io = (db', .ok g)) (hf : g.failed = true) : g.appended = [] := by
  rcases groupStart_cases db inputs io with
    ⟨_, heq⟩ | ⟨e, _, _, heq⟩ | ⟨e, _, _, heq⟩ | ⟨_, _, g₁, henc, hg₁, heq⟩ <;> rw [heq] at h <;>
    obtain ⟨_, hg⟩ := Prod.mk.inj h
  · cases hg
    rfl
  · cases hg
  · cases hg
  · obtain rfl := Except.ok.inj hg
    have hpf := (groupPrepare_frame io.spill 0 0 db (.empty inputs.length) inputs).2.1
    rw [← hg₁] at hpf
    rw [groupAppendOps_failed _ _ _ hpf hf, henc.appended]
    rfl

theorem groupAbsorb_clean (g : GroupInFlight) (w : Wave) (hfence : db.durabilityFenced = false)
    (hg : g.failed = true → g.appended = [])
    (hok : g.failed = true ∨ g.appended = [] ∨ w.members = [] ∨ (w.io.vlog = none ∧ w.io.encode = none))
    (hf : (groupAbsorb db g w.inputs w.io).2.failed = true) :
    (groupAbsorb db g w.inputs w.io).2.appended = [] := by
  by_cases hcond : (g.failed || w.inputs.isEmpty) = true
  · simp only [groupAbsorb, if_pos hcond] at hf ⊢
    exact hg hf
  obtain ⟨hgf, _⟩ : g.failed = false ∧ w.inputs ≠ [] := by simpa using hcond
  have hne : w.members ≠ [] := by
    intro hnil
    simp [Wave.inputs, hnil] at hcond
  obtain ⟨ha, hpf, _, _⟩ := groupPrepare_frame w.io.spill g.nextI 0 db (g.grow w.inputs.length) w.inputs
  have hga : (g.grow w.inputs.length).appended = g.appended := rfl
  have hgf' : (g.grow w.inputs.length).failed = false := hgf
  simp only [groupAbsorb, if_neg hcond] at hf ⊢
  rcases hok with hfail | hnil | hnil | ⟨hv, he⟩
  · rw [hgf] at hfail
    cases hfail
  · cases hvl : w.io.vlog with
    | some e => simp only [GroupInFlight.failPending, ha, hga, hnil]
    | none =>
      simp only [hvl] at hf ⊢
      rw [groupAppendOps_failed _ _ _ (hpf.trans hgf') hf, ha, hga, hnil]
  · exact absurd hnil hne
  · obtain ⟨next, hnext⟩ := waveDb_eq w.io.spill 0 db w.inputs
    have hlive := groupAppendOps_live
      (groupPrepare w.io.spill g.nextI 0 db (g.grow w.inputs.length) w.inputs).1 _ w.io (hpf.trans hgf')
      (by rw [groupPrepare_db, hnext]; exact hfence) he
    simp only [hv] at hf
    rw [hlive] at hf
    cases hf

theorem groupAbsorb_fenced (g : GroupInFlight) (inputs : List Input) (io : WaveIo) :
    (groupAbsorb db g inputs io).1.durabilityFenced = db.durabilityFenced := by
  obtain ⟨next, hnext⟩ := waveDb_eq io.spill 0 db inputs
  unfold groupAbsorb
  split
  · rfl
  cases io.vlog with
  | some e => simp only [groupPrepare_db, hnext]
  | none =>
    simp only [groupPrepare_db, hnext]
    rcases groupAppendOps_cases { db with nextSeq := next }
      (groupPrepare io.spill g.nextI 0 db (g.grow inputs.length) inputs).2 io with
      ⟨_, h⟩ | ⟨e, h⟩ | h <;> rw [h]

theorem absorbWaves_clean (g : GroupInFlight) (ws : List Wave)
    (hfence : db.durabilityFenced = false) (hg : g.failed = true → g.appended = [])
    (hok : absorbsCleanly db g ws = true) (hf : (absorbWaves db g ws).2.failed = true) :
    (absorbWaves db g ws).2.appended = [] := by
  induction ws generalizing db g with
  | nil => exact hg hf
  | cons w ws ih =>
    simp only [absorbsCleanly, Bool.and_eq_true, Bool.or_eq_true, List.isEmpty_iff,
      Option.isNone_iff_eq_none, or_assoc] at hok
    exact ih _ _ ((groupAbsorb_fenced db g w.inputs w.io).trans hfence)
      (groupAbsorb_clean db g w hfence hg hok.1) hok.2 hf

theorem startChunks_clean (ws : List Wave) (h : fly g ∈ (startChunks db ws).2)
    (hf : g.failed = true) : g.appended = [] := by
  induction ws generalizing db with
  | nil => cases h
  | cons w ws ih =>
    rcases mem_cons.mp h with hc | hrest
    · have hc : fly g = (startChunk db w).2 := hc
      unfold startChunk at hc
      split at hc
      · cases hc
      · rename_i hstart
        cases hc
        exact groupStart_failed hstart hf
    · exact ih _ hrest

/-! ### The store's sequences -/

variable {db}

theorem Wal.drainStaged_sub (w : Wal) (write : Bool) (h : r ∈ (w.drainStaged write).1.recoverable) :
    r ∈ w.recoverable := by
  unfold Wal.drainStaged at h
  split at h
  · exact h
  · split at h
    · simpa [Wal.recoverable] using h
    · exact h

theorem Wal.writePendingFrame_sub (w : Wal) (io : FrameIo)
    (h : r ∈ (w.writePendingFrame io).1.recoverable) : r ∈ w.recoverable := by
  unfold Wal.writePendingFrame at h
  split at h
  · exact h
  split at h
  · split at h
    · have := Wal.drainStaged_sub _ _ h
      simpa [Wal.recoverable] using this
    · simpa [Wal.recoverable] using h
  · split at h
    · simp only [Wal.recoverable, mem_append, not_mem_nil, or_false] at h ⊢
      tauto
    · simp only [Wal.recoverable, append_nil] at h
      exact mem_append_left _ h

theorem Wal.syncData_sub (w : Wal) (io : FrameIo) (h : r ∈ (w.syncData io).1.recoverable) :
    r ∈ w.recoverable := by
  unfold Wal.syncData at h
  split at h
  · rename_i w₁ e hw
    refine Wal.writePendingFrame_sub w io ?_
    rw [hw]
    exact h
  · rename_i w₁ hw
    refine Wal.writePendingFrame_sub w io ?_
    rw [hw]
    refine Wal.drainStaged_sub w₁ io.write ?_
    split at h
    · rename_i w₂ e hw₂
      rw [hw₂]
      exact h
    · rename_i w₂ hw₂
      rw [hw₂]
      split at h <;> exact h

theorem writeFrame_sub (w : Wal) (needSync : Bool) (io : FrameIo)
    (h : r ∈ (writeFrame w needSync io).1.recoverable) : r ∈ w.recoverable := by
  unfold writeFrame Wal.takePwriteJob at h
  by_cases hjob : (w.positional && !w.frame.isEmpty) = true
  · simp only [if_pos hjob] at h
    have hmem : ∀ {r}, r ∈ ({ w with frame := [], file := w.file ++ w.frame } : Wal).recoverable →
        r ∈ w.recoverable := by
      intro r hr
      simp only [Wal.recoverable, mem_append, not_mem_nil, or_false] at hr ⊢
      tauto
    split at h
    · split at h
      · exact hmem (Wal.syncData_sub _ io h)
      · exact hmem h
    · simp only [Wal.recoverable, append_nil] at h
      exact mem_append_left _ h
  · simp only [if_neg hjob] at h
    refine Wal.writePendingFrame_sub w io ?_
    split at h
    · rename_i w₁ e hw
      rw [hw]
      exact h
    · rename_i w₁ hw
      rw [hw]
      split at h
      · exact Wal.syncData_sub w₁ io h
      · exact h

/-- Everything in the memtable and in the log is below the counter. -/
structure Fresh (db : Db) : Prop where
  mem : ∀ op ∈ db.mem, op.sequence < db.nextSeq
  log : ∀ r ∈ db.wal.recoverable, ∀ op ∈ r, op.sequence < db.nextSeq

/-- A store whose sequences are in order. -/
structure Store where
  db : Db
  fresh : Fresh db

theorem unstage_eq (cs : List Chunk) (db : Db) :
    ∃ unapplied, cs.foldl unstage db = { db with unapplied := unapplied } := by
  induction cs generalizing db with
  | nil => exact ⟨db.unapplied, rfl⟩
  | cons c cs ih =>
    obtain ⟨u, hu⟩ := ih (unstage db c)
    refine ⟨u, hu.trans ?_⟩
    cases c <;> rfl

section
variable (hstart : groupStart db s.start.inputs s.start.io = (db₁, .ok g))
include hstart

/-- When the lock is dropped the log holds what it held and the records of every member
some chunk encoded; the memtable and the fence are as before. -/
theorem flying_store : (s.flying db₁ g).1.wal =
        db.wal.encodeWriteOpBatches (((s.flying db₁ g).2.flatMap Chunk.slots).map Slot.ops) ∧
      (s.flying db₁ g).1.mem = db.mem ∧ (s.flying db₁ g).1.durabilityFenced = db.durabilityFenced := by
  obtain ⟨hs, slots, henc⟩ := groupStart_ok hstart
  obtain ⟨_, _, _, _, _, _, ⟨slots₁, henc₁⟩, _⟩ := hs.absorbWaves db₁ s.absorbed
  have hall := henc.trans henc₁
  obtain ⟨hw, hm, hf⟩ := startChunks_wal (stageUnapplied (s.taken db₁ g).1 (s.taken db₁ g).2) s.chunks
  refine ⟨?_, hm.trans ?_, hf.trans ?_⟩
  · have happ : (s.taken db₁ g).2.appended = slots ++ slots₁ := by
      simpa [taken, GroupInFlight.empty] using hall.appended
    have hwal : (stageUnapplied (s.taken db₁ g).1 (s.taken db₁ g).2).wal =
        db.wal.encodeWriteOpBatches ((slots ++ slots₁).map Slot.ops) := hall.wal
    simp only [flying, hw, hwal]
    simp [Wal.encodeWriteOpBatches, Chunk.slots, happ]
  · exact (congrArg (fun d : Db => d.mem) hall.store :)
  · exact (congrArg (fun d : Db => d.durabilityFenced) hall.store :)

/-- What a round adds to the memtable and to the log was encoded by one of its chunks. -/
theorem lead_added :
    (∀ op ∈ (lead db s).1.mem, op ∈ db.mem ∨ ∃ t ∈ (s.flying db₁ g).2.flatMap slots, op ∈ t.ops) ∧
      (∀ r ∈ (lead db s).1.wal.recoverable, r ∈ db.wal.recoverable ∨
        ∃ t ∈ (s.flying db₁ g).2.flatMap slots, t.ops = r) ∧
      (lead db s).1.nextSeq = (s.flying db₁ g).1.nextSeq := by
  obtain ⟨hwal, hmem, _⟩ := flying_store hstart
  -- the frame is written or discarded, in either case nothing else gets into the log
  have hlog :
    ∀ r ∈ (writeFrame (s.flying db₁ g).1.wal ((s.flying db₁ g).2.any needsSync) s.io).1.recoverable,
      r ∈ db.wal.recoverable ∨ ∃ t ∈ (s.flying db₁ g).2.flatMap slots, t.ops = r := by
    intro r hr
    have hr := writeFrame_sub _ _ _ hr
    rw [hwal] at hr
    rcases mem_append.mp hr with hr | hr
    · exact .inl (mem_append_left _ hr)
    · rcases mem_append.mp hr with hr | hr
      · exact .inl (mem_append_right _ hr)
      · exact .inr (mem_map.mp hr)
  rw [lead_started hstart]
  split
  · rename_i wal e hwrite
    rw [hwrite] at hlog
    obtain ⟨u, hu⟩ := unstage_eq (s.flying db₁ g).2 { (s.flying db₁ g).1 with wal := wal }
    rw [hu]
    refine ⟨fun op hop => .inl (hmem ▸ hop), fun r hr => hlog r ?_, rfl⟩
    rcases mem_append.mp hr with hr | hr
    · exact mem_append_left _ (mem_append_left _ (by simpa [Wal.discardUncommitted] using hr))
    · exact mem_append_right _ hr
  · rename_i wal hwrite
    rw [hwrite] at hlog
    refine ⟨fun op hop => ?_, fun r hr => hlog r ?_, ?_⟩
    · rcases applyChunks_mem_sub _ _ hop with hold | hnew
      · exact .inl (hmem ▸ hold)
      · exact .inr hnew
    · simpa [Db.publishSequence, applyChunks_wal] using hr
    · simp [Db.publishSequence, (applyChunks_frame _ _).2]

end

variable {t : Slot}

theorem ChunksFor.slot_own (h : ChunksFor frame ps own cs) (ht : t ∈ cs.flatMap slots) :
    some t.ops ∈ own := by
  induction h with
  | nil => cases ht
  | @cons ps own c ps' own' cs hc _ ih =>
    rw [flatMap_cons] at ht
    rcases mem_append.mp ht with hmem | hlater
    · refine mem_append_left _ ?_
      cases hc with
      | done => cases hmem
      | @fly g _ _ hset _ => exact mem_of_getElem? (hset.slot t (mem_append_right _ hmem)).1
    · exact mem_append_right _ (ih hlater)

section
variable (hstart : groupStart db s.start.inputs s.start.io = (db₁, .ok g))
include hstart

/-- The preparations of a whole round, as stretches above the counter it starts from. -/
theorem round_stretches : Stretches db.nextSeq (s.own db) (s.flying db₁ g).1.nextSeq := by
  have hrest : Stretches db₁.nextSeq (absorbedOwn db₁ g s.absorbed ++
      chunksOwn (stageUnapplied (s.taken db₁ g).1 (s.taken db₁ g).2) s.chunks)
      (s.flying db₁ g).1.nextSeq :=
    (absorbWaves_stretches db₁ g s.absorbed).append
      (startChunks_stretches (stageUnapplied (s.taken db₁ g).1 (s.taken db₁ g).2) s.chunks)
  simp only [own, hstart]
  exact (groupStart_stretches hstart).append hrest

theorem slot_round (ht : t ∈ (s.flying db₁ g).2.flatMap slots) :
    ∃ i : Nat, (s.own db)[i]? = some (some t.ops) := by
  obtain ⟨held, late, heldOwn, _, ho, _, hcs⟩ := round_chunks hstart
  refine mem_iff_getElem?.mp ?_
  simp only [own, hstart, ho]
  rcases mem_append.mp (hcs.slot_own ht) with hmem | hmem
  · rcases mem_append.mp hmem with hmem | hmem
    · exact mem_append_left _ hmem
    · exact mem_append_right _ (mem_append_left _ (mem_append_left _ hmem))
  · exact mem_append_right _ (mem_append_right _ hmem)

end

/-- A round keeps the store's sequences in order. -/
theorem Fresh.lead (h : Fresh db) (s : Schedule) : Fresh (Group.lead db s).1 := by
  cases hstart : groupStart db s.start.inputs s.start.io with
  | mk db₁ r =>
    cases r with
    | error results =>
      have hle : db.nextSeq ≤ db₁.nextSeq := (groupStart_stretches hstart).le
      obtain ⟨_, _, next, hdb⟩ := groupStart_error hstart
      simp only [Group.lead, hstart]
      subst hdb
      exact ⟨fun op hop => Nat.lt_of_lt_of_le (h.mem op hop) hle,
        fun r hr op hop => Nat.lt_of_lt_of_le (h.log r hr op hop) hle⟩
    | ok g =>
      obtain ⟨hmem, hlog, hnext⟩ := lead_added hstart
      have hstr := round_stretches hstart
      have hslot : ∀ t ∈ (s.flying db₁ g).2.flatMap slots, ∀ op ∈ t.ops,
          op.sequence < (s.flying db₁ g).1.nextSeq := by
        intro t ht op hop
        obtain ⟨i, hi⟩ := slot_round hstart ht
        exact (hstr.bounds hi hop).2
      constructor
      · intro op hop
        rw [hnext]
        rcases hmem op hop with hold | ⟨t, ht, hop⟩
        · exact Nat.lt_of_lt_of_le (h.mem op hold) hstr.le
        · exact hslot t ht op hop
      · intro r hr op hop
        rw [hnext]
        rcases hlog r hr with hold | ⟨t, ht, rfl⟩
        · exact Nat.lt_of_lt_of_le (h.log r hold op hop) hstr.le
        · exact hslot t ht op hop

def Store.lead (st : Store) (s : Schedule) : Store := ⟨(Group.lead st.db s).1, st.fresh.lead s⟩

/-! ### Who is told what -/

theorem replies_get {rs : List (Result Nat)} {p : PendingWrite}
    {r : Result Nat} (hp : ps[i]? = some p) (hocc : p.occErr = none) (hr : rs[i]? = some r) :
    (replies ps rs)[i]? = some r := by
  induction ps generalizing rs i with
  | nil => cases hp
  | cons q ps ih =>
    cases rs with
    | nil => cases hr
    | cons r' rs =>
      cases i with
      | zero =>
        obtain rfl : q = p := by simpa using hp
        obtain rfl : r' = r := by simpa using hr
        simp [replies, hocc]
      | succ i =>
        have hrest : (replies ps rs)[i]? = some r := ih hp hr
        exact hrest

/-- In a round that fails cleanly and ends without a fence, a member some chunk encoded
is told `Ok`. -/
theorem encoded_told_ok (hstart : groupStart db s.start.inputs s.start.io = (db₁, .ok g))
    (hclean : s.failsCleanly db = true)
    (hfence : (lead db s).1.durabilityFenced = false) (ht : t ∈ (s.flying db₁ g).2.flatMap slots) :
    ∃ (j : Nat) (seq : Nat), (s.own db)[j]? = some (some t.ops) ∧ (lead db s).2[j]? = some (.ok seq) := by
  simp only [failsCleanly, hstart, Bool.and_eq_true] at hclean
  obtain ⟨ps, own, late, lateOwn, hm, ho, hcs⟩ := aligned_chunks hstart hclean.1
  rw [lead_started hstart] at hfence ⊢
  split at hfence
  · cases hfence
  rename_i wal hwrite
  have hopen : db₁.durabilityFenced = false := by
    obtain ⟨_, slots, henc⟩ := groupStart_ok hstart
    rw [← hfence]
    simp only [Db.publishSequence, (applyChunks_frame _ _).1, (flying_store hstart).2.2]
    exact (congrArg (fun d : Db => d.durabilityFenced) henc.store :)
  have hfailed : ∀ g', fly g' ∈ (s.flying db₁ g).2 → g'.failed = true → g'.appended = [] := by
    intro g' hg' hf
    rcases mem_cons.mp hg' with hfirst | hlater
    · obtain rfl : g' = (s.taken db₁ g).2 := by simpa using hfirst
      exact absorbWaves_clean db₁ g s.absorbed hopen (groupStart_failed hstart) hclean.2 hf
    · exact startChunks_clean _ s.chunks hlater hf
  obtain ⟨j, seq, hown, hres⟩ := hcs.encoded_ok { (s.flying db₁ g).1 with wal := wal } hfailed ht
  have hownAll : (s.own db)[j]? = some (some t.ops) := by
    rw [ho, getElem?_append_left (List.getElem?_eq_some_iff.mp hown).1]
    exact hown
  -- the member has operations, so validation let it through
  have hall := ownOf_round hstart
  obtain ⟨hj, hget⟩ := List.getElem?_eq_some_iff.mp hownAll
  have hjm : j < s.members.length := hall.length_eq ▸ hj
  have hne := (hall.get hjm hj t.ops hget).1
  have hocc : s.members[j].occErr = none := by
    cases hc : s.members[j].occErr with
    | none => rfl
    | some e => exact absurd (s.members[j].cleared (by simp [hc])) hne
  exact ⟨j, seq, hownAll, replies_get (getElem?_eq_getElem hjm) hocc hres⟩

/-- **A failed member leaves no trace.** In a round whose waves fail cleanly and that
ends without a fence, nothing of a member told `Err` is in the memtable or in the log:
all the round added was prepared for others, and none of what was prepared for the
member is there. -/
theorem err_reply_no_trace (st : Store) (s : Schedule) (hclean : s.failsCleanly st.db = true) (i : Nat)
    (e : CoreError) (herr : (lead st.db s).2[i]? = some (.error e))
    (hfence : (lead st.db s).1.durabilityFenced = false) :
    (∀ recs, (s.own st.db)[i]? = some (some recs) → ∀ op ∈ recs,
        op ∉ (lead st.db s).1.mem ∧ ∀ r ∈ (lead st.db s).1.wal.recoverable, op ∉ r) ∧
      (∀ op ∈ (lead st.db s).1.mem, op ∈ st.db.mem ∨
        ∃ (j : Nat) (recs : List WriteOp), j ≠ i ∧ (s.own st.db)[j]? = some (some recs) ∧ op ∈ recs) ∧
      ∀ r ∈ (lead st.db s).1.wal.recoverable, r ∈ st.db.wal.recoverable ∨
        ∃ j : Nat, j ≠ i ∧ (s.own st.db)[j]? = some (some r) := by
  obtain ⟨db, hfresh⟩ := st
  -- the whole statement follows from where the added records come from
  suffices hadded : (∀ op ∈ (lead db s).1.mem, op ∈ db.mem ∨
        ∃ (j : Nat) (recs : List WriteOp), j ≠ i ∧ (s.own db)[j]? = some (some recs) ∧ op ∈ recs) ∧
      (∀ r ∈ (lead db s).1.wal.recoverable, r ∈ db.wal.recoverable ∨ ∃ j : Nat, j ≠ i ∧
        (s.own db)[j]? = some (some r)) ∧
      ∃ hi, Stretches db.nextSeq (s.own db) hi by
    obtain ⟨hmem, hlog, hi, hstr⟩ := hadded
    refine ⟨fun recs hown op hop => ⟨fun hin => ?_, fun r hr hin => ?_⟩, hmem, hlog⟩
    · rcases hmem op hin with hold | ⟨j, recs', hne, hown', hop'⟩
      · exact absurd (hfresh.mem op hold) (Nat.not_lt.mpr (hstr.bounds hown hop).1)
      · exact hne (hstr.unique hown' hown hop' hop rfl)
    · rcases hlog r hr with hold | ⟨j, hne, hown'⟩
      · exact absurd (hfresh.log r hold op hin) (Nat.not_lt.mpr (hstr.bounds hown hop).1)
      · exact hne (hstr.unique hown' hown hin hop rfl)
  cases hstart : groupStart db s.start.inputs s.start.io with
  | mk db₁ r =>
    cases r with
    | error results =>
      obtain ⟨_, _, next, hdb⟩ := groupStart_error hstart
      simp only [lead, hstart, own, hdb]
      refine ⟨fun op hop => .inl hop, fun r hr => .inl hr, db₁.nextSeq, ?_⟩
      simpa using groupStart_stretches hstart
    | ok g =>
      obtain ⟨hmem, hlog, _⟩ := lead_added hstart
      have hother : ∀ t ∈ (s.flying db₁ g).2.flatMap slots,
          ∃ j : Nat, j ≠ i ∧ (s.own db)[j]? = some (some t.ops) := by
        intro t ht
        obtain ⟨j, seq, hown, hok⟩ := encoded_told_ok hstart hclean hfence ht
        refine ⟨j, ?_, hown⟩
        rintro rfl
        rw [herr] at hok
        cases hok
      refine ⟨fun op hop => ?_, fun r hr => ?_, _, round_stretches hstart⟩
      · rcases hmem op hop with hold | ⟨t, ht, hop⟩
        · exact .inl hold
        · obtain ⟨j, hne, hown⟩ := hother t ht
          exact .inr ⟨j, t.ops, hne, hown, hop⟩
      · rcases hlog r hr with hold | ⟨t, ht, rfl⟩
        · exact .inl hold
        · exact .inr (hother t ht)

def freshStore : Store := ⟨freshDb, by constructor <;> simp [freshDb, Wal.recoverable]⟩

/-- One member is encoded, and the value-log flush of the wave absorbed after it fails. -/
def failedWaveRound : Schedule := ⟨putWave 0, [failingWave 1], [], cleanFrame⟩

/-- The first member is told `Err` and the store is not fenced, but its record is in the
log file, where a reopen finds it. -/
theorem failed_wave_written : (lead freshStore.db failedWaveRound).2[0]? =
    some (.error groupAppendFailed) ∧
      (lead freshStore.db failedWaveRound).1.durabilityFenced = false ∧
      (failedWaveRound.own freshStore.db)[0]? = some (some [.put 1 [0] [0]]) ∧
      [.put 1 [0] [0]] ∈ (lead freshStore.db failedWaveRound).1.wal.file := by
  refine ⟨rfl, rfl, rfl, ?_⟩
  decide

/-- The same wave failing as a chunk of its own, where nobody is encoded before it. -/
theorem err_reply_no_trace_chunk :
    (∀ recs, ((⟨putWave 0, [], [failingWave 1],
        cleanFrame⟩ : Schedule).own freshStore.db)[1]? = some (some recs) → ∀ op ∈ recs, op ∉
        (lead freshStore.db ⟨putWave 0, [], [failingWave 1], cleanFrame⟩).1.mem ∧
          ∀ r ∈ (lead freshStore.db ⟨putWave 0, [], [failingWave 1], cleanFrame⟩).1.wal.recoverable,
          op ∉ r) ∧
      (∀ op ∈ (lead freshStore.db ⟨putWave 0, [], [failingWave 1], cleanFrame⟩).1.mem,
        op ∈ freshStore.db.mem ∨
        ∃ (j : Nat) (recs : List WriteOp), j ≠ 1 ∧
          ((⟨putWave 0, [], [failingWave 1], cleanFrame⟩ : Schedule).own freshStore.db)[j]? =
          some (some recs) ∧ op ∈ recs) ∧
      ∀ r ∈ (lead freshStore.db ⟨putWave 0, [], [failingWave 1], cleanFrame⟩).1.wal.recoverable,
        r ∈ freshStore.db.wal.recoverable ∨ ∃ j : Nat, j ≠ 1 ∧
            ((⟨putWave 0, [], [failingWave 1], cleanFrame⟩ : Schedule).own freshStore.db)[j]? =
            some (some r) :=
  err_reply_no_trace freshStore ⟨putWave 0, [], [failingWave 1],
    cleanFrame⟩ rfl 1 (vlogFlushError (.io "vlog")) rfl rfl

end PedraDb.Group
