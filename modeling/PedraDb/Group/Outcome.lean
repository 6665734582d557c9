import Mathlib.Data.List.Forall2
import PedraDb.Group.Tracking

/-! Each member of a round gets its own outcome, or does not.

Results and members are two lists paired by position. They stay aligned as long as
no wave is absorbed into a group that has already failed: such a wave is dropped
without places for its members, and the results of a later chunk then slide onto
them. `ok_reply_own` says what an `Ok` means in every aligned round;
`misaligned_round` is a round in which a member is told `Ok` although its batch was
never even prepared. -/
namespace PedraDb.Group
open List Schedule Wave Chunk
variable {p : PendingWrite} {db db₁ : Db} {w w' : Wal} {io : FrameIo}
variable {ps : List PendingWrite} {g : GroupInFlight} {i : Nat} {cs : List Chunk} {s : Schedule}
    {seq : Nat}
variable {spill : Nat → Value → Result Value}

theorem Wal.drainStaged_ok {write : Bool} (h : w.drainStaged write = (w', none)) :
    w'.written = w.written ∧ w'.staged = [] ∧ w'.frame = w.frame := by
  unfold Wal.drainStaged at h
  split at h
  · rename_i hs
    cases h
    exact ⟨rfl, hs, rfl⟩
  · split at h
    · cases h
      exact ⟨by simp [Wal.written], rfl, rfl⟩
    · cases h

theorem Wal.writePendingFrame_ok (h : w.writePendingFrame io = (w', none)) :
    w'.frame = [] ∧ ∀ r, r ∈ w'.written ↔ r ∈ w.recoverable := by
  unfold Wal.writePendingFrame at h
  split at h
  · rename_i hf
    cases h
    exact ⟨hf, fun r => by simp [Wal.recoverable, Wal.written, hf]⟩
  split at h
  · split at h
    · obtain ⟨hw, _, hf⟩ := Wal.drainStaged_ok h
      refine ⟨hf, fun r => ?_⟩
      rw [hw]
      simp [Wal.written, Wal.recoverable]
    · cases h
      exact ⟨rfl, fun r => by simp [Wal.written, Wal.recoverable]⟩
  · split at h
    · cases h
      refine ⟨rfl, fun r => ?_⟩
      simp only [Wal.written, Wal.recoverable, mem_append]
      tauto
    · cases h

theorem Wal.syncData_ok (h : w.syncData io = (w', none)) :
    (∀ r, r ∈ w'.written ↔ r ∈ w.recoverable) ∧ ∀ r ∈ w.recoverable, r ∈ w'.durable := by
  unfold Wal.syncData at h
  split at h
  · cases h
  rename_i w₁ hw₁
  obtain ⟨_, hmem⟩ := Wal.writePendingFrame_ok hw₁
  split at h
  · cases h
  rename_i w₂ hw₂
  obtain ⟨hw, hs, _⟩ := Wal.drainStaged_ok hw₂
  split at h
  · cases h
    refine ⟨fun r => ?_, fun r hr => ?_⟩
    · rw [← hmem, ← hw]
      rfl
    · have : r ∈ w₂.written := by rw [hw]; exact (hmem r).mpr hr
      simpa [Wal.durable, Wal.written, hs] using this
  · cases h

/-- A frame whose write succeeds is in the log with everything before it, and under the
barrier when one was needed. -/
theorem writeFrame_ok {needSync : Bool} (h : writeFrame w needSync io = (w', none)) :
    (∀ r, r ∈ w'.written ↔ r ∈ w.recoverable) ∧
    (needSync = true → ∀ r ∈ w.recoverable, r ∈ w'.durable) := by
  unfold writeFrame Wal.takePwriteJob at h
  split at h
  · rename_i buf w₁ hjob
    split at hjob
    swap
    · cases hjob
    simp only [Prod.mk.injEq, Option.some.injEq] at hjob
    obtain ⟨rfl, rfl⟩ := hjob
    have hmem : ∀ r, r ∈ ({ w with frame := [], file := w.file ++ w.frame } : Wal).recoverable ↔
        r ∈ w.recoverable := by
      intro r
      simp only [Wal.recoverable, mem_append, not_mem_nil]
      tauto
    split at h
    · cases needSync with
      | true =>
        have hsync : ({ w with frame := [], file := w.file ++ w.frame } : Wal).syncData io =
          (w', none) := h
        obtain ⟨hw, hd⟩ := Wal.syncData_ok hsync
        exact ⟨fun r => (hw r).trans (hmem r), fun _ r hr => hd r ((hmem r).mpr hr)⟩
      | false =>
        cases h
        refine ⟨fun r => ?_, fun hfalse => by cases hfalse⟩
        rw [← hmem r]
        simp [Wal.written, Wal.recoverable]
    · cases h
  · rename_i w₁ hjob
    have hw₁ : w₁ = w := by
      split at hjob
      · cases hjob
      · simpa using (Prod.mk.inj hjob).2.symm
    subst hw₁
    split at h
    · cases h
    rename_i w₂ hw₂
    obtain ⟨hf, hmem⟩ := Wal.writePendingFrame_ok hw₂
    have hrec : ∀ r, r ∈ w₂.recoverable ↔ r ∈ w₁.recoverable := by
      intro r
      rw [← hmem r]
      simp [Wal.recoverable, Wal.written, hf]
    cases needSync with
    | true =>
      obtain ⟨hw', hd⟩ := Wal.syncData_ok h
      exact ⟨fun r => (hw' r).trans (hrec r), fun _ r hr => hd r ((hrec r).mpr hr)⟩
    | false =>
      cases h
      exact ⟨hmem, fun hfalse => by cases hfalse⟩

/-! ### What each member was prepared as -/

/-- The records prepared for the members of a started wave. A refused wave prepares
nothing. -/
def startOwn (db : Db) (w : Wave) : List (Option (List WriteOp)) :=
  if w.io.refusal.isSome then w.members.map fun _ => none else preparedWave w.io.spill 0 db w.inputs

/-- The records prepared for the members of an absorbed wave. A failed group prepares
nothing. -/
def absorbOwn (db : Db) (g : GroupInFlight) (w : Wave) : List (Option (List WriteOp)) :=
  if g.failed then w.members.map fun _ => none else preparedWave w.io.spill 0 db w.inputs

def absorbedOwn : Db → GroupInFlight → List Wave → List (Option (List WriteOp))
  | _, _, [] => []
  | db, g, w :: rest =>
    absorbOwn db g w ++ absorbedOwn (groupAbsorb db g w.inputs w.io).1
      (groupAbsorb db g w.inputs w.io).2 rest

def chunksOwn : Db → List Wave → List (Option (List WriteOp))
  | _, [] => []
  | db, w :: rest => startOwn db w ++ chunksOwn (startChunk db w).1 rest

/-- The records prepared for each member of a round, in the order the leader holds the
members. -/
def Schedule.own (s : Schedule) (db : Db) : List (Option (List WriteOp)) :=
  startOwn db s.start ++
    match groupStart db s.start.inputs s.start.io with
    | (_, .error _) => []
    | (db, .ok g) =>
      absorbedOwn db g s.absorbed ++
        chunksOwn (stageUnapplied (absorbWaves db g s.absorbed).1
          (absorbWaves db g s.absorbed).2) s.chunks

/-- Some wave with members in it is absorbed while the group has failed. -/
def absorbsAfterFailure : Db → GroupInFlight → List Wave → Bool
  | _, _, [] => false
  | db, g, w :: rest =>
    (g.failed && !w.members.isEmpty) ||
      absorbsAfterFailure (groupAbsorb db g w.inputs w.io).1 (groupAbsorb db g w.inputs w.io).2 rest

/-- Members and results of the round stay paired: nobody is absorbed into a failed
group, or nobody comes after the group. -/
def Schedule.aligned (s : Schedule) (db : Db) : Bool :=
  match groupStart db s.start.inputs s.start.io with
  | (_, .error _) => true
  | (db, .ok g) => !absorbsAfterFailure db g s.absorbed || s.chunks.all fun w => w.members.isEmpty

/-- A failed group stays as it is through every later wave, and prepares nobody. -/
theorem absorbWaves_failed (db : Db) (g : GroupInFlight) (hf : g.failed = true) (ws : List Wave) :
    absorbWaves db g ws = (db, g) ∧ absorbedOwn db g ws = (ws.flatMap Wave.members).map (fun _ => none) ∧
      (absorbsAfterFailure db g ws = false → ws.flatMap Wave.members = []) := by
  induction ws with
  | nil => exact ⟨rfl, rfl, fun _ => rfl⟩
  | cons w ws ih =>
    simp only [absorbWaves, absorbedOwn, absorbOwn, absorbsAfterFailure, hf, if_true,
      groupAbsorb_failed db g w.inputs w.io hf]
    refine ⟨ih.1, by simp [ih.2.1], fun h => ?_⟩
    simp only [Bool.true_and, Bool.or_eq_false_iff, Bool.not_eq_false', List.isEmpty_iff] at h
    simp [h.1, ih.2.2 h.2]

/-- The members a group really holds after absorbing some waves: all of them, or those
up to the wave that failed it. -/
theorem Settled.absorbWaves {own : List (Option (List WriteOp))} (h : Settled g ps own) (db : Db)
    (ws : List Wave) :
    ∃ held late heldOwn, ws.flatMap Wave.members = held ++ late ∧
    absorbedOwn db g ws = heldOwn ++ late.map (fun _ => none) ∧
      Settled (Group.absorbWaves db g ws).2 (ps ++ held) (own ++ heldOwn) ∧
      (∃ slots, Encoded db g (Group.absorbWaves db g ws).1 (Group.absorbWaves db g ws).2 slots) ∧
      (absorbsAfterFailure db g ws = false → late = []) := by
  induction ws generalizing g ps own db with
  | nil =>
    exact ⟨[], [], [], rfl, rfl, by simpa [Group.absorbWaves] using h, ⟨[], .refl db g⟩, fun _ => rfl⟩
  | cons w ws ih =>
    cases hf : g.failed with
    | true =>
      obtain ⟨hfix, hown, hlate⟩ := absorbWaves_failed db g hf (w :: ws)
      rw [hfix, hown]
      exact ⟨[], (w :: ws).flatMap Wave.members, [], rfl, rfl, by simpa using h, ⟨[], .refl db g⟩, hlate⟩
    | false =>
      have hw := h.groupAbsorb hf db w.members w.io
      rw [show w.members.map PendingWrite.input = w.inputs from rfl] at hw
      obtain ⟨hs₁, slots₁, henc₁⟩ := hw
      obtain ⟨held, late, heldOwn, hm, ho, hs, ⟨slots, henc⟩, hlate⟩ :=
        ih hs₁ (Group.groupAbsorb db g w.inputs w.io).1
      simp only [Group.absorbWaves, absorbedOwn, absorbOwn, absorbsAfterFailure, flatMap_cons, hf,
        Bool.false_and, Bool.false_or]
      exact ⟨w.members ++ held, late, preparedWave w.io.spill 0 db w.inputs ++ heldOwn, by simp [hm],
        by simp [ho], by simpa using hs, ⟨_, henc₁.trans henc⟩, hlate⟩

/-! ### Chunks -/

/-- The chunk belongs to the members `ps`, prepared as `own`; what it encoded is in
`frame`. -/
inductive ChunkFor (frame : List (List WriteOp)) :
    List PendingWrite → List (Option (List WriteOp)) → Chunk → Prop where
  | fly {g ps own} : Settled g ps own → (∀ s ∈ g.appended, s.ops ∈ frame) → ChunkFor frame ps own (.fly g)
  | done {rs ps own} : rs.length = ps.length → own.length = ps.length → (∀ r ∈ rs, ∃ e, r = .error e) →
      ChunkFor frame ps own (.done rs)

/-- The chunks belong to the members `ps`, one stretch after another. -/
inductive ChunksFor (frame : List (List WriteOp)) :
    List PendingWrite → List (Option (List WriteOp)) → List Chunk → Prop where
  | nil : ChunksFor frame [] [] []
  | cons {ps own c ps' own' cs} : ChunkFor frame ps own c → ChunksFor frame ps' own' cs →
      ChunksFor frame (ps ++ ps') (own ++ own') (c :: cs)

variable {own : List (Option (List WriteOp))}

theorem ChunkFor.mono {frame frame' : List (List WriteOp)} {c : Chunk} (h : ChunkFor frame ps own c)
    (hsub : ∀ r ∈ frame, r ∈ frame') : ChunkFor frame' ps own c := by
  cases h with
  | fly hs hf => exact .fly hs fun s hmem => hsub _ (hf s hmem)
  | done hl ho he => exact .done hl ho he

variable (db)

theorem startOwn_length (w : Wave) : (startOwn db w).length = w.members.length := by
  unfold startOwn
  split
  · simp
  · simp [preparedWave_length, inputs]

theorem groupStart_refusal {db db' : Db} {inputs : List Input} {io : WaveIo}
    (h : groupStart db inputs io = (db', .ok g)) (hne : inputs ≠ []) : io.refusal = none := by
  rcases groupStart_cases db inputs io with
    ⟨hnil, _⟩ | ⟨e, _, _, heq⟩ | ⟨e, _, _, heq⟩ | ⟨_, hr, _⟩
  · exact absurd hnil hne
  · rw [heq] at h
    cases h
  · rw [heq] at h
    cases h
  · exact hr

theorem startOwn_ok {db db' : Db} {w : Wave} (h : groupStart db w.inputs w.io = (db', .ok g)) :
    startOwn db w = preparedWave w.io.spill 0 db w.inputs := by
  unfold startOwn
  by_cases hne : w.inputs = []
  · have : w.members = [] := by simpa [inputs] using hne
    simp [this, inputs, preparedWave]
  · simp [groupStart_refusal h hne]

theorem startChunk_for (w : Wave) : ChunkFor (startChunk db w).1.wal.frame w.members (startOwn db w)
    (startChunk db w).2 ∧
      ∀ r ∈ db.wal.frame, r ∈ (startChunk db w).1.wal.frame := by
  unfold startChunk
  split
  · rename_i db' rs hstart
    obtain ⟨hl, he, next, rfl⟩ := groupStart_error hstart
    exact ⟨.done (by simpa [inputs] using hl) (startOwn_length db w) he, fun r hr => hr⟩
  rename_i db' g hstart
  obtain ⟨hs, slots, henc⟩ := groupStart_ok hstart
  have hframe : (stageUnapplied db' g).wal.frame = db.wal.frame ++ slots.map Slot.ops := by
    simp [stageUnapplied, henc.wal, Wal.encodeWriteOpBatches]
  rw [startOwn_ok hstart]
  refine ⟨.fly hs fun s hmem => ?_, fun r hr => ?_⟩
  · rw [hframe]
    have : s ∈ slots := by simpa [henc.appended, GroupInFlight.empty] using hmem
    exact mem_append_right _ (mem_map_of_mem this)
  · rw [hframe]
    exact mem_append_left _ hr

theorem startChunks_for (ws : List Wave) :
    ChunksFor (startChunks db ws).1.wal.frame (ws.flatMap Wave.members) (chunksOwn db ws)
    (startChunks db ws).2 ∧
      ∀ r ∈ db.wal.frame, r ∈ (startChunks db ws).1.wal.frame := by
  induction ws generalizing db with
  | nil => exact ⟨.nil, fun r hr => hr⟩
  | cons w ws ih =>
    obtain ⟨hc, hsub⟩ := startChunk_for db w
    obtain ⟨hcs, hsub'⟩ := ih (startChunk db w).1
    exact ⟨.cons (hc.mono hsub') hcs, fun r hr => hsub' r (hsub r hr)⟩

/-! ### Results -/

theorem finishGroupResults_ok {rs : Results}
    (h : (finishGroupResults rs)[i]? = some (.ok seq)) : rs[i]? = some (some (.ok seq)) := by
  simp only [finishGroupResults, getElem?_map, Option.map_eq_some_iff] at h
  obtain ⟨o, ho, hr⟩ := h
  cases o with
  | none => cases hr
  | some r => rw [ho]; exact congrArg (some ∘ some) hr

@[simp] theorem finishGroupResults_length (rs : Results) :
    (finishGroupResults rs).length = rs.length := by
  simp [finishGroupResults]

/-- An applied group answers `Ok` to an empty batch, or to a member whose own records it
encoded and applied. -/
theorem Settled.groupApply_ok (h : Settled g ps own) (db : Db) (hp : ps[i]? = some p) (hops : p.ops ≠ [])
    (hok : (Group.groupApply db g).2[i]? = some (.ok seq)) :
    ∃ s ∈ g.appended, own[i]? = some (some s.ops) ∧ lastOf s.ops = seq ∧
      (p.doSync = true → g.needsSync = true) ∧ ∀ op ∈ s.ops, op ∈ (Group.groupApply db g).1.mem := by
  unfold Group.groupApply at hok ⊢
  split at hok
  · -- a failed group adds no `Ok`
    rcases answerMissing_get (finishGroupResults_ok hok) with hold | hnew
    · exact absurd (h.early i p seq hp hold) hops
    · cases hnew
  · rename_i hf
    rcases answerAll_get (finishGroupResults_ok hok) with hold | ⟨s, hs, rfl, hlast⟩
    · exact absurd (h.early i p seq hp hold) hops
    obtain ⟨hown, hl⟩ := h.slot s (mem_append_right _ hs)
    refine ⟨s, hs, hown, ?_, fun hsync => ?_, fun op hop => ?_⟩
    · rw [← hl]
      exact Except.ok.inj hlast
    · have := h.sync s (mem_append_right _ hs) p hp hsync
      have hne : g.appended ≠ [] := ne_nil_of_mem hs
      simp [GroupInFlight.needsSync, this, hf, hne]
    · rw [if_neg hf]
      exact mem_append_right _ (mem_flatMap.mpr ⟨s, hs, hop⟩)

theorem Settled.groupApply_length (h : Settled g ps own) (db : Db) :
    (Group.groupApply db g).2.length = ps.length := by
  unfold Group.groupApply
  split <;> simp [h.places]

theorem groupApply_mem (g : GroupInFlight) {op : WriteOp} (h : op ∈ db.mem) :
    op ∈ (groupApply db g).1.mem := by
  unfold groupApply
  split
  · exact h
  · exact mem_append_left _ h

theorem groupApply_wal (g : GroupInFlight) : (groupApply db g).1.wal = db.wal := by
  unfold groupApply
  split <;> rfl

theorem applyChunks_mem (cs : List Chunk) {op : WriteOp} (h : op ∈ db.mem) :
    op ∈ (applyChunks db cs).1.mem := by
  induction cs generalizing db with
  | nil => exact h
  | cons c cs ih =>
    cases c with
    | fly g => exact ih _ (groupApply_mem db g h)
    | done rs => exact ih db h

theorem applyChunks_wal (cs : List Chunk) : (applyChunks db cs).1.wal = db.wal := by
  induction cs generalizing db with
  | nil => rfl
  | cons c cs ih =>
    cases c with
    | fly g => exact (ih _).trans (groupApply_wal db g)
    | done rs => exact ih db

variable {db}
variable {frame : List (List WriteOp)}

/-- The answer to one member of a list of chunks: it is the member of the same place in
one of them. -/
theorem ChunksFor.applyChunks_ok (h : ChunksFor frame ps own cs) (db : Db) (hp : ps[i]? = some p)
    (hops : p.ops ≠ [])
    (hok : (applyChunks db cs).2[i]? = some (.ok seq)) :
    ∃ recs, own[i]? = some (some recs) ∧ recs ∈ frame ∧ lastOf recs = seq ∧
      (p.doSync = true → cs.any needsSync = true) ∧ ∀ op ∈ recs, op ∈ (applyChunks db cs).1.mem := by
  induction h generalizing db i with
  | nil => cases hp
  | @cons ps own c ps' own' cs hc _ ih =>
    cases hc with
    | @fly g _ _ hs hframe =>
      simp only [applyChunks] at hok ⊢
      have hlen := hs.groupApply_length db
      by_cases hi : i < ps.length
      · rw [getElem?_append_left hi] at hp
        rw [getElem?_append_left (by omega)] at hok
        obtain ⟨s, hmem, hown, hlast, hsync, happ⟩ := hs.groupApply_ok db hp hops hok
        refine ⟨s.ops, ?_, hframe s hmem, hlast, fun h => ?_, fun op hop => ?_⟩
        · rw [getElem?_append_left (by rw [hs.own_length]; exact hi)]
          exact hown
        · simp [needsSync, hsync h]
        · exact applyChunks_mem _ cs (happ op hop)
      · rw [getElem?_append_right (by omega)] at hp
        rw [getElem?_append_right (by omega), hlen] at hok
        obtain ⟨recs, hown, hmem, hlast, hsync, happ⟩ := ih (groupApply db g).1 hp hok
        refine ⟨recs, ?_, hmem, hlast, fun h => ?_, happ⟩
        · rw [getElem?_append_right (by rw [hs.own_length]; omega), hs.own_length]
          exact hown
        · simp [hsync h]
    | @done rs _ _ hl ho he =>
      simp only [applyChunks] at hok ⊢
      by_cases hi : i < ps.length
      · rw [getElem?_append_left (by omega)] at hok
        obtain ⟨e, herr⟩ := he _ (mem_of_getElem? hok)
        cases herr
      rw [getElem?_append_right (by omega)] at hp
      rw [getElem?_append_right (by omega), hl] at hok
      obtain ⟨recs, hown, hmem, hlast, hsync, happ⟩ := ih db hp hok
      refine ⟨recs, ?_, hmem, hlast, fun h => ?_, happ⟩
      · rw [getElem?_append_right (by omega), ho]
        exact hown
      · simp [hsync h]

theorem ChunksFor.applyChunks_length (h : ChunksFor frame ps own cs) (db : Db) :
    (applyChunks db cs).2.length = ps.length := by
  induction h generalizing db with
  | nil => rfl
  | cons hc _ ih =>
    cases hc with
    | fly hs _ => simp [applyChunks, hs.groupApply_length, ih]
    | done hl _ _ => simp [applyChunks, hl, ih]

theorem ChunkFor.failIo_length {c : Chunk} (h : ChunkFor frame ps own c) (e : CoreError) :
    (c.failIo e).length = ps.length := by
  cases h with
  | fly hs _ => simp [Chunk.failIo, failIo, hs.places]
  | done hl _ _ => exact hl

theorem ChunksFor.failIo_length (h : ChunksFor frame ps own cs) (e : CoreError) :
    (cs.flatMap (Chunk.failIo e)).length = ps.length := by
  induction h with
  | nil => rfl
  | cons hc _ ih => simp [hc.failIo_length e, ih]

/-- When the frame could not be written, `Ok` goes to empty batches only. -/
theorem ChunksFor.failIo_ok (h : ChunksFor frame ps own cs) (e : CoreError) (hp : ps[i]? = some p)
    (hok : (cs.flatMap (Chunk.failIo e))[i]? = some (.ok seq)) : p.ops = [] := by
  induction h generalizing i with
  | nil => cases hp
  | @cons ps own c ps' own' cs hc _ ih =>
    rw [flatMap_cons] at hok
    have hlen := hc.failIo_length e
    by_cases hi : i < ps.length
    · rw [getElem?_append_left hi] at hp
      rw [getElem?_append_left (by omega)] at hok
      cases hc with
      | fly hs _ =>
        rcases answerAll_get (finishGroupResults_ok hok) with hold | ⟨s, _, _, herr⟩
        · exact hs.early i p seq hp hold
        · cases herr
      | done hl _ he =>
        obtain ⟨e', herr⟩ := he _ (mem_of_getElem? hok)
        cases herr
    · rw [getElem?_append_right (by omega)] at hp
      rw [getElem?_append_right (by omega), hlen] at hok
      exact ih hp hok

/-! ### The round -/

variable {recs : List WriteOp}

theorem assign_records {j : Nat} {next next' : Nat} {ops : List BatchOp}
    (h : assign spill j next ops = .ok (recs, next')) :
    Records ops recs := by
  induction ops generalizing j next recs with
  | nil =>
    cases h
    rfl
  | cons op ops ih =>
    simp only [assign] at h
    split at h
    · cases h
    split at h
    · cases h
    rename_i seq _ _ r hr
    split at h
    · cases h
    · rename_i rest _ hrest
      cases h
      exact congrArg₂ List.cons (record_ok hr).1 (ih hrest)

theorem ownRecords_records {input : Input} (h : ownRecords db spill input = some recs) :
    input.1 ≠ [] ∧ Records input.1 recs := by
  unfold ownRecords at h
  split at h
  · cases h
  refine ⟨by assumption, ?_⟩
  cases hp : prepareWriteOps db spill input.1 with
  | error e => simp [hp, Except.toOption] at h
  | ok r =>
    obtain ⟨db', recs'⟩ := r
    simp only [hp, Except.toOption, Option.map_some, Option.some.injEq] at h
    obtain ⟨next, hassign, _⟩ := prepareWriteOps_db hp
    exact h ▸ assign_records hassign

/-- Each listed preparation is of its own member's batch, which is not empty. -/
abbrev OwnOf (ps : List PendingWrite) (own : List (Option (List WriteOp))) : Prop :=
  List.Forall₂ (fun p o => ∀ recs, o = some recs → p.ops ≠ [] ∧ Records p.ops recs) ps own

theorem ownOf_none (ps : List PendingWrite) : OwnOf ps (ps.map fun _ => none) := by
  induction ps with
  | nil => exact .nil
  | cons p ps ih => exact .cons (fun _ h => nomatch h) ih

theorem ownOf_prepared (spill : Nat → Nat → Value → Result Value) (off : Nat) (db : Db)
    (ps : List PendingWrite) : OwnOf ps (preparedWave spill off db (ps.map PendingWrite.input)) := by
  induction ps generalizing off db with
  | nil => exact .nil
  | cons p ps ih => exact .cons (fun _ h => ownRecords_records h) (ih _ _)

theorem ownOf_start (db : Db) (w : Wave) : OwnOf w.members (startOwn db w) := by
  unfold startOwn
  split
  · exact ownOf_none _
  · exact ownOf_prepared ..

theorem ownOf_absorbed (db : Db) (g : GroupInFlight) (ws : List Wave) :
    OwnOf (ws.flatMap Wave.members) (absorbedOwn db g ws) := by
  induction ws generalizing db g with
  | nil => exact .nil
  | cons w ws ih =>
    refine rel_append ?_ (ih _ _)
    unfold absorbOwn
    split
    · exact ownOf_none _
    · exact ownOf_prepared ..

theorem ownOf_chunks (db : Db) (ws : List Wave) : OwnOf (ws.flatMap Wave.members) (chunksOwn db ws) := by
  induction ws generalizing db with
  | nil => exact .nil
  | cons w ws ih => exact rel_append (ownOf_start db w) (ih _)

theorem replies_ok {rs : List (Result Nat)} (h : (replies ps rs)[i]? = some (.ok seq)) :
    rs[i]? = some (.ok seq) := by
  induction ps generalizing rs i with
  | nil => cases h
  | cons p ps ih =>
    cases rs with
    | nil =>
      cases i with
      | zero =>
        simp only [replies, getElem?_cons_zero, Option.some.injEq] at h
        split at h <;> cases h
      | succ i =>
        have : ([] : List (Result Nat))[i]? = some (.ok seq) := ih h
        cases this
    | cons r rs =>
      cases i with
      | zero =>
        simp only [replies, getElem?_cons_zero, Option.some.injEq] at h
        split at h
        · cases h
        · simpa using h
      | succ i =>
        simp only [replies, getElem?_cons_succ] at h
        have hrest : rs[i]? = some (.ok seq) := ih h
        exact hrest

/-- The store once every wave of the round is taken in, and the started group. -/
def Schedule.taken (s : Schedule) (db : Db) (g : GroupInFlight) : Db × GroupInFlight :=
  absorbWaves db g s.absorbed

/-- The store when the lock is dropped, and the chunks behind the frame. -/
def Schedule.flying (s : Schedule) (db : Db) (g : GroupInFlight) : Db × List Chunk :=
  let late := startChunks (stageUnapplied (s.taken db g).1 (s.taken db g).2) s.chunks
  (late.1, .fly (s.taken db g).2 :: late.2)

section
variable (hstart : groupStart db s.start.inputs s.start.io = (db₁, .ok g))
include hstart

/-- The chunks of a round belong to the members that were given places: those of the
start, the absorbed ones up to a wave that failed the group, and the late ones. -/
theorem round_chunks : ∃ held late heldOwn, s.absorbed.flatMap Wave.members = held ++ late ∧
      absorbedOwn db₁ g s.absorbed = heldOwn ++ late.map (fun _ => none) ∧
      (absorbsAfterFailure db₁ g s.absorbed = false → late = []) ∧
      ChunksFor (s.flying db₁ g).1.wal.frame (s.start.members ++ held ++ s.chunks.flatMap Wave.members)
        (startOwn db s.start ++ heldOwn ++
          chunksOwn (stageUnapplied (s.taken db₁ g).1 (s.taken db₁ g).2) s.chunks)
          (s.flying db₁ g).2 := by
  obtain ⟨hs, slots, henc⟩ := groupStart_ok hstart
  obtain ⟨held, late, heldOwn, hm, ho, hs₁, ⟨slots₁, henc₁⟩, hlate⟩ := hs.absorbWaves db₁ s.absorbed
  have hall := henc.trans henc₁
  obtain ⟨hcs, hsub⟩ := startChunks_for (stageUnapplied (s.taken db₁ g).1 (s.taken db₁ g).2) s.chunks
  refine ⟨held, late, heldOwn, hm, ho, hlate, .cons ?_ hcs⟩
  rw [startOwn_ok hstart]
  refine .fly hs₁ fun t ht => hsub _ ?_
  have : t ∈ slots ++ slots₁ := by simpa [taken, hall.appended, GroupInFlight.empty] using ht
  simp only [stageUnapplied, taken, hall.wal, Wal.encodeWriteOpBatches]
  exact mem_append_right _ (mem_map_of_mem this)

/-- In an aligned round the members with places are the members of the round, or all of
them but a stretch at the very end. -/
theorem aligned_chunks (hal : s.aligned db = true) :
    ∃ ps own late lateOwn, s.members = ps ++ late ∧ s.own db = own ++ lateOwn ∧
      ChunksFor (s.flying db₁ g).1.wal.frame ps own (s.flying db₁ g).2 := by
  obtain ⟨held, late, heldOwn, hm, ho, hlate, hcs⟩ := round_chunks hstart
  have hown : s.own db = startOwn db s.start ++ (heldOwn ++ late.map (fun _ => none) ++
      chunksOwn (stageUnapplied (s.taken db₁ g).1 (s.taken db₁ g).2) s.chunks) := by
    simp [Schedule.own, hstart, ho, Schedule.taken]
  by_cases hl : late = []
  · refine ⟨_, _, [], [], ?_, ?_, hcs⟩
    · simp [Schedule.members, hm, hl]
    · simp [hown, hl]
  -- someone was absorbed into a failed group, so nobody comes after it
  have hempty : s.chunks.flatMap Wave.members = [] := by
    have : s.chunks.all (fun w => w.members.isEmpty) = true := by
      simp only [Schedule.aligned, hstart, Bool.or_eq_true, Bool.not_eq_true'] at hal
      rcases hal with hno | hall
      · exact absurd (hlate hno) hl
      · exact hall
    simpa using this
  have hnil : chunksOwn (stageUnapplied (s.taken db₁ g).1 (s.taken db₁ g).2) s.chunks = [] := by
    have := (ownOf_chunks (stageUnapplied (s.taken db₁ g).1 (s.taken db₁ g).2) s.chunks).length_eq
    rw [hempty] at this
    exact length_eq_zero_iff.mp this.symm
  refine ⟨_, _, late, late.map (fun _ => none), ?_, ?_, hcs⟩
  · simp [Schedule.members, hm, hempty]
  · simp [hown, hnil]

theorem lead_started
    :
    lead db s =
      match writeFrame (s.flying db₁ g).1.wal ((s.flying db₁ g).2.any needsSync) s.io with
      | (wal, some e) =>
        ({ (s.flying db₁ g).2.foldl unstage { (s.flying db₁ g).1 with wal := wal } with
            durabilityFenced := true
            wal := ((s.flying db₁ g).2.foldl unstage
              { (s.flying db₁ g).1 with wal := wal }).wal.discardUncommitted },
          replies s.members ((s.flying db₁ g).2.flatMap (Chunk.failIo e)))
      | (wal, none) =>
        ((applyChunks { (s.flying db₁ g).1 with wal := wal } (s.flying db₁ g).2).1.publishSequence
            (((s.flying db₁ g).2.map maxAppendedSeq).foldl max 0),
          replies s.members (applyChunks { (s.flying db₁ g).1 with wal := wal }
            (s.flying db₁ g).2).2) := by
  simp only [lead, hstart, finishGroupOffLock, flying, taken]
  generalize writeFrame _ _ _ = written
  obtain ⟨wal, e⟩ := written
  cases e <;> rfl

theorem ownOf_round : OwnOf s.members (s.own db) := by
  simp only [Schedule.members, Schedule.own, hstart, append_assoc]
  exact rel_append (ownOf_start db s.start)
    (rel_append (ownOf_absorbed db₁ g s.absorbed) (ownOf_chunks _ s.chunks))

end

/-- **In an aligned round an `Ok` is the member's own.** Its batch was prepared, the
records are in the log, under the barrier if it asked for one, applied to the memtable,
and the sequence it is told is the last of them. -/
theorem ok_reply_own (db : Db) (s : Schedule) (hal : s.aligned db = true) (i : Nat) (p : PendingWrite)
    (seq : Nat) (hp : s.members[i]? = some p) (hops : p.ops ≠ [])
    (hok : (lead db s).2[i]? = some (.ok seq)) :
    ∃ recs, (s.own db)[i]? = some (some recs) ∧ Records p.ops recs ∧
      recs ∈ (lead db s).1.wal.written ∧ (p.doSync = true → recs ∈ (lead db s).1.wal.durable) ∧
      (∀ op ∈ recs, op ∈ (lead db s).1.mem) ∧ lastOf recs = seq := by
  cases hstart : groupStart db s.start.inputs s.start.io with
  | mk db₁ r =>
    cases r with
    | error results =>
      obtain ⟨_, he, _⟩ := groupStart_error hstart
      simp only [lead, hstart] at hok
      obtain ⟨e, herr⟩ := he _ (mem_of_getElem? (replies_ok hok))
      cases herr
    | ok g =>
      obtain ⟨ps, own, late, lateOwn, hm, ho, hcs⟩ := aligned_chunks hstart hal
      -- an answered place is the place of a member with a chunk
      have hplace : ∀ {rs : List (Result Nat)}, rs.length = ps.length → rs[i]? = some (.ok seq) →
          ps[i]? = some p := by
        intro rs hlen hrs
        have hi : i < ps.length := by
          rw [← hlen]
          exact (List.getElem?_eq_some_iff.mp hrs).1
        rw [hm, getElem?_append_left hi] at hp
        exact hp
      rw [lead_started hstart] at hok ⊢
      split at hok
      · rename_i wal e hwrite
        have hres := replies_ok hok
        exact absurd (hcs.failIo_ok e (hplace (hcs.failIo_length e) hres) hres) hops
      rename_i wal hwrite
      have hres := replies_ok hok
      obtain ⟨recs, hown, hframe, hlast, hsync, hmem⟩ :=
        hcs.applyChunks_ok _ (hplace (hcs.applyChunks_length _) hres) hops hres
      obtain ⟨hwritten, hdurable⟩ := writeFrame_ok hwrite
      have hrec : recs ∈ (s.flying db₁ g).1.wal.recoverable := mem_append_right _ hframe
      have hownAll : (s.own db)[i]? = some (some recs) := by
        rw [ho, getElem?_append_left (List.getElem?_eq_some_iff.mp hown).1]
        exact hown
      simp only [Db.publishSequence, applyChunks_wal]
      refine ⟨recs, hownAll, ?_, (hwritten recs).mpr hrec, fun h => hdurable (hsync h) recs hrec,
        hmem, hlast⟩
      obtain ⟨hi, hget⟩ := List.getElem?_eq_some_iff.mp hownAll
      obtain ⟨hi', hget'⟩ := List.getElem?_eq_some_iff.mp hp
      exact hget' ▸ ((ownOf_round hstart).get hi' hi recs hget).2

/-! ### Concrete rounds -/

def freshDb : Db := ⟨1, 0, false, [], [], ⟨true, true, [], [], [], 0⟩⟩

def syncPut (k : UInt8) : PendingWrite := ⟨[.put [k] [k]], true, none, by simp⟩

def putWave (k : UInt8) : Wave := ⟨[syncPut k], .clean⟩

def failingWave (k : UInt8) : Wave := ⟨[syncPut k], { WaveIo.clean with vlog := some (.io "vlog") }⟩

def cleanFrame : FrameIo := ⟨true, false, true⟩

/-- Two members are absorbed, one after the other, and the flush of the first fails;
a third comes as a chunk of its own. -/
def misalignedRound : Schedule := ⟨putWave 0, [failingWave 1, putWave 2], [putWave 3], cleanFrame⟩

/-- The member that puts key 2 is told `Ok` with the sequence of the member that puts
key 3, although it was never prepared: key 2 is neither in the memtable nor in the log. -/
theorem misaligned_round : (misalignedRound.members[2]?).map PendingWrite.ops = some [.put [2] [2]] ∧
      (lead freshDb misalignedRound).2[2]? = some (.ok 3) ∧
      (misalignedRound.own freshDb)[2]? = some none ∧
      (∀ op ∈ (lead freshDb misalignedRound).1.mem, op.key ≠ [2]) ∧
      ∀ r ∈ (lead freshDb misalignedRound).1.wal.recoverable, ∀ op ∈ r, op.key ≠ [2] := by
  refine ⟨rfl, rfl, rfl, ?_, ?_⟩ <;> decide

theorem ok_reply_own_absorbed :
    ∃ recs, ((⟨putWave 0, [putWave 1], [failingWave 2], cleanFrame⟩ : Schedule).own freshDb)[1]? =
        some (some recs) ∧ Records (syncPut 1).ops recs ∧
      recs ∈ (lead freshDb ⟨putWave 0, [putWave 1], [failingWave 2], cleanFrame⟩).1.wal.written ∧
      ((syncPut 1).doSync = true →
        recs ∈ (lead freshDb ⟨putWave 0, [putWave 1], [failingWave 2], cleanFrame⟩).1.wal.durable) ∧
      (∀ op ∈ recs, op ∈ (lead freshDb ⟨putWave 0, [putWave 1], [failingWave 2],
        cleanFrame⟩).1.mem) ∧ lastOf recs = 2 :=
  ok_reply_own freshDb ⟨putWave 0, [putWave 1], [failingWave 2], cleanFrame⟩ rfl 1 (syncPut 1) 2 rfl
    (by decide) rfl

end PedraDb.Group
