import PedraDb.Layers.Switches
import PedraDb.Library.Runs

/-! One-op commits against memtable switches.

An asynchronous one-op commit takes its sequence first, writes the log without any lock
and then inserts into whichever memtable is live. A switch in between puts a newer version
of the key behind the live memtable, and a read takes the first table that knows the key:
it answers with the older one (`older_commit_read`). Where no commit lands in front of a
newer version, and the flush pipeline keeps the order, the largest sequence wins
(`newest_commit_read`). -/
namespace PedraDb.Layers.Writers
open List
variable {op : WriteOp} {phase : Phase}

/-- Where a commit is. -/
inductive Phase where
  | minted
  | logged
  /-- In the memtable and not yet published; the read lock is held. -/
  | inserted
  | returned
  | failed
  deriving DecidableEq

structure Writer where
  op : WriteOp
  phase : Phase
  deriving DecidableEq

structure State where
  tables : Tables
  nextSeq : Nat
  published : Nat
  writers : List Writer
  deriving DecidableEq

open State

def State.opened : State := ⟨.empty, 1, 0, []⟩

/-- The operation of a one-op commit: a put, or a deletion. -/
def operation (seq : Nat) (key : Key) : Option Value → WriteOp
  | some value => .put seq key (escapeInlineValue value)
  | none => .delete seq key

inductive Event where
  | mint (key : Key) (value : Option Value)
  | log (i : Nat) (ok : Bool)
  | insert (i : Nat)
  | publish (i : Nat)
  | switch (sw : Switch)
  deriving DecidableEq

section
variable (s : State)

/-- Some commit holds the read lock, which keeps switches out. -/
def State.readLocked : Bool := s.writers.any fun w => w.phase == .inserted

def State.mint (key : Key) (value : Option Value) : Option State :=
  if seqExhausted s.nextSeq maxAssignableSequenceNumber then none
  else some { s with
    nextSeq := s.nextSeq + 1
    writers := s.writers ++ [⟨operation s.nextSeq key value, .minted⟩] }

/-- Write the log. A failure is returned and goes no further. -/
def State.log (i : Nat) (ok : Bool) : Option State :=
  match s.writers[i]? with
  | some ⟨op, .minted⟩ => some { s with writers := s.writers.set i ⟨op, if ok then .logged else .failed⟩ }
  | _ => none

def State.insert (i : Nat) : Option State :=
  match s.writers[i]? with
  | some ⟨op, .logged⟩ =>
    some { s with
      tables := { s.tables with mem := s.tables.mem ++ [op] }
      writers := s.writers.set i ⟨op, .inserted⟩ }
  | _ => none

def State.publish (i : Nat) : Option State :=
  match s.writers[i]? with
  | some ⟨op, .inserted⟩ =>
    some { s with published := max s.published op.sequence, writers := s.writers.set i ⟨op, .returned⟩ }
  | _ => none

def State.switch (sw : Switch) : Option State :=
  if s.readLocked then none else (s.tables.switch sw).map fun t => { s with tables := t }

def step : Event → Option State
  | .mint key value => s.mint key value
  | .log i ok => s.log i ok
  | .insert i => s.insert i
  | .publish i => s.publish i
  | .switch sw => s.switch sw

/-- The writes that have returned. -/
def State.committed : List WriteOp := (s.writers.filter fun w => w.phase == .returned).map Writer.op

/-- No write is under way. -/
def State.quiet : Bool := s.writers.all fun w => w.phase == .returned || w.phase == .failed

/-- A commit lands behind no newer version of its key outside the live memtable, unless
that has a newer one still; and the pipeline keeps the order. -/
def newestFirst : Event → Bool
  | .insert i =>
    match s.writers[i]? with
    | some ⟨op, _⟩ =>
      s.tables.tables.tail.flatten.all fun w =>
        w.key != op.key || decide (w.sequence ≤ op.sequence) ||
          s.tables.mem.any fun v => v.key == op.key && decide (w.sequence ≤ v.sequence)
    | none => true
  | .switch sw => s.tables.inOrder sw
  | _ => true

end

/-! ### Invariant -/

def Writer.landed (w : Writer) : Bool := w.phase == .inserted || w.phase == .returned

def State.landed (s : State) : List WriteOp := (s.writers.filter Writer.landed).map Writer.op

/-- The store holds what has landed, in order, and sequences are given once. -/
structure Inv (s : State) : Prop where
  shaped : s.tables.Shaped
  ordered : ∀ key snap, (∀ v ∈ s.landed, v.sequence ≤ snap) → Ordered key snap s.tables
  stored : ∀ v, v ∈ s.tables.stored ↔ v ∈ s.landed
  copies : ∀ v ∈ s.tables.copies, v ∈ s.landed
  minted : ∀ w ∈ s.writers, w.op.sequence < s.nextSeq ∧ w.op.kind ≠ .rangeDeletion
  distinct : ∀ (i k : Nat) (v w : Writer), s.writers[i]? = some v →
    s.writers[k]? = some w → v.op.sequence = w.op.sequence → i = k
  published : ∀ w ∈ s.writers, w.phase = .returned → w.op.sequence ≤ s.published

theorem mem_landed {s : State} {v : WriteOp} :
    v ∈ s.landed ↔ ∃ w ∈ s.writers, w.landed = true ∧ w.op = v := by
  simp [landed, and_assoc]

section Steps
variable {s s' : State} {i : Nat}

theorem landed_set (hi : s.writers[i]? = some ⟨op, phase⟩) (phase' : Phase) {t : Tables} {n p : Nat}
    (v : WriteOp) :
    v ∈ landed ⟨t, n, p, s.writers.set i ⟨op, phase'⟩⟩ ↔
      (∃ k w, k ≠ i ∧ s.writers[k]? = some w ∧ w.landed = true ∧ w.op = v) ∨
      Writer.landed ⟨op, phase'⟩ = true ∧ op = v := by
  rw [mem_landed]
  constructor
  · rintro ⟨w, hw, hl, rfl⟩
    obtain ⟨k, hk⟩ := mem_iff_getElem?.mp hw
    rcases Runs.getElem?_set_cases hk with ⟨_, rfl⟩ | ⟨hne, hk⟩
    · exact .inr ⟨hl, rfl⟩
    · exact .inl ⟨k, w, hne, hk, hl, rfl⟩
  · have hlt : i < s.writers.length := (List.getElem?_eq_some_iff.mp hi).1
    rintro (⟨k, w, hne, hk, hl, rfl⟩ | ⟨hl, rfl⟩)
    · exact ⟨w, mem_of_getElem? (i := k) (by rw [getElem?_set_ne (Ne.symm hne), hk]), hl, rfl⟩
    · exact ⟨_, mem_of_getElem? (i := i) (by rw [getElem?_set_self hlt]), hl, rfl⟩

theorem landed_split (hi : s.writers[i]? = some ⟨op, phase⟩) (v : WriteOp) : v ∈ s.landed ↔
      (∃ k w, k ≠ i ∧ s.writers[k]? = some w ∧ w.landed = true ∧ w.op = v) ∨
      Writer.landed ⟨op, phase⟩ = true ∧ op = v := by
  have h := landed_set hi phase (t := s.tables) (n := s.nextSeq) (p := s.published) v
  rwa [Runs.set_self hi] at h

section
variable (h : Inv s)
include h

theorem Inv.set (hi : s.writers[i]? = some ⟨op, phase⟩) (phase' : Phase) :
    (∀ w ∈ s.writers.set i ⟨op, phase'⟩, w.op.sequence < s.nextSeq ∧ w.op.kind ≠ .rangeDeletion) ∧
      ∀ (a b : Nat) (v w : Writer), (s.writers.set i ⟨op, phase'⟩)[a]? = some v →
        (s.writers.set i ⟨op, phase'⟩)[b]? = some w → v.op.sequence = w.op.sequence → a = b := by
  refine ⟨Runs.forall_set h.minted (h.minted ⟨op, phase⟩ (mem_of_getElem? hi)), ?_⟩
  have hback : ∀ (a : Nat) (v : Writer), (s.writers.set i ⟨op, phase'⟩)[a]? = some v →
      ∃ v', s.writers[a]? = some v' ∧ v'.op = v.op := by
    intro a v ha
    rcases Runs.getElem?_set_cases ha with ⟨rfl, rfl⟩ | ⟨_, ha⟩
    · exact ⟨_, hi, rfl⟩
    · exact ⟨v, ha, rfl⟩
  intro a b v w ha hb heq
  obtain ⟨v', hv', hvop⟩ := hback a v ha
  obtain ⟨w', hw', hwop⟩ := hback b w hb
  exact h.distinct a b v' w' hv' hw' (by rw [hvop, hwop, heq])

theorem Inv.mint {key : Key} {value : Option Value} (hs : s.mint key value = some s') : Inv s' := by
  rw [State.mint] at hs
  split at hs <;> cases hs
  have hlanded : landed { s with
      nextSeq := s.nextSeq + 1
      writers := s.writers ++ [⟨operation s.nextSeq key value, .minted⟩] } = s.landed := by
    simp [landed, Writer.landed]
  have hop : (operation s.nextSeq key value).sequence = s.nextSeq ∧
      (operation s.nextSeq key value).kind ≠ .rangeDeletion := by
    cases value <;> simp [operation, WriteOp.put, WriteOp.delete]
  refine ⟨h.shaped, ?_, ?_, ?_, ?_, ?_, ?_⟩
  · rw [hlanded]
    exact h.ordered
  · rw [hlanded]
    exact h.stored
  · rw [hlanded]
    exact h.copies
  · refine forall_mem_append.mpr ⟨fun w hw => ?_, forall_mem_singleton.mpr ⟨by simp [hop.1], hop.2⟩⟩
    exact ⟨Nat.lt_succ_of_lt (h.minted w hw).1, (h.minted w hw).2⟩
  · intro a b v w ha hb heq
    rcases Runs.getElem?_concat_cases ha with ha | ⟨rfl, rfl⟩ <;>
      rcases Runs.getElem?_concat_cases hb with hb | ⟨rfl, rfl⟩
    · exact h.distinct a b v w ha hb heq
    · have := (h.minted v (mem_of_getElem? ha)).1
      rw [heq, hop.1] at this
      omega
    · have := (h.minted w (mem_of_getElem? hb)).1
      rw [← heq, hop.1] at this
      omega
    · rfl
  · exact forall_mem_append.mpr ⟨h.published, forall_mem_singleton.mpr nofun⟩

/-- A writer moves on and the store stays as it is. -/
theorem Inv.pass {phase' : Phase} {published : Nat}
    (hi : s.writers[i]? = some ⟨op, phase⟩) (hsame : Writer.landed ⟨op, phase'⟩ =
      Writer.landed ⟨op, phase⟩)
    (hpublished : ∀ w ∈ s.writers.set i ⟨op, phase'⟩, w.phase = .returned → w.op.sequence ≤ published) :
    Inv ⟨s.tables, s.nextSeq, published, s.writers.set i ⟨op, phase'⟩⟩ := by
  obtain ⟨hminted, hdistinct⟩ := h.set hi phase'
  have hlanded : ∀ v, v ∈ landed ⟨s.tables, s.nextSeq, published, s.writers.set i ⟨op, phase'⟩⟩ ↔
      v ∈ s.landed := by
    intro v
    rw [landed_set hi, landed_split hi, hsame]
  refine ⟨h.shaped, fun key snap hsnap => h.ordered key snap fun v hv =>
    hsnap v ((hlanded v).mpr hv), ?_, ?_, hminted,
    hdistinct, hpublished⟩
  · exact fun v => (h.stored v).trans (hlanded v).symm
  · exact fun v hv => (hlanded v).mpr (h.copies v hv)

theorem Inv.log {ok : Bool} (hs : s.log i ok = some s') : Inv s' := by
  rw [State.log] at hs
  split at hs
  next op hi =>
    cases hs
    refine h.pass hi ?_ (Runs.forall_set h.published ?_)
    · cases ok <;> rfl
    · cases ok <;> simp
  · cases hs

theorem Inv.publish (hs : s.publish i = some s') : Inv s' := by
  rw [State.publish] at hs
  split at hs
  next op hi =>
    cases hs
    refine h.pass hi rfl (Runs.forall_set (fun w hw hphase => ?_) fun _ => Nat.le_max_right _ _)
    exact Nat.le_trans (h.published w hw hphase) (Nat.le_max_left _ _)
  · cases hs

theorem Inv.insert (hok : newestFirst s (.insert i) = true) (hs : s.insert i = some s') : Inv s' := by
  rw [State.insert] at hs
  split at hs
  next op hi =>
    cases hs
    obtain ⟨hminted, hdistinct⟩ := h.set hi .inserted
    have hpoint := (h.minted _ (mem_of_getElem? hi)).2
    have hlanded : ∀ v, v ∈ landed ⟨{ s.tables with mem := s.tables.mem ++ [op] }, s.nextSeq, s.published,
        s.writers.set i ⟨op, .inserted⟩⟩ ↔ v ∈ s.landed ∨ v = op := by
      intro v
      rw [landed_set hi, landed_split hi, eq_comm (a := v)]
      simp [Writer.landed]
    have htail : ({ s.tables with mem := s.tables.mem ++ [op] } : Tables).tables =
        (s.tables.mem ++ [op]) :: s.tables.tables.tail := rfl
    have hhead : s.tables.tables = s.tables.mem :: s.tables.tables.tail := rfl
    refine ⟨⟨h.shaped.imm, h.shaped.parked, h.shaped.idle, h.shaped.writing,
      h.shaped.materializing⟩, ?_, ?_, ?_,
      hminted, hdistinct, Runs.forall_set h.published (by simp)⟩
    · intro key snap hsnap
      have hold : ∀ v ∈ s.landed, v.sequence ≤ snap := fun v hv => hsnap v ((hlanded v).mpr (.inl hv))
      have hord := h.ordered key snap hold
      refine hord.of_memory rfl rfl rfl rfl ?_
      have htables := hord.tables
      rw [hhead, pairwise_cons] at htables
      rw [htail, pairwise_cons]
      refine ⟨fun u hu => ?_, htables.2⟩
      rintro w hw hsees ⟨v, hv, hvsees⟩
      by_cases hmem : ∃ v ∈ s.tables.mem, Sees key snap v
      · obtain ⟨x, hx, hrest⟩ := htables.1 u hu w hw hsees hmem
        exact ⟨x, mem_append_left _ hx, hrest⟩
      -- the operation is the only one over the key in the memtable
      obtain rfl : v = op := by
        rcases mem_append.mp hv with hv | hv
        · exact absurd ⟨v, hv, hvsees⟩ hmem
        · exact mem_singleton.mp hv
      have hwstored : w ∈ s.tables.stored := by
        rw [Tables.stored, hhead]
        exact mem_flatten.mpr ⟨u, mem_cons_of_mem _ hu, hw⟩
      obtain ⟨ww, hww, _, rfl⟩ := mem_landed.mp ((h.stored w).mp hwstored)
      have hkey : ww.op.key = v.key :=
        ((covers_point (h.minted ww hww).2).mp hsees.1).trans ((covers_point hpoint).mp hvsees.1).symm
      simp only [newestFirst, hi, all_eq_true] at hok
      have hw' := hok ww.op (mem_flatten.mpr ⟨u, hu, hw⟩)
      simp only [hkey, bne_self_eq_false, Bool.false_or, Bool.or_eq_true, decide_eq_true_eq, any_eq_true,
        Bool.and_eq_true, beq_iff_eq] at hw'
      rcases hw' with hle | ⟨x, hx, hxkey, hle⟩
      · exact ⟨v, by simp, hvsees, hle⟩
      have hxstored : x ∈ s.tables.stored := by
        rw [Tables.stored, hhead]
        exact mem_flatten.mpr ⟨_, mem_cons_self, hx⟩
      obtain ⟨xx, hxx, _, rfl⟩ := mem_landed.mp ((h.stored x).mp hxstored)
      refine absurd ⟨xx.op, hx, ?_, hold _ ((h.stored _).mp hxstored)⟩ hmem
      rw [covers_point (h.minted xx hxx).2, hxkey]
      exact (covers_point hpoint).mp hvsees.1
    · intro v
      rw [hlanded, ← h.stored, Tables.stored, Tables.stored, htail, hhead]
      simp only [flatten_cons, tail_cons, mem_append, mem_singleton]
      tauto
    · exact fun v hv => (hlanded v).mpr (.inl (h.copies v hv))
  · cases hs

theorem Inv.switch {sw : Switch} (hok : newestFirst s (.switch sw) = true)
    (hs : s.switch sw = some s') : Inv s' := by
  rw [State.switch] at hs
  split at hs
  · cases hs
  obtain ⟨t, ht, rfl⟩ := Option.map_eq_some_iff.mp hs
  have hstored := switch_stored h.shaped hok ht
  refine ⟨Shaped.switch h.shaped hok ht, fun key snap hsnap =>
    (h.ordered key snap hsnap).switch h.shaped hok ht, ?_, ?_,
    h.minted, h.distinct, h.published⟩
  · exact fun v => (hstored v).trans (h.stored v)
  · intro v hv
    rcases switch_copies h.shaped hok ht v hv with hv | hv
    · exact h.copies v hv
    · exact (h.stored v).mp ((hstored v).mp hv)

end

end Steps

theorem Inv.step {s s' : State} {e : Event} (h : Inv s) (hok : newestFirst s e = true)
    (hs : step s e = some s') : Inv s' := by
  cases e with
  | mint key value => exact h.mint hs
  | log i ok => exact h.log hs
  | insert i => exact h.insert hok hs
  | publish i => exact h.publish hs
  | switch sw => exact h.switch hok hs

theorem Inv.opened : Inv .opened where
  shaped := .empty
  ordered key snap _ := .empty key snap
  stored v := by simp [State.opened, State.landed, Tables.empty_stored]
  copies := by simp [State.opened, Tables.empty_copies]
  minted := by simp [State.opened]
  distinct := by simp [State.opened]
  published := by simp [State.opened]

/-- **The largest sequence wins.** In every run whose commits land and whose tables move in
order, once all commits have returned a read of a key gives the operation with the largest
sequence among those committed. -/
theorem newest_commit_read (es : List Event) (s : State)
    (hok : Runs.Along step newestFirst .opened es = true)
    (hrun : Runs.exec step .opened es = some s) (hquiet : s.quiet = true) (op : WriteOp)
    (hop : op ∈ s.committed)
    (hmax : ∀ o ∈ s.committed, o.key = op.key → o.sequence ≤ op.sequence) :
    s.tables.lookup op.key s.published = shown op := by
  have hinv : Inv s :=
    Runs.exec_invariant (I := Inv) (fun _ _ _ h hok hs => h.step hok hs) .opened hok hrun
  have hcommitted : ∀ v, v ∈ s.landed ↔ v ∈ s.committed := by
    intro v
    simp only [landed, committed, mem_map, mem_filter]
    refine exists_congr fun w => and_congr_left fun _ => and_congr_right fun hw => ?_
    have := all_eq_true.mp hquiet w hw
    cases hp : w.phase <;> simp_all [Writer.landed]
  have hwriter : ∀ v ∈ s.committed, ∃ w ∈ s.writers, w.op = v ∧ w.op.sequence ≤ s.published ∧
      w.op.kind ≠ .rangeDeletion := by
    intro v hv
    simp only [committed, mem_map, mem_filter, beq_iff_eq] at hv
    obtain ⟨w, ⟨hw, hphase⟩, rfl⟩ := hv
    exact ⟨w, hw, rfl, hinv.published w hw hphase, (hinv.minted w hw).2⟩
  have hsnap : ∀ v ∈ s.landed, v.sequence ≤ s.published := by
    intro v hv
    obtain ⟨w, _, rfl, hle, _⟩ := hwriter v ((hcommitted v).mp hv)
    exact hle
  have hall : ∀ v ∈ s.tables.stored ++ s.tables.caches.flatten, v ∈ s.landed :=
    forall_mem_append.mpr ⟨fun v => (hinv.stored v).mp, fun v hv => hinv.copies v (mem_append_left _ hv)⟩
  have hkind : ∀ v ∈ s.landed, v.kind ≠ .rangeDeletion := by
    intro v hv
    obtain ⟨w, _, rfl, _, hk⟩ := hwriter v ((hcommitted v).mp hv)
    exact hk
  have hdistinct : Distinct s.landed := by
    intro v hv w hw heq
    obtain ⟨v', hv', _, rfl⟩ := mem_landed.mp hv
    obtain ⟨w', hw', _, rfl⟩ := mem_landed.mp hw
    obtain ⟨i, hi⟩ := mem_iff_getElem?.mp hv'
    obtain ⟨k, hk⟩ := mem_iff_getElem?.mp hw'
    obtain rfl := hinv.distinct i k v' w' hi hk heq
    rw [hi] at hk
    cases hk
    rfl
  have hans := (hinv.ordered op.key s.published hsnap).lookup
    (fun v hv w hw => hdistinct v (hall v hv) w (hall w hw)) fun v hv hk =>
    absurd hk (hkind v (hall v hv))
  have hopstored : op ∈ (s.tables.memLayers ++ s.tables.caches ++ s.tables.files.flatten).flatten := by
    have := (hinv.stored op).mpr ((hcommitted op).mpr hop)
    simp only [Tables.stored, Tables.tables, flatten_append, mem_append] at this ⊢
    tauto
  have hopsees : Sees op.key s.published op :=
    ⟨(covers_point (hkind op ((hcommitted op).mpr hop))).mpr rfl, hsnap op ((hcommitted op).mpr hop)⟩
  rcases hans with ⟨c, hc, hlook⟩ | ⟨hnone, _⟩
  · have hcland : c ∈ s.landed := by
      refine hall c ?_
      have := hc.mem
      simp only [Tables.stored, Tables.tables, flatten_append, mem_append] at this ⊢
      tauto
    have hckey : c.key = op.key := (covers_point (hkind c hcland)).mp hc.seen.1
    have heq : c = op := hdistinct c hcland op ((hcommitted op).mpr hop)
      (Nat.le_antisymm (hmax c ((hcommitted c).mp hcland) hckey) (hc.top op hopstored hopsees))
    rw [hlook, heq]
  · exact absurd hopsees (hnone op hopstored)

/-- The first commit takes its sequence, the second commits, the memtable is switched, and
the first lands in the new one. -/
def overtakenRun : List Event :=
  [.mint [7] (some [5]), .mint [7] (some [6]), .log 1 true, .insert 1, .publish 1, .switch .stage,
    .log 0 true, .insert 0, .publish 0]

/-- Both commits have returned and the read gives the older one. -/
theorem older_commit_read : (Runs.exec step .opened overtakenRun).map
        (fun s => (s.quiet, s.published, s.committed.map WriteOp.sequence,
          s.tables.lookup [7] s.published)) =
      some (true, 2, [1, 2], .found [5]) := by
  decide

/-- Two commits of a key with a flush between them. -/
def flushedRun : List Event :=
  [.mint [7] (some [5]), .log 0 true, .insert 0, .publish 0, .switch .stage, .switch .prepare,
    .switch (.install 100),
    .mint [7] none, .log 1 true, .insert 1, .publish 1, .switch .parkActive]

theorem newest_commit_read_flushed : (Runs.exec step .opened flushedRun).isSome = true ∧
      ∀ s, Runs.exec step .opened flushedRun = some s → s.tables.lookup [7] s.published =
      shown (.delete 2 [7]) := by
  refine ⟨by decide, fun s hs => ?_⟩
  have hrun := hs
  obtain rfl : (Runs.exec step .opened flushedRun).get (by decide) = s := by simp [hs]
  exact newest_commit_read flushedRun _ (by decide) hrun (by decide) (.delete 2 [7]) (by decide)
    (by decide)

end PedraDb.Layers.Writers
