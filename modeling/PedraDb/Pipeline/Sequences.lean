import PedraDb.Pipeline.Cases
import PedraDb.Library.Counter

/-! Sequences are not used twice.

Every sequence handed out is held by one place: an acknowledged commit, the batch being
prepared, a group, an ingest or a bypass commit. Two races break this. A batch that is
refused stores the counter's old value back, over whatever a bypass took meanwhile
(`rollback_reuses`); and an allocation past the last assignable sequence gives it back
later, which lowers the counter below what was handed out in between. `allocatesAlone`
says that a run has neither, and then no sequence is acknowledged twice
(`sequences_unique`). -/
namespace PedraDb.Pipeline
open List State GroupInFlight
variable {db : Db} {a b : Bypass} {p : Prep} {i : Nat} {l : List Bypass}

def sequences (ops : List WriteOp) : List Nat := ops.map WriteOp.sequence

@[simp] theorem sequences_nil : sequences [] = [] := rfl

@[simp] theorem sequences_append (a b : List WriteOp) : sequences (a ++ b) = sequences a ++ sequences b :=
  List.map_append

/-! ### Who holds a sequence -/

def Sequenced.held (m : Sequenced) : List Nat := sequences m.records

def GroupInFlight.held (g : GroupInFlight) : List Nat := (g.pending ++ g.appended).flatMap Sequenced.held

def Lock.held : Lock → List Nat
  | .solo c => sequences c.bulk
  | .ingest records => sequences records
  | .free | .lead | .owing _ => []

def Bypass.held : Bypass → List Nat
  | .minted op | .written op | .inserted op => [op.sequence]
  | .begun _ | .overdrawn | .finished => []

def State.prepHeld (s : State) : List Nat := (s.prep.map Prep.taken).getD []

def State.flightHeld (s : State) : List Nat := (s.flight.map fun f => f.chunks.flatMap held).getD []

/-- In how many places a sequence is held. -/
def State.holds (s : State) (n : Nat) : Nat :=
  (s.committed.flatMap fun c => sequences c.records).count n + s.prepHeld.count n +
    s.lead.group.held.count n +
    (s.lead.chunks.flatMap held).count n + s.flightHeld.count n + s.lock.held.count n +
    (s.bypasses.flatMap Bypass.held).count n

theorem State.holds_eq (s : State) (n : Nat) : s.holds n =
    (s.committed.flatMap fun c => sequences c.records).count n +
    ((s.prep.map Prep.taken).getD []).count n + s.lead.group.held.count n +
      (s.lead.chunks.flatMap held).count n +
      ((s.flight.map fun f => f.chunks.flatMap held).getD []).count n + s.lock.held.count n +
      (s.bypasses.flatMap Bypass.held).count n := rfl

/-- How much of the counter a holder has yet to give back. -/
def Lock.owed : Lock → Nat
  | .owing n => n
  | _ => 0

def Bypass.owed : Bypass → Nat
  | .overdrawn => 1
  | _ => 0

def Prep.owed (p : Prep) : Nat := if p.overdrawn then 1 else 0

/-- What was taken past the end and not yet given back. -/
def State.owed (s : State) : Nat :=
  (s.prep.map Prep.owed).getD 0 + s.lock.owed + (s.bypasses.map Bypass.owed).sum

/-- Nobody still has to give a sequence back, or this allocation is past the end too. -/
def State.mayTake (s : State) (n : Nat) : Bool :=
  s.owed == 0 || seqExhausted (s.db.nextSeq + n - 1) maxAssignableSequenceNumber

/-- The batch took everything from where it found the counter to where the counter is. -/
def Prep.aloneSince (p : Prep) (next : Nat) : Bool :=
  next == p.checkpoint + p.taken.length && p.taken.all fun n => decide (p.checkpoint ≤ n)

/-- The condition on a step: an allocation finds no give-back outstanding, and a batch
that is refused was alone since it found the counter. -/
def allocatesAlone (s : State) : Event → Bool
  | .alloc _ | .mint _ | .tailPut => s.mayTake 1
  | .batch latched ops => s.mayTake (splitBatch s.db.physicalCfs latched ops).1.length
  | .ingest entries => s.mayTake entries.length
  | .rollback =>
    match s.prep, s.lock with
    | some p, .solo c => c.path == .one || p.aloneSince s.db.nextSeq
    | some p, _ => p.aloneSince s.db.nextSeq
    | none, _ => true
  | _ => true

/-- Each sequence is held once, below the counter less what is owed. -/
structure Unique (s : State) : Prop where
  once : ∀ n, s.holds n ≤ 1
  below : ∀ n, 0 < s.holds n → n + s.owed < s.db.nextSeq
  room : s.owed < s.db.nextSeq

/-- Who lets go of sequences leaves the others theirs. -/
theorem Unique.keep {s s' : State} (h : Unique s) (hcount : ∀ n, s'.holds n ≤ s.holds n)
    (hlevel : s.db.nextSeq + s'.owed ≤ s'.db.nextSeq + s.owed) : Unique s' := by
  have hroom := h.room
  refine ⟨fun n => le_trans (hcount n) (h.once n), fun n hn => ?_, by omega⟩
  have := h.below n (lt_of_lt_of_le hn (hcount n))
  omega

/-- New sequences are above all that are held. -/
theorem Unique.take {s s' : State} (h : Unique s) (k : Nat) (howed : s.owed = 0) (howed' : s'.owed = 0)
    (hnext : s'.db.nextSeq = s.db.nextSeq + k)
    (hcount : ∀ n, s'.holds n ≤ s.holds n + if s.db.nextSeq ≤ n ∧ n < s.db.nextSeq + k then 1 else 0) :
    Unique s' := by
  have hroom := h.room
  refine ⟨fun n => ?_, fun n hn => ?_, by omega⟩
  · have hc := hcount n
    have hb := h.below n
    have ho := h.once n
    split at hc <;> omega
  · have hc := hcount n
    have hb := h.below n
    split at hc <;> omega

/-! ### Batches in order -/

/-- The records are the batch's operations in order, with increasing sequences. -/
structure InOrder (ops : List BatchOp) (records : List WriteOp) : Prop where
  matched : Records ops records
  increasing : (sequences records).Pairwise (· < ·)

/-- What a batch has been given so far. -/
structure PrepOk (p : Prep) : Prop where
  pos : 0 < p.checkpoint
  settled : p.failed = true → p.overdrawn = false
  increasing : p.taken.Pairwise (· < ·)
  even : p.failed = false → sequences p.records = p.taken
  done : p.failed = false → p.records.map (fun r => (r.kind, r.key)) ++ p.todo.map target =
    p.txn.ops.map target

theorem PrepOk.inOrder (h : PrepOk p) (hc : p.complete) : InOrder p.txn.ops p.records := by
  obtain ⟨htodo, _, hfail⟩ := hc
  refine ⟨?_, ?_⟩
  · have := h.done hfail
    rw [htodo] at this
    simpa [Records] using this
  · rw [h.even hfail]
    exact h.increasing

theorem PrepOk.begin {t : Txn} {next : Nat} (hpos : 0 < next) :
    PrepOk ⟨t, next, [], [], t.ops, false, false⟩ :=
  ⟨hpos, by simp, by simp, fun _ => rfl, fun _ => by simp⟩

theorem PrepOk.take (h : PrepOk p) {next : Nat} (hlt : ∀ n ∈ p.taken, n < next) :
    (p.taken ++ [next]).Pairwise (· < ·) := by
  refine pairwise_append.mpr ⟨h.increasing, by simp, fun a ha b hb => ?_⟩
  obtain rfl : b = next := by simpa using hb
  exact hlt a ha

/-- The paths whose records are the batch's operations in the batch's order. -/
def Path.keepsOrder : Path → Bool
  | .group | .lone | .one => true
  | .batch | .bypass | .ingest => false

/-- Batches are sequenced in order wherever they are. -/
structure Ordered (s : State) : Prop where
  prep : ∀ p, s.prep = some p → PrepOk p
  solo : ∀ c p, s.lock = .solo c → s.prep = some p → p.txn = c.txn
  bulk : ∀ c, s.lock = .solo c → c.path.keepsOrder = true → c.bulk = []
  group : ∀ m ∈ s.lead.group.pending ++ s.lead.group.appended, InOrder m.txn.ops m.records
  chunks : ∀ g ∈ s.lead.chunks, ∀ m ∈ g.appended, InOrder m.txn.ops m.records
  flight : ∀ f, s.flight = some f → ∀ g ∈ f.chunks, ∀ m ∈ g.appended, InOrder m.txn.ops m.records
  committed : ∀ c ∈ s.committed, c.path.keepsOrder = true → InOrder c.txn.ops c.records

/-! ### Counting the places -/

section Counting
variable (n : Nat)

theorem count_set (h : l[i]? = some a) :
    ((l.set i b).flatMap Bypass.held).count n + a.held.count n =
    (l.flatMap Bypass.held).count n + b.held.count n := by
  simp only [count_flatMap]
  exact Runs.sum_set (f := fun b => b.held.count n) h

theorem owed_set (h : l[i]? = some a) :
    ((l.set i b).map Bypass.owed).sum + a.owed = (l.map Bypass.owed).sum + b.owed :=
  Runs.sum_set h

theorem GroupInFlight.live_subset (g : GroupInFlight) : g.live ⊆ g.appended := by
  unfold live
  split
  · exact nil_subset _
  · exact Subset.refl _

theorem live_held (chunks : List GroupInFlight) : ((chunks.flatMap live).flatMap Sequenced.held).count n ≤
      (chunks.flatMap held).count n := by
  refine List.Sublist.count_le n ?_
  induction chunks with
  | nil => exact .refl _
  | cons g chunks ih =>
    simp only [flatMap_cons, flatMap_append]
    refine List.Sublist.append ?_ ih
    unfold live held
    split
    · exact nil_sublist _
    · rw [flatMap_append]
      exact sublist_append_right _ _

theorem count_numberPuts (seq : Nat) (puts : List (Key × Value)) :
    (sequences (numberPuts seq puts)).count n = if seq ≤ n ∧ n < seq + puts.length then 1 else 0 := by
  induction puts generalizing seq with
  | nil =>
    simp only [numberPuts, sequences_nil, count_nil, length_nil]
    split <;> omega
  | cons p puts ih =>
    have hrest := ih (seq + 1)
    simp only [numberPuts, sequences, map_cons, count_cons, WriteOp.put] at hrest ⊢
    simp only [hrest, length_cons, beq_iff_eq]
    split <;> split <;> split <;> omega

theorem count_numberDown (lo : Nat) (entries : List (ValueType × Key × Value)) :
    (sequences (numberDown (lo + entries.length - 1) entries)).count n =
      if lo ≤ n ∧ n < lo + entries.length then 1 else 0 := by
  induction entries with
  | nil =>
    simp only [numberDown, sequences_nil, count_nil, length_nil]
    split <;> omega
  | cons e entries ih =>
    have hstart : lo + (e :: entries).length - 1 - 1 = lo + entries.length - 1 := by
      simp only [length_cons]
      omega
    simp only [numberDown, sequences, map_cons, count_cons, hstart] at ih ⊢
    simp only [ih, length_cons, beq_iff_eq]
    split <;> split <;> split <;> omega

end Counting

/-! ### Steps -/

variable {s s' : State}

/-- The counter goes back over sequences that no one else took. -/
theorem Unique.rollback (h : Unique s) (hprep : PrepOk p)
    (halone : p.aloneSince s.db.nextSeq = true) (hnext : s'.db.nextSeq = p.checkpoint)
    (howed : s'.owed = s.owed)
    (hcount : ∀ n, s'.holds n + p.taken.count n ≤ s.holds n) : Unique s' := by
  simp only [Prep.aloneSince, Bool.and_eq_true, beq_iff_eq, all_eq_true, decide_eq_true_eq] at halone
  obtain ⟨hfull, hfloor⟩ := halone
  have hheld : ∀ m ∈ p.taken, m + s.owed < s.db.nextSeq := by
    intro m hm
    have := count_pos_iff.mpr hm
    have := hcount m
    exact h.below m (by omega)
  rcases eq_nil_or_concat p.taken with hnil | ⟨_, _, hcons⟩
  · -- nothing was taken: the counter has not moved
    have hlen : p.taken.length = 0 := by rw [hnil]; rfl
    refine h.keep (fun n => ?_) ?_
    · have := hcount n
      omega
    · rw [hnext, howed]
      omega
  · obtain ⟨m, hm, hlast⟩ := Counter.exists_ge_of_increasing hprep.increasing hfloor (by simp [hcons])
    have hzero : s.owed = 0 := by
      have := hheld m hm
      omega
    have hpos := hprep.pos
    refine ⟨fun n => ?_, fun n hn => ?_, by omega⟩
    · have := hcount n
      have := h.once n
      omega
    · have hc := hcount n
      have ho := h.once n
      have hb := h.below n (by omega)
      by_contra hge
      have hmem : n ∈ p.taken := Counter.mem_of_fills hprep.increasing hfloor
        (fun k hk => by have := hheld k hk; omega) (by omega) (by omega)
      have := count_pos_iff.mpr hmem
      omega

theorem Unique.move (h : Unique s) {failed : Bool} {committed : List Commit}
    (hi : s.bypasses[i]? = some a)
    (hheld : ∀ n, (committed.flatMap fun c => sequences c.records).count n + b.held.count n ≤
      (s.committed.flatMap fun c => sequences c.records).count n + a.held.count n)
    (hlevel : s.db.nextSeq + { s with bypasses := s.bypasses.set i b }.owed ≤ db.nextSeq + s.owed) :
    Unique { s with
      db := db, bypasses := s.bypasses.set i b, failed := failed, committed := committed } := by
  refine h.keep (fun n => ?_) hlevel
  have := hheld n
  have := count_set n (b := b) hi
  simp only [holds_eq]
  omega

/-- A bypassing write gives back what it owes. -/
theorem level_move (hi : s.bypasses[i]? = some a) (hprep : s'.prep = s.prep) (hlock : s'.lock = s.lock)
    (hby : s'.bypasses = s.bypasses.set i b) (hnext : s.db.nextSeq + b.owed ≤ s'.db.nextSeq + a.owed) :
    s.db.nextSeq + s'.owed ≤ s'.db.nextSeq + s.owed := by
  have howed := owed_set (b := b) hi
  simp only [owed, hby, hprep, hlock]
  omega

variable {e : Event}

def Event.restores : Event → Bool
  | .rollback => true
  | _ => false

/-- The counter goes down by no more than what is given back, unless it is restored. -/
theorem Step.level (hs : Step s e s') (hroom : s.owed < s.db.nextSeq) (hno : e.restores = false) :
    s.db.nextSeq + s'.owed ≤ s'.db.nextSeq + s.owed := by
  cases hs with
  | rollback | refuseOne => cases hno
  | allocOver _ p hp hover | allocFail _ p _ _ hp hover | alloc _ p _ _ _ hp hover =>
    simp [owed, bump, hp, Prep.owed, hover] <;> omega
  | giveBack p hp hover =>
    simp [owed, hp, Prep.owed, hover] at hroom ⊢
    omega
  | giveBackBlock n hn =>
    simp only [owed, hn, Lock.owed] at hroom ⊢
    omega
  | mint _ _ _ hi => exact level_move hi rfl rfl rfl (Nat.le_succ _)
  | mintOver _ _ hi | bypassWrite _ _ hi | bypassFail _ _ hi | insert _ _ hi | publish _ _ hi =>
    exact level_move hi rfl rfl rfl le_rfl
  | bypassGiveBack _ hi => exact level_move hi rfl rfl rfl (by simp only [Bypass.owed]; omega)
  | batchOver _ _ _ _ _ hu | batchBulk _ _ _ _ _ hu | ingestOver _ _ hu | ingest _ _ hu =>
    simp only [owed, bump, unlocked_free hu, Lock.owed]
    omega
  | tailOver c hc | tailPut c _ hc =>
    simp only [owed, bump, acknowledge, Db.apply, Db.publishSequence, hc, Lock.owed]
    omega
  | begin => simp [owed, Bypass.owed]
  | _ =>
    simp [owed, acknowledge, acknowledgeAll, unstageUnapplied, Db.apply, Db.publishSequence,
      Lock.owed, Prep.owed]

theorem mayTake_owed {n : Nat} (h : s.mayTake n = true)
    (hle : s.db.nextSeq + n - 1 ≤ maxAssignableSequenceNumber) :
    s.owed = 0 := by
  simp only [mayTake, seqExhausted, Bool.or_eq_true, beq_iff_eq, decide_eq_true_eq] at h
  omega

section
attribute [local simp] holds_eq Lock.held Lead.empty empty held Sequenced.held

/-- **A step that allocates alone keeps every sequence with one holder.** -/
theorem Unique.step (h : Unique s) (hord : Ordered s) (hok : allocatesAlone s e = true)
    (hs : Step s e s') : Unique s' := by
  have hlevel := hs.level h.room
  cases hs with
  | takeLead hu _ =>
    refine h.keep (fun n => ?_) (hlevel rfl)
    simp [unlocked_free hu]
    omega
  | wave | prepareSkip | snapshot | getAt => exact h.keep (fun n => le_rfl) (hlevel rfl)
  | prepare t rest _ hp => exact h.keep (fun n => by simp [hp]) (hlevel rfl)
  | allocOver spill p hp hover => exact h.keep (fun n => by simp [bump, hp]) (hlevel rfl)
  | allocFail spill p op rest hp hover _ _ hle | alloc spill p op rest r hp hover _ _ hle hr =>
    have hzero := mayTake_owed hok hle
    refine h.take 1 hzero ?_ rfl (fun n => ?_)
    · simpa [owed, bump, hp, Prep.owed, hover] using hzero
    · simp only [holds_eq, bump, hp, Option.map_some, Option.getD_some, count_append,
        count_singleton, beq_iff_eq]
      split <;> split <;> omega
  | giveBack p hp hover => exact h.keep (fun n => by simp [hp]) (hlevel rfl)
  | rollback p lock hp hf hlock =>
    have hprep := hord.prep p hp
    have hover := hprep.settled hf
    have halone : p.aloneSince s.db.nextSeq = true := by
      rcases hlock with ⟨_, hno⟩ | ⟨_, c, hc, hone⟩
      · simpa [allocatesAlone, hp] using hok
      · simpa [allocatesAlone, hp, hc, hone] using hok
    refine h.rollback hprep halone rfl ?_ (fun n => ?_)
    · rcases hlock with ⟨rfl, _⟩ | ⟨rfl, c, hc, _⟩
      · simp [owed, hp, Prep.owed, hover]
      · simp [owed, hp, hc, Prep.owed, hover, Lock.owed]
    rcases hlock with ⟨rfl, _⟩ | ⟨rfl, c, hc, _⟩
    · simp [hp]
      omega
    · simp [hp, hc]
      omega
  | refuseOne p c hp hf hc =>
    refine h.keep (fun n => ?_) ?_
    · simp [hp, hc]
      omega
    · simp [owed, hc, Lock.owed]
  | ready p hp hlock hcomp =>
    refine h.keep (fun n => ?_) (hlevel rfl)
    simp [hp, (hord.prep p hp).even hcomp.2.2]
    omega
  | encodeFail => exact h.keep (fun n => by simp) (hlevel rfl)
  | encode | stage =>
    refine h.keep (fun n => ?_) (hlevel rfl)
    simp
    omega
  | encodeSkip | loneRefused | ingestRefused => exact h
  | fly hlock =>
    refine h.keep (fun n => ?_) (hlevel rfl)
    simp [hlock]
    omega
  | write ok chunks hf => exact h.keep (fun n => by simp [hf]) (hlevel rfl)
  | finish chunks hf =>
    refine h.keep (fun n => ?_) (hlevel rfl)
    have hlive := live_held n chunks
    have hmap : ((chunks.flatMap live).map fun m =>
          (⟨.group, m.txn, m.records, s.failed⟩ : Commit)).flatMap (fun c => sequences c.records) =
        (chunks.flatMap live).flatMap Sequenced.held := by
      simp only [flatMap_map]
      rfl
    simp only [holds_eq, acknowledgeAll, hf, Option.map_some, Option.map_none, Option.getD_some,
      Option.getD_none, count_nil,
      flatMap_append, count_append, hmap]
    omega
  | fence chunks hf => exact h.keep (fun n => by simp [hf]) (hlevel rfl)
  | lone _ hu | one _ hu | batch _ _ hu | batchOver _ _ _ _ _ hu | ingestOver _ _ hu =>
    exact h.keep (fun n => by simp [bump, unlocked_free hu]) (hlevel rfl)
  | batchBulk latched ops puts mem runs hu hlen _ hle =>
    have hfree := unlocked_free hu
    have hzero := mayTake_owed hok (hlen ▸ hle)
    refine h.take puts.length hzero ?_ rfl (fun n => ?_)
    · simpa [owed, bump, hfree, Lock.owed] using hzero
    · simp only [holds_eq, bump, hfree, Lock.held, count_numberPuts, count_nil]
      omega
  | giveBackBlock n hn => exact h.keep (fun m => by simp [hn]) (hlevel rfl)
  | emptyDone c hc | soloFenced c hc | installSst c hc | installManifest c hc =>
    exact h.keep (fun n => by simp [hc]) (hlevel rfl)
  | bulkDone c hc | install c hc =>
    refine h.keep (fun n => ?_) (hlevel rfl)
    simp [acknowledge, hc]
    omega
  | tailOver c hc => exact h.keep (fun n => by simp [bump, hc]) (hlevel rfl)
  | tailPut c op hc _ hle hseq =>
    have hzero := mayTake_owed hok hle
    refine h.take 1 hzero ?_ rfl (fun n => ?_)
    · simpa [owed, bump, acknowledge, Db.apply, Db.publishSequence, hc, Lock.owed] using hzero
    · simp [acknowledge, bump, hc, sequences, hseq, count_singleton]
      split <;> split <;> omega
  | soloPrepare c hc hp => exact h.keep (fun n => by simp [hp]) (hlevel rfl)
  | soloOk c p hc hp hcomp =>
    refine h.keep (fun n => ?_) (hlevel rfl)
    simp [acknowledge, hc, hp, (hord.prep p hp).even hcomp.2.2]
    omega
  | soloVlog c p hc hp | soloIo c p hc hp =>
    refine h.keep (fun n => ?_) (hlevel rfl)
    simp [hc, hp]
    omega
  | ingest entries db hu _ _ hle =>
    have hfree := unlocked_free hu
    have hzero := mayTake_owed hok hle
    refine h.take entries.length hzero ?_ rfl (fun n => ?_)
    · simpa [owed, hfree, Lock.owed] using hzero
    · simp only [holds_eq, hfree, Lock.held, count_numberDown, count_nil]
      omega
  | begin op => exact h.keep (fun n => by simp [Bypass.held]) (hlevel rfl)
  | mintOver i op hi => exact h.move hi (fun n => le_rfl) (hlevel rfl)
  | mint i op r hi hle hr =>
    have hzero := mayTake_owed hok hle
    have howed := owed_set (b := .minted r) hi
    refine h.take 1 hzero ?_ rfl (fun n => ?_)
    · simp only [Bypass.owed] at howed
      simp only [owed, bump] at hzero ⊢
      omega
    · have hset := count_set n (b := .minted r) hi
      simp only [Bypass.held, count_nil, count_singleton, (record_ok hr).2, beq_iff_eq] at hset
      simp only [holds_eq, bump]
      split at hset <;> split <;> omega
  | bypassGiveBack i hi => exact h.move hi (fun n => le_rfl) (hlevel rfl)
  | bypassWrite i op hi => exact h.move (b := .written op) hi (fun n => le_rfl) (hlevel rfl)
  | bypassFail i op hi => exact h.move (b := .finished) hi (fun n => by simp [Bypass.held]) (hlevel rfl)
  | insert i op hi => exact h.move (b := .inserted op) hi (fun n => le_rfl) (hlevel rfl)
  | publish i op hi => exact h.move hi (fun n => by simp [Bypass.held, sequences]) (hlevel rfl)

end

theorem Unique.taken_lt (h : Unique s) (hp : s.prep = some p) : ∀ n ∈ p.taken, n < s.db.nextSeq := by
  intro n hn
  have hpos := count_pos_iff.mpr hn
  have hheld : p.taken.count n ≤ s.holds n := by
    simp only [holds, prepHeld, hp, Option.map_some, Option.getD_some]
    omega
  have := h.below n (by omega)
  omega

namespace Ordered

section
variable (h : Ordered s)
include h

theorem on (hidle : s.prep = none) {c : Solo}
    (hbulk : c.path.keepsOrder = true → c.bulk = []) : Ordered { s with db := db, lock := .solo c } := by
  refine { h with solo := fun _ p _ hp => ?_, bulk := ?_ }
  · rw [hidle] at hp
    cases hp
  · rintro _ ⟨rfl⟩
    exact hbulk

theorem prepares {q : Prep} (hp : s.prep = some p) (htxn : q.txn = p.txn)
    (hq : PrepOk q) : Ordered { s with db := db, prep := some q } := by
  refine { h with prep := ?_, solo := ?_ }
  · rintro _ ⟨rfl⟩
    exact hq
  · rintro c _ hc ⟨rfl⟩
    rw [htxn]
    exact h.solo c p hc hp

theorem acknowledge {path : Path} {txn : Txn} {records : List WriteOp}
    (hnew : path.keepsOrder = true → InOrder txn.ops records) :
    Ordered (s.acknowledge path txn records) := by
  exact { h with committed := forall_mem_append.mpr ⟨h.committed, forall_mem_singleton.mpr hnew⟩ }

theorem step (hheld : Held s) (hu : Unique s) (hs : Step s e s') : Ordered s' := by
  have hroom := hu.room
  cases hs with
  | takeLead =>
    exact ⟨h.prep, nofun, nofun, by simp [Lead.empty, empty], by simp [Lead.empty], h.flight, h.committed⟩
  | wave | prepareSkip => exact { h with }
  | prepare t rest hlock =>
    refine { h with prep := ?_, solo := ?_ }
    · rintro p ⟨rfl⟩
      exact .begin (by omega)
    · intro c p hc
      rw [hlock] at hc
      cases hc
  | allocOver spill p hp hover hfail =>
    have hprep := h.prep p hp
    exact h.prepares (p := p) hp rfl { hprep with settled := by simp [hfail] }
  | allocFail spill p op rest hp hover hfail =>
    have hprep := h.prep p hp
    exact h.prepares (p := p) hp rfl ⟨hprep.pos, fun _ => hover, hprep.take (hu.taken_lt hp),
      nofun, nofun⟩
  | alloc spill p op rest r hp hover hfail htodo _ hr =>
    have hprep := h.prep p hp
    refine h.prepares (p := p) hp rfl ⟨hprep.pos, fun _ => hover, hprep.take (hu.taken_lt hp),
      fun _ => ?_, fun _ => ?_⟩
    · simp [sequences, ← hprep.even hfail, (record_ok hr).2]
    · have hdone := hprep.done hfail
      rw [htodo] at hdone
      simpa [(record_ok hr).1] using hdone
  | giveBack p hp =>
    have hprep := h.prep p hp
    exact h.prepares (p := p) hp rfl ⟨hprep.pos, fun _ => rfl, hprep.increasing, nofun, nofun⟩
  | rollback p lock hp hf hlock =>
    rcases hlock with ⟨rfl, -⟩ | ⟨rfl, -⟩
    · exact { h with prep := nofun, solo := nofun }
    · exact { h with prep := nofun, solo := nofun, bulk := nofun }
  | refuseOne | soloVlog | soloIo => exact { h with prep := nofun, solo := nofun, bulk := nofun }
  | ready p hp hlock hcomp =>
    have hnew := (h.prep p hp).inOrder hcomp
    refine ⟨nofun, nofun, h.bulk, ?_, h.chunks, h.flight, h.committed⟩
    intro m hm
    simp only [mem_append, mem_singleton] at hm
    rcases hm with (hm | rfl) | hm
    · exact h.group m (mem_append_left _ hm)
    · exact hnew
    · exact h.group m (mem_append_right _ hm)
  | encodeFail =>
    refine { h with group := ?_ }
    intro m hm
    exact h.group m (mem_append_right _ hm)
  | encodeSkip | loneRefused | ingestRefused => exact h
  | encode =>
    refine { h with group := ?_ }
    intro m hm
    refine h.group m ?_
    simpa [or_comm] using hm
  | stage =>
    refine { h with group := by simp [empty], chunks := ?_ }
    exact forall_mem_append.mpr ⟨h.chunks, forall_mem_singleton.mpr fun m hm =>
      h.group m (mem_append_right _ hm)⟩
  | fly =>
    refine ⟨h.prep, nofun, nofun, by simp [Lead.empty, empty], by simp [Lead.empty], ?_, h.committed⟩
    rintro f ⟨rfl⟩
    exact h.chunks
  | write ok chunks hf =>
    refine { h with flight := ?_ }
    rintro f ⟨rfl⟩
    exact h.flight ⟨chunks, none⟩ hf
  | finish chunks hf =>
    refine { h with flight := nofun, committed := ?_ }
    refine forall_mem_append.mpr ⟨h.committed, forall_mem_map.mpr fun m hm _ => ?_⟩
    obtain ⟨g, hg, hm⟩ := mem_flatMap.mp hm
    exact h.flight _ hf g hg m (g.live_subset hm)
  | fence => exact { h with flight := nofun }
  | lone _ hul | one _ hul | batch _ _ hul => exact h.on (hheld.idle (unlocked_free hul)) fun _ => rfl
  | batchBulk latched ops puts mem runs hul =>
    refine h.on (hheld.idle (unlocked_free hul)) fun hpath => ?_
    cases hpath
  | soloPrepare c hc =>
    refine { h with prep := ?_, solo := ?_ }
    · rintro p ⟨rfl⟩
      exact .begin (by omega)
    · rintro c' p hc' ⟨rfl⟩
      rw [hc] at hc'
      cases hc'
      rfl
  | soloOk c p hc hp hcomp =>
    refine acknowledge ?_ fun hpath => ?_
    · exact { h with prep := nofun, solo := nofun, bulk := nofun }
    have hnew := (h.prep p hp).inOrder hcomp
    rw [h.solo c p hc hp] at hnew
    simpa [h.bulk c hc hpath] using hnew
  | bulkDone | tailPut | install =>
    refine acknowledge ?_ nofun
    exact { h with solo := nofun, bulk := nofun }
  | batchOver | giveBackBlock | emptyDone | tailOver | soloFenced | ingestOver | ingest | installSst
  | installManifest => exact { h with solo := nofun, bulk := nofun }
  | publish =>
    refine acknowledge ?_ nofun
    exact { h with }
  | begin | mintOver | mint | bypassGiveBack | bypassWrite | bypassFail | insert | snapshot | getAt =>
    exact { h with }

end

end Ordered

/-! ### Runs -/

theorem unique_opened (hdb : 0 < db.nextSeq) : Unique (.opened db) :=
  ⟨fun _ => Nat.zero_le _, fun _ hn => absurd hn (lt_irrefl 0), hdb⟩

theorem ordered_opened (db : Db) : Ordered (.opened db) :=
  ⟨nofun, nofun, nofun, nofun, nofun, nofun, nofun⟩

theorem sequenced_of_run {es : List Event} (hdb : 0 < db.nextSeq)
    (hok : Runs.Along step allocatesAlone (.opened db) es = true)
    (hrun : Runs.exec step (.opened db) es = some s) : Held s ∧ Unique s ∧ Ordered s := by
  refine Runs.exec_invariant (I := fun s => Held s ∧ Unique s ∧ Ordered s) ?_
    ⟨held_opened db, unique_opened hdb, ordered_opened db⟩ hok hrun
  intro s e s' ⟨hh, hu, ho⟩ hok hs
  have hs := step_cases hs
  exact ⟨hh.step hs, hu.step ho hok hs, ho.step hh hu hs⟩

/-- **No sequence is acknowledged twice.** In every run whose steps allocate alone, the
sequences of all acknowledged operations are different, and those of a batch increase in
the batch's order. -/
theorem sequences_unique (db : Db) (hdb : 0 < db.nextSeq) (es : List Event) (s : State)
    (hok : Runs.Along step allocatesAlone (.opened db) es = true)
    (hrun : Runs.exec step (.opened db) es = some s) :
    (s.committed.flatMap fun c => sequences c.records).Nodup ∧
      ∀ c ∈ s.committed, c.path.keepsOrder = true → InOrder c.txn.ops c.records := by
  obtain ⟨_, hu, ho⟩ := sequenced_of_run hdb hok hrun
  refine ⟨nodup_iff_count_le_one.mpr fun n => ?_, ho.committed⟩
  have := hu.once n
  simp only [holds] at this
  omega

def storeInline : Value → Result Value := fun v => .ok (escapeInlineValue v)
def spillFails : Value → Result Value := fun _ => .error (.io "vlog append")

def rawPut (k : UInt8) : BatchOp := .put [k] [9]

/-- A bypass takes a sequence while the leader prepares a batch whose spill fails. The
leader restores the counter over it, and its next batch is given the same sequence. -/
def rollbackRun : List Event :=
  [.begin (rawPut 1), .takeLead, .wave [⟨[rawPut 2], none⟩, ⟨[rawPut 3, rawPut 4], none⟩] false,
    .prepare, .alloc spillFails, .mint 0, .rollback,
    .prepare, .alloc storeInline, .alloc storeInline, .ready, .encode true true, .stage, .fly,
    .write true, .finish,
    .bypassWrite 0 true, .insert 0, .publish 0]

theorem rollback_reuses :
    (Runs.exec step (.opened (.fresh [])) rollbackRun).map
    (fun s => s.committed.flatMap fun c => sequences c.records) =
      some [1, 2, 2] := by
  rfl

/-- The same steps with the bypass's allocation after the counter is restored. -/
def quietRun : List Event :=
  [.begin (rawPut 1), .takeLead, .wave [⟨[rawPut 2], none⟩, ⟨[rawPut 3, rawPut 4], none⟩] false,
    .prepare, .alloc spillFails, .rollback, .mint 0,
    .prepare, .alloc storeInline, .alloc storeInline, .ready, .encode true true, .stage, .fly,
    .write true, .finish,
    .bypassWrite 0 true, .insert 0, .publish 0]

theorem sequences_unique_quiet : ∃ s, Runs.exec step (.opened (.fresh [])) quietRun = some s ∧
      (s.committed.flatMap fun c => sequences c.records).Nodup ∧
      ∀ c ∈ s.committed, c.path.keepsOrder = true → InOrder c.txn.ops c.records :=
  ⟨_, rfl, sequences_unique (.fresh []) (by decide) quietRun _ rfl rfl⟩

end PedraDb.Pipeline
