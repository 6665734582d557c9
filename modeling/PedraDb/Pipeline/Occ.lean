import PedraDb.Pipeline.Validation

/-! Optimistic transactions do not lose updates.

A transaction is validated against what the store and the leader know, and is sequenced
afterwards. A bypass takes its sequence earlier than it becomes known to either, so a
bypass in flight between the snapshot and the transaction's sequence is overlooked
(`bypass_overlooked`). `commitsInView` says that when a transaction has its sequences no
such bypass touches it, on top of sequences being handed out once and range deletions not
being empty; then no acknowledged write lies between a transaction's snapshot and its
sequence and touches it (`no_lost_update`). -/
namespace PedraDb.Pipeline
open List State
variable {op : WriteOp} {records : List WriteOp} {e : Event} {db : Db}

/-! ### Where the writes are -/

/-- The sequenced members, from the group being filled to the acknowledged commits. -/
def State.members (s : State) : List Sequenced :=
  s.committed.map (fun c => ⟨c.txn, c.records⟩) ++ (s.lead.group.pending ++ s.lead.group.appended) ++
    (s.lead.chunks ++ (s.flight.map Flight.chunks).getD []).flatMap GroupInFlight.appended

def Bypass.applied : Bypass → List WriteOp
  | .inserted op => [op]
  | .begun _ | .overdrawn | .minted _ | .written _ | .finished => []

def State.inserted (s : State) : List WriteOp := s.bypasses.flatMap Bypass.applied

/-- What a validation looks at. -/
def State.seen (s : State) : List WriteOp := s.members.flatMap Sequenced.records ++ s.inserted

/-- Sequenced, and in no place a validation looks at. -/
def State.unseen (s : State) : List WriteOp :=
  (s.prep.map Prep.records).getD [] ++ s.lock.waiting ++ s.bypassing

def lastSequenceOf (records : List WriteOp) : Nat := (records.map WriteOp.sequence).getLastD 0

/-- The write lies between the transaction's snapshot and its sequence and touches it. -/
def Txn.lost (t : Txn) (records : List WriteOp) (op : WriteOp) : Bool :=
  t.missed op && decide (op.sequence < lastSequenceOf records)

/-- A range deletion that is sequenced has a key. -/
def sequencesProper (s : State) : Event → Bool
  | .alloc _ =>
    match s.prep with
    | some p => (p.todo.take 1).all BatchOp.nonempty
    | none => true
  | .mint i =>
    match s.bypasses[i]? with
    | some (.begun op) => op.nonempty
    | _ => true
  | .ingest entries => entries.all fun e => e.1 != .rangeDeletion || decide (e.2.1 < e.2.2)
  | _ => true

/-- When a transaction has its sequences, no bypass in flight is lost to it. -/
def seesBypasses (s : State) : Event → Bool
  | .ready | .soloWrite .ok =>
    match s.prep with
    | some p => s.bypassing.all fun op => !p.txn.lost p.records op
    | none => true
  | _ => true

def commitsInView (s : State) (e : Event) : Bool :=
  allocatesAlone s e && sequencesProper s e && seesBypasses s e

/-! ### What a step adds -/

variable {s s' : State}

/-- Handed out by the next step: above everything held. -/
structure Fresh (s : State) (op : WriteOp) : Prop where
  owed : s.owed = 0
  above : s.db.nextSeq ≤ op.sequence
  proper : op.proper

/-- The batch that is being prepared, as a member. -/
structure Enters (s : State) (p : Prep) (m : Sequenced) : Prop where
  prep : s.prep = some p
  complete : p.complete
  member : m = ⟨p.txn, p.records⟩
  bypassing : ∀ op ∈ s.bypassing, p.txn.lost p.records op = false

attribute [local simp] State.unseen State.bypassing Lock.waiting Bypass.applied Bypass.waiting

theorem numberDown_proper {lo : Nat} {entries : List (ValueType × Key × Value)}
    (hop : op ∈ numberDown (lo + entries.length - 1) entries)
    (hle : lo + entries.length - 1 ≤ maxAssignableSequenceNumber)
    (hproper : (entries.all fun e => e.1 != .rangeDeletion || decide (e.2.1 < e.2.2)) = true) :
    op.proper := by
  have hmem : ∀ top, op ∈ numberDown top entries → (op.kind, op.key, op.value) ∈ entries := by
    clear hproper hle hop
    induction entries with
    | nil => nofun
    | cons e entries ih =>
      intro top hop
      rcases mem_cons.mp hop with rfl | hop
      · exact mem_cons_self
      · exact mem_cons_of_mem _ (ih _ hop)
  refine ⟨fun hkind => ?_, ?_⟩
  · have := all_eq_true.mp hproper _ (hmem _ hop)
    simpa [hkind] using this
  · have hmax : maxAssignableSequenceNumber ≤ maxSequenceNumber := by decide
    have := (numberDown_bounds hop).2
    omega

/-- Members come from the batch being prepared or are raw, and writes from the counter. -/
structure Flow (s s' : State) : Prop where
  members : ∀ m ∈ s'.members, m ∈ s.members ∨ m.txn.occ = none ∨ ∃ p, Enters s p m
  seen : ∀ op ∈ s'.seen, op ∈ s.seen ∨ op ∈ s.unseen
  unseen : ∀ op ∈ s'.unseen, op ∈ s.unseen ∨ Fresh s op

theorem seen_subset (hmem : s'.members ⊆ s.members) (hins : s'.inserted ⊆ s.inserted) :
    s'.seen ⊆ s.seen := by
  intro op hop
  rcases mem_append.mp hop with hop | hop
  · obtain ⟨m, hm, hop⟩ := mem_flatMap.mp hop
    exact mem_append_left _ (mem_flatMap.mpr ⟨m, hmem hm, hop⟩)
  · exact mem_append_right _ (hins hop)

theorem Step.encode_members {flush encode : Bool} (hs : Step s (.encode flush encode) s') :
    s'.members ⊆ s.members := by
  intro m hm
  cases hs with
  | encodeSkip => exact hm
  | encodeFail | encode =>
    simp only [members, mem_append, not_mem_nil] at hm ⊢
    tauto

theorem Step.stage_members (hs : Step s .stage s') : s'.members ⊆ s.members := by
  cases hs
  intro m hm
  simp only [members, GroupInFlight.empty, flatMap_append, flatMap_singleton, mem_append,
    not_mem_nil] at hm ⊢
  tauto

namespace Flow

theorem keep (hmem : s'.members ⊆ s.members) (hins : s'.inserted ⊆ s.inserted)
    (huns : s'.unseen ⊆ s.unseen) : Flow s s' :=
  ⟨fun _ hm => .inl (hmem hm), fun _ hop => .inl (seen_subset hmem hins hop),
    fun _ hop => .inl (huns hop)⟩

theorem acknowledge {s₁ : State} {path : Path} {txn : Txn} (h : Flow s s₁)
    (hmember : txn.occ = none ∨ ∃ p, Enters s p ⟨txn, records⟩)
    (hrecords : ∀ op ∈ records, op ∈ s.seen ∨ op ∈ s.unseen) :
    Flow s (s₁.acknowledge path txn records) := by
  have hsplit : ∀ m ∈ (s₁.acknowledge path txn records).members, m ∈ s₁.members ∨ m = ⟨txn, records⟩ := by
    intro m hm
    simp only [State.members, State.acknowledge, map_append, map_cons, map_nil, mem_append,
      mem_singleton] at hm ⊢
    tauto
  refine ⟨fun m hm => ?_, fun op hop => ?_, h.unseen⟩
  · rcases hsplit m hm with hm | rfl
    · exact h.members m hm
    · exact .inr hmember
  · rcases mem_append.mp hop with hop | hop
    · obtain ⟨m, hm, hop⟩ := mem_flatMap.mp hop
      rcases hsplit m hm with hm | rfl
      · exact h.seen op (mem_append_left _ (mem_flatMap.mpr ⟨m, hm, hop⟩))
      · exact hrecords op hop
    · exact h.seen op (mem_append_right _ hop)

theorem move {i : Nat} {a b : Bypass} {failed : Bool} (hi : s.bypasses[i]? = some a)
    (hwaiting : b.waiting ⊆ a.waiting)
    (happlied : b.applied ⊆ a.applied) :
    Flow s { s with db := db, bypasses := s.bypasses.set i b, failed := failed } := by
  refine .keep (Subset.refl _) (Runs.flatMap_set_subset hi happlied) (fun op hop => ?_)
  simp only [State.unseen, State.bypassing, mem_append] at hop ⊢
  exact hop.imp_right fun hop => Runs.flatMap_set_subset hi hwaiting hop

end Flow

theorem Step.flow (hheld : Held s) (hord : Ordered s) (hbulk : ∀ c, s.lock = .solo c → c.bulk = [])
    (hlad : staysOnLadder s e = true) (hok : commitsInView s e = true) (hs : Step s e s') :
    Flow s s' := by
  cases hs with
  | takeLead hu =>
    have hfree := unlocked_free hu
    refine .keep (fun m hm => ?_) (Subset.refl _) ?_
    · have hempty := hheld.lead (by rw [hfree]; nofun)
      simpa [members, hempty] using hm
    · simp [hfree]
  | wave | prepareSkip | snapshot | getAt | encodeSkip | loneRefused | ingestRefused =>
    exact .keep (Subset.refl _) (Subset.refl _) (Subset.refl _)
  | prepare t rest hlock hp | soloPrepare c hc hp =>
    refine .keep (Subset.refl _) (Subset.refl _) ?_
    simp [hp]
  | allocOver spill p hp | allocFail spill p op rest hp | giveBack p hp =>
    refine .keep (Subset.refl _) (Subset.refl _) ?_
    simp [hp, bump]
  | alloc spill p op rest r hp hover _ htodo hle hr =>
    refine ⟨fun _ hm => .inl hm, fun _ hop => .inl hop, fun o ho => ?_⟩
    simp only [commitsInView, sequencesProper, hp, htodo, Bool.and_eq_true, take_succ_cons, take_zero,
      all_cons, all_nil, Bool.and_true] at hok
    simp only [unseen, bump, hp, Option.map_some, Option.getD_some, mem_append, mem_singleton] at ho ⊢
    rcases ho with ((ho | rfl) | ho) | ho
    · exact .inl (.inl (.inl ho))
    · exact .inr ⟨mayTake_owed hok.1.1 hle, le_of_eq (record_ok hr).2.symm, record_proper hr hok.1.2 hle⟩
    · exact .inl (.inl (.inr ho))
    · exact .inl (.inr ho)
  | rollback p lock hp _ hlock =>
    refine .keep (Subset.refl _) (Subset.refl _) (fun op hop => ?_)
    simp only [unseen, Option.map_none, Option.getD_none, mem_append, not_mem_nil] at hop ⊢
    rcases hlock with ⟨rfl, _⟩ | ⟨rfl, _⟩
    · tauto
    · simp only [Lock.waiting, not_mem_nil] at hop
      tauto
  | ready p hp hlock hcomp =>
    simp only [commitsInView, seesBypasses, hp, Bool.and_eq_true, all_eq_true, Bool.not_eq_true'] at hok
    refine ⟨fun m hm => ?_, fun op hop => ?_, ?_⟩
    · simp only [members, mem_append, mem_singleton] at hm ⊢
      rcases hm with (hm | (hm | hm) | hm) | hm
      · exact .inl (.inl (.inl hm))
      · exact .inl (.inl (.inr (.inl hm)))
      · exact .inr (.inr ⟨p, hp, hcomp, hm, hok.2⟩)
      · exact .inl (.inl (.inr (.inr hm)))
      · exact .inl (.inr hm)
    · simp only [seen, unseen, members, hp, Option.map_some, Option.getD_some,
        flatMap_append, flatMap_singleton, mem_append] at hop ⊢
      tauto
    · intro op hop
      simp only [unseen, Option.map_none, Option.getD_none, mem_append, not_mem_nil, false_or] at hop ⊢
      tauto
  | encodeFail flush encode hl hp hq =>
    exact .keep (Step.encodeFail flush encode hl hp hq).encode_members (Subset.refl _) (Subset.refl _)
  | encode flush encode hl hp hq hg hf =>
    exact .keep (Step.encode flush encode hl hp hq hg hf).encode_members (Subset.refl _) (Subset.refl _)
  | stage hl hp hq hg =>
    exact .keep (Step.stage hl hp hq hg).stage_members (Subset.refl _) (Subset.refl _)
  | fly =>
    refine .keep (fun m hm => ?_) (Subset.refl _) ?_
    · simp only [members, Lead.empty, GroupInFlight.empty, Option.map_some, Option.getD_some,
        flatMap_append, nil_append, append_nil, mem_append] at hm ⊢
      tauto
    · simp
  | write ok chunks hf =>
    refine .keep ?_ (Subset.refl _) (Subset.refl _)
    simp [members, hf]
  | finish chunks hf hu =>
    refine .keep (fun m hm => ?_) (Subset.refl _) (Subset.refl _)
    simp only [members, acknowledgeAll, hf, Option.map_some, Option.map_none, Option.getD_some,
      Option.getD_none, append_nil, map_append, map_map, flatMap_append, mem_append] at hm ⊢
    rcases hm with ((hm | hm) | hm) | hm
    · exact .inl (.inl hm)
    · refine .inr (.inr ?_)
      obtain ⟨n, hn, rfl⟩ := mem_map.mp hm
      obtain ⟨g, hg, hn⟩ := mem_flatMap.mp hn
      exact mem_flatMap.mpr ⟨g, hg, g.live_subset hn⟩
    · exact .inl (.inr hm)
    · exact .inr (.inl hm)
  | fence chunks hf hu =>
    refine .keep (fun m hm => ?_) (Subset.refl _) (Subset.refl _)
    simp only [members, hf, Option.map_none, Option.getD_none, append_nil, flatMap_append,
      mem_append] at hm ⊢
    tauto
  | refuseOne | lone | one | batch | soloFenced | giveBackBlock | emptyDone | soloVlog | soloIo
  | ingestOver | installSst
  | installManifest =>
    refine .keep (Subset.refl _) (Subset.refl _) ?_
    simp
  | batchOver latched ops n mem runs _ hn hpos =>
    exact absurd (staysOnLadder_zero hlad hn) (Nat.ne_of_gt hpos)
  | batchBulk latched ops puts mem runs _ hlen hne =>
    exact absurd (length_eq_zero_iff.mp (staysOnLadder_zero hlad hlen)) hne
  | tailOver | tailPut => cases hlad
  | bulkDone c hc _ _ _ hne => exact absurd (hbulk c hc) hne
  | soloOk c p hc hp hcomp =>
    simp only [commitsInView, seesBypasses, hp, Bool.and_eq_true, all_eq_true, Bool.not_eq_true'] at hok
    have hmember : (⟨c.txn, c.bulk ++ p.records⟩ : Sequenced) = ⟨p.txn, p.records⟩ := by
      rw [hbulk c hc, ← hord.solo c p hc hp, nil_append]
    refine .acknowledge (.keep (Subset.refl _) (Subset.refl _) ?_)
      (.inr ⟨p, hp, hcomp, hmember, hok.2⟩) ?_
    · simp
    · intro op hop
      rw [hbulk c hc, nil_append] at hop
      exact .inr (by simp [hp, hop])
  | ingest entries db hu _ _ hle =>
    have hfree := unlocked_free hu
    simp only [commitsInView, sequencesProper, Bool.and_eq_true] at hok
    refine ⟨fun _ hm => .inl hm, fun _ hop => .inl hop, fun op hop => ?_⟩
    simp only [unseen, hfree, Lock.waiting, mem_append] at hop ⊢
    rcases hop with (hop | hop) | hop
    · exact .inl (.inl (.inl hop))
    · exact .inr ⟨mayTake_owed hok.1.1 hle, (numberDown_bounds hop).1, numberDown_proper hop hle hok.1.2⟩
    · exact .inl (.inr hop)
  | install records hr =>
    refine .acknowledge (.keep (Subset.refl _) (Subset.refl _) ?_) (.inl rfl) ?_
    · simp
    · exact fun op hop => .inr (by simp [hr, hop])
  | begin =>
    refine .keep (Subset.refl _) ?_ ?_
    · simp [inserted]
    · simp
  | mint i op r hi hle hr =>
    simp only [commitsInView, sequencesProper, hi, Bool.and_eq_true] at hok
    refine ⟨fun _ hm => .inl hm, fun o ho => .inl ?_, fun o ho => ?_⟩
    · simp only [seen, mem_append] at ho ⊢
      exact ho.imp_right fun ho => Runs.flatMap_set_subset hi (by simp) ho
    · simp only [unseen, bump, bypassing, mem_append] at ho ⊢
      rcases ho with ho | ho
      · exact .inl (.inl ho)
      · rcases Runs.mem_flatMap_set ho with ho | ho
        · exact .inl (.inr ho)
        · obtain rfl : o = r := by simpa using ho
          exact .inr ⟨mayTake_owed hok.1.1 hle, le_of_eq (record_ok hr).2.symm,
            record_proper hr hok.1.2 hle⟩
  | mintOver i op hi | bypassGiveBack i hi | bypassFail i op hi =>
    exact .move hi (by simp) (by simp)
  | bypassWrite i op hi => exact .move (b := .written op) hi (Subset.refl _) (Subset.refl _)
  | insert i op hi =>
    refine ⟨fun _ hm => .inl hm, fun o ho => ?_, fun o ho => .inl ?_⟩
    · simp only [seen, unseen, inserted, bypassing, mem_append] at ho ⊢
      rcases ho with ho | ho
      · exact .inl (.inl ho)
      · rcases Runs.mem_flatMap_set ho with ho | ho
        · exact .inl (.inr ho)
        · exact .inr (.inr (mem_flatMap.mpr ⟨_, mem_of_getElem? hi, ho⟩))
    · simp only [unseen, bypassing, mem_append] at ho ⊢
      exact ho.imp_right fun ho => Runs.flatMap_set_subset hi (by simp) ho
  | publish i op hi =>
    have hmove : Flow s { s with
        db := s.db.publishSequence op.sequence
        bypasses := s.bypasses.set i .finished } :=
      .move hi (by simp) (by simp)
    refine hmove.acknowledge (.inl rfl) fun o ho => .inl ?_
    obtain rfl := mem_singleton.mp ho
    exact mem_append_right _ (mem_flatMap.mpr ⟨_, mem_of_getElem? hi, by simp⟩)

/-! ### The store knows what has left the leader -/

/-- The groups that are closed: staged by the leader, or in flight. -/
def State.closed (s : State) : List GroupInFlight := s.lead.chunks ++ (s.flight.map Flight.chunks).getD []

/-- Everything is proper; what is acknowledged or inserted is in a table, and what is in a
closed group is staged. -/
structure Traced (s : State) : Prop where
  runs : s.db.bulkRuns = []
  stored : s.db.Proper
  seen : ∀ op ∈ s.seen, op.proper
  unseen : ∀ op ∈ s.unseen, op.proper
  acked : ∀ c ∈ s.committed, ∀ op ∈ c.records, s.db.stores op
  inserted : ∀ op ∈ s.inserted, s.db.stores op
  staged : ∀ g ∈ s.closed, ∀ op ∈ g.ops, op ∈ s.db.unapplied

theorem State.waits_issued (h : s.waits op) : op ∈ s.seen ∨ op ∈ s.unseen := by
  rcases h with h | h | h
  · simp only [sequenced, seen, unseen, members, flatMap_append, mem_append] at h ⊢
    tauto
  · refine .inl (mem_append_left _ (mem_flatMap.mpr ?_))
    cases hf : s.flight with
    | none => simp [flying, hf] at h
    | some f =>
      simp only [flying, hf, Option.map_some, Option.getD_some, Flight.waiting] at h
      split at h
      · cases h
      · obtain ⟨m, hm, hop⟩ := mem_flatMap.mp h
        obtain ⟨g, hg, hm⟩ := mem_flatMap.mp hm
        refine ⟨m, mem_append_right _ (mem_flatMap.mpr ⟨g, ?_, g.live_subset hm⟩), hop⟩
        simp [hf, hg]
  · exact .inr (mem_append_right _ h)

namespace Traced

theorem knows (h : Traced s) (hop : op ∈ s.seen) :
    s.db.knows op ∨ ∃ m ∈ s.lead.group.pending ++ s.lead.group.appended, op ∈ m.records := by
  rcases mem_append.mp hop with hop | hop
  · obtain ⟨m, hm, hop⟩ := mem_flatMap.mp hop
    rcases mem_append.mp hm with hm | hm
    · rcases mem_append.mp hm with hm | hm
      · obtain ⟨c, hc, rfl⟩ := mem_map.mp hm
        exact .inl (.inl (h.acked c hc op hop))
      · exact .inr ⟨m, hm, hop⟩
    · obtain ⟨g, hg, hm⟩ := mem_flatMap.mp hm
      exact .inl (.inr (h.staged g hg op (mem_flatMap.mpr ⟨m, hm, hop⟩)))
  · exact .inl (.inl (h.inserted op hop))

section
variable (h : Traced s)
include h

theorem step_acked (hbulk : ∀ c, s.lock = .solo c → c.bulk = []) (hlad : staysOnLadder s e = true)
    (hs : Step s e s') : ∀ c ∈ s'.committed, ∀ op ∈ c.records, s'.db.stores op := by
  have hgrows := hs.grows (F := fun _ => True) h.runs hlad fun _ _ => trivial
  have hold : ∀ c ∈ s.committed, ∀ op ∈ c.records, s'.db.stores op :=
    fun c hc op hop => hgrows.keeps (h.acked c hc op hop)
  cases hs with
  | finish chunks hf =>
    refine forall_mem_append.mpr ⟨hold, forall_mem_map.mpr fun m hm op hop => ?_⟩
    exact .inl (mem_append_right _ (mem_flatMap.mpr ⟨m, hm, hop⟩))
  | soloOk c p hc =>
    refine forall_mem_append.mpr ⟨hold, forall_mem_singleton.mpr fun op hop => ?_⟩
    rw [hbulk c hc] at hop
    exact .inl (mem_append_right _ hop)
  | bulkDone c hc _ _ _ hne => exact absurd (hbulk c hc) hne
  | tailOver | tailPut => cases hlad
  | install records =>
    exact forall_mem_append.mpr ⟨hold, forall_mem_singleton.mpr fun op hop =>
      .inr ⟨_, mem_cons_self, hop⟩⟩
  | publish i op hi =>
    refine forall_mem_append.mpr ⟨hold, forall_mem_singleton.mpr (forall_mem_singleton.mpr ?_)⟩
    exact h.inserted op (mem_flatMap.mpr ⟨_, mem_of_getElem? hi, by simp⟩)
  | _ => exact hold

theorem step_inserted (hlad : staysOnLadder s e = true) (hs : Step s e s') :
    ∀ op ∈ s'.inserted, s'.db.stores op := by
  have hgrows := hs.grows (F := fun _ => True) h.runs hlad fun _ _ => trivial
  have hold : ∀ op ∈ s.inserted, s'.db.stores op := fun op hop => hgrows.keeps (h.inserted op hop)
  cases hs with
  | begin =>
    intro op hop
    exact hold op (by simpa [State.inserted] using hop)
  | mintOver i _ hi | mint i _ _ hi | bypassGiveBack i hi | bypassWrite i _ hi | bypassFail i _ hi
  | publish i _ hi =>
    intro op hop
    exact hold op (Runs.flatMap_set_subset hi (by simp) hop)
  | insert i op hi =>
    intro o ho
    rcases Runs.mem_flatMap_set ho with ho | ho
    · exact hold o ho
    · exact .inl (mem_append_right _ ho)
  | _ => exact hold

theorem step_staged (hheld : Held s) (hs : Step s e s') :
    ∀ g ∈ s'.closed, ∀ op ∈ g.ops, op ∈ s'.db.unapplied := by
  have hfree : s.unlocked = true → s.lead = .empty :=
    fun hu => hheld.lead (by rw [unlocked_free hu]; nofun)
  cases hs with
  | takeLead hu =>
    intro g hg
    refine h.staged g ?_
    simpa [closed, hfree hu] using hg
  | stage =>
    intro g hg op hop
    simp only [closed, mem_append, mem_singleton] at hg
    rcases hg with (hg | rfl) | hg
    · exact mem_append_left _ (h.staged g (mem_append_left _ hg) op hop)
    · exact mem_append_right _ hop
    · exact mem_append_left _ (h.staged g (mem_append_right _ hg) op hop)
  | fly =>
    intro g hg
    exact h.staged g (mem_append_left _ (by simpa [closed, Lead.empty] using hg))
  | write ok chunks hf =>
    intro g hg
    refine h.staged g ?_
    simpa [closed, hf] using hg
  | finish chunks hf hu | fence chunks hf hu =>
    intro g hg
    simp [closed, acknowledgeAll, hfree hu, Lead.empty] at hg
  | ingestOver _ db _ _ hdb | ingest _ db _ _ hdb => cases hdb <;> exact h.staged
  | _ => exact h.staged

/-- **The store goes on to know what has left the leader.** -/
theorem step (hheld : Held s) (hbulk : ∀ c, s.lock = .solo c → c.bulk = []) (hflow : Flow s s')
    (hlad : staysOnLadder s e = true) (hs : Step s e s') : Traced s' := by
  have hgrows := hs.grows (F := fun _ => True) h.runs hlad fun _ _ => trivial
  have hissued : ∀ op, op ∈ s.seen ∨ op ∈ s.unseen → op.proper :=
    fun op hop => hop.elim (h.seen op) (h.unseen op)
  refine ⟨hgrows.runs.2, fun op hop => ?_, fun op hop => hissued op (hflow.seen op hop), fun op hop => ?_,
    h.step_acked hbulk hlad hs, h.step_inserted hlad hs, h.step_staged hheld hs⟩
  · exact (hgrows.stores hop).elim (h.stored op) fun hw => hissued op (waits_issued hw)
  · exact (hflow.unseen op hop).elim (h.unseen op) fun hf => hf.proper

end

end Traced

/-! ### What a validated transaction is clear of -/

/-- The batch being prepared: it has missed nothing seen, its records are its operations,
and those waiting behind it were validated against them. -/
structure Prepares (s : State) (p : Prep) : Prop where
  missed : ∀ op ∈ s.seen, p.txn.missed op = false
  spans : ∀ r ∈ p.records, ∃ op ∈ p.txn.ops, r.span = op.span
  todo : p.todo ⊆ p.txn.ops
  accepted : s.lock = .lead → ∀ op ∈ p.txn.ops, s.lead.accepted.has op.span
  before : ∀ t ∈ s.lead.queue, ∀ op ∈ p.txn.ops, t.touchedBy op.span = false

/-- Whoever has passed validation has missed nothing seen since. -/
structure Cleared (s : State) : Prop where
  bulk : ∀ c, s.lock = .solo c → c.bulk = []
  solo : ∀ c, s.lock = .solo c → ∀ op ∈ s.seen, c.txn.missed op = false
  prep : ∀ p, s.prep = some p → Prepares s p
  grouped : ∀ m ∈ s.lead.group.pending ++ s.lead.group.appended,
    ∀ op ∈ m.records, s.lead.accepted.has op.span
  queue : ∀ t ∈ s.lead.queue, ∀ op ∈ s.seen, t.missed op = false
  accepted : ∀ t ∈ s.lead.queue, ∀ op ∈ t.ops, s.lead.accepted.has op.span
  order : s.lead.queue.Pairwise fun u t => ∀ op ∈ u.ops, t.touchedBy op.span = false

variable {t : Txn}

theorem Txn.missed_of_touchedBy (h : t.touchedBy op.span = false) : t.missed op = false := by
  simp only [Txn.missed, h]
  split <;> simp

theorem seen_held (hop : op ∈ s.seen) : 0 < s.holds op.sequence := by
  have hgroup : ∀ {groups : List GroupInFlight} {g : GroupInFlight} {m : Sequenced}, g ∈ groups →
      m ∈ g.pending ++ g.appended → op ∈ m.records → op.sequence ∈ groups.flatMap GroupInFlight.held :=
    fun hg hm hop => mem_flatMap.mpr ⟨_, hg, mem_flatMap.mpr ⟨_, hm, mem_map_of_mem hop⟩⟩
  have hpos : ∀ {l : List Nat}, op.sequence ∈ l → 0 < l.count op.sequence := count_pos_iff.mpr
  simp only [holds]
  rcases mem_append.mp hop with hop | hop
  · obtain ⟨m, hm, hop⟩ := mem_flatMap.mp hop
    rcases mem_append.mp hm with hm | hm
    · rcases mem_append.mp hm with hm | hm
      · obtain ⟨c, hc, rfl⟩ := mem_map.mp hm
        have := hpos (mem_flatMap.mpr ⟨c, hc, mem_map_of_mem hop⟩ :
          op.sequence ∈ s.committed.flatMap fun c => sequences c.records)
        omega
      · have hmem : op.sequence ∈ s.lead.group.held := mem_flatMap.mpr ⟨m, hm, mem_map_of_mem hop⟩
        have := hpos hmem
        omega
    · obtain ⟨g, hg, hm⟩ := mem_flatMap.mp hm
      rcases mem_append.mp hg with hg | hg
      · have := hpos (hgroup hg (mem_append_right _ hm) hop)
        omega
      have hflight : op.sequence ∈ s.flightHeld := by
        cases hf : s.flight with
        | none => simp [hf] at hg
        | some f =>
          simp only [hf, Option.map_some, Option.getD_some] at hg
          simpa [flightHeld, hf] using hgroup hg (mem_append_right _ hm) hop
      have := hpos hflight
      omega
  · obtain ⟨b, hb, hop⟩ := mem_flatMap.mp hop
    have hheld : op.sequence ∈ b.held := by
      cases b with
      | inserted o =>
        obtain rfl := mem_singleton.mp hop
        exact mem_singleton.mpr rfl
      | _ => cases hop
    have := hpos (mem_flatMap.mpr ⟨b, hb, hheld⟩ : op.sequence ∈ s.bypasses.flatMap Bypass.held)
    omega

namespace Cleared

theorem idle (hheld : Held s) (hlead : s.lock ≠ .lead) (hsolo : ∀ c, s.lock ≠ .solo c) : Cleared s := by
  have hempty := hheld.lead hlead
  refine ⟨fun c hc => absurd hc (hsolo c), fun c hc => absurd hc (hsolo c), fun p hp => ?_, ?_,
    ?_, ?_, ?_⟩
  · rw [hheld.idle_of hlead hsolo] at hp
    cases hp
  all_goals rw [hempty]
  · nofun
  · nofun
  · nofun
  · exact .nil

theorem keep (h : Cleared s) {flight : Option Flight} {bypasses : List Bypass} {failed : Bool}
    (hseen : State.seen { s with
      db := db, flight := flight, bypasses := bypasses, failed := failed } ⊆ s.seen) :
    Cleared { s with db := db, flight := flight, bypasses := bypasses, failed := failed } :=
  { h with
    solo := fun c hc op hop => h.solo c hc op (hseen hop)
    prep := fun p hp => { h.prep p hp with missed := fun op hop => (h.prep p hp).missed op (hseen hop) }
    queue := fun t ht op hop => h.queue t ht op (hseen hop) }

theorem prepares (h : Cleared s) {p q : Prep} (hp : s.prep = some p) (htxn : q.txn = p.txn)
    (hspans : ∀ r ∈ q.records, ∃ op ∈ q.txn.ops, r.span = op.span) (htodo : q.todo ⊆ q.txn.ops) :
    Cleared { s with db := db, prep := some q } := by
  obtain ⟨hmissed, -, -, haccepted, hbefore⟩ := h.prep p hp
  rw [← htxn] at hmissed haccepted hbefore
  refine { h with prep := ?_ }
  rintro _ ⟨rfl⟩
  exact ⟨hmissed, hspans, htodo, haccepted, hbefore⟩

theorem regroup (h : Cleared s) {group : GroupInFlight} {chunks : List GroupInFlight}
    (hseen : State.seen
      { s with db := db, lead := { s.lead with group := group, chunks := chunks } } ⊆ s.seen)
    (hgroup : group.pending ++ group.appended ⊆ s.lead.group.pending ++ s.lead.group.appended) :
    Cleared { s with db := db, lead := { s.lead with group := group, chunks := chunks } } := by
  refine ⟨h.bulk, fun c hc op hop => h.solo c hc op (hseen hop), fun p hp => ?_, ?_, ?_, h.accepted,
    h.order⟩
  · have hp := h.prep p hp
    exact { hp with missed := fun op hop => hp.missed op (hseen hop) }
  · exact fun m hm => h.grouped m (hgroup hm)
  · exact fun t ht op hop => h.queue t ht op (hseen hop)

theorem on (hheld : Held s) (hfree : s.lock = .free) {c : Solo} (hbulk : c.bulk = [])
    (hsolo : ∀ op ∈ s.seen, c.txn.missed op = false) : Cleared { s with lock := .solo c } := by
  refine { idle hheld (by rw [hfree]; nofun)
    (by rw [hfree]; nofun) with bulk := ?_, solo := ?_, prep := fun p hp => ?_ }
  · rintro _ ⟨rfl⟩
    exact hbulk
  · rintro _ ⟨rfl⟩
    exact hsolo
  · rw [hheld.idle hfree] at hp
    cases hp

theorem dequeue (h : Cleared s) (hp : s.prep = none) {rest : List Txn} (hq : s.lead.queue = t :: rest) :
    Cleared { s with lead := { s.lead with queue := rest } } := by
  have hsub : rest ⊆ s.lead.queue := hq ▸ subset_cons_self _ _
  refine { h with
    prep := by simp [hp]
    queue := fun u hu => h.queue u (hsub hu)
    accepted := fun u hu => h.accepted u (hsub hu)
    order := ?_ }
  have horder := h.order
  rw [hq] at horder
  exact (pairwise_cons.mp horder).2

theorem wave (h : Cleared s) (htraced : Traced s) (hprep : s.prep = none) {members : List Txn}
    {queue : List Txn}
    (hqueue : queue = [] ∨ queue = (validateAll s.db s.lead.accepted members).2) :
    Cleared { s with lead := { s.lead with
      accepted := (validateAll s.db s.lead.accepted members).1, queue := queue } } := by
  have hpass := validateAll_passed htraced.stored s.lead.accepted members
  have hsub : queue ⊆ (validateAll s.db s.lead.accepted members).2 := by
    rcases hqueue with rfl | rfl
    · exact nil_subset _
    · exact Subset.refl _
  refine ⟨h.bulk, h.solo, fun p hp => ?_, ?_, fun t ht op hop => ?_,
    fun t ht => hpass.has t (hsub ht), ?_⟩
  · rw [hprep] at hp
    cases hp
  · exact fun m hm op hop => hpass.le.has (h.grouped m hm op hop)
  · rcases htraced.knows hop with hknown | ⟨m, hm, hop⟩
    · exact hpass.missed t (hsub ht) op hknown
    · exact Txn.missed_of_touchedBy (hpass.before t (hsub ht) _ (h.grouped m hm op hop))
  · rcases hqueue with rfl | rfl
    · exact .nil
    · exact hpass.order

theorem step (h : Cleared s) (hheld : Held s) (huniq : Unique s) (htraced : Traced s)
    (hlad : staysOnLadder s e = true) (hs : Step s e s') : Cleared s' := by
  have hheld' := hheld.step hs
  cases hs with
  | takeLead hu =>
    have hidle := hheld.idle (unlocked_free hu)
    exact ⟨by simp, by simp, by simp [hidle], by simp [Lead.empty,
      GroupInFlight.empty], by simp [Lead.empty], by simp [Lead.empty], .nil⟩
  | wave members refused accepted queue hlock hprep _ haccepted hqueue =>
    subst haccepted
    exact h.wave htraced hprep hqueue
  | prepareSkip t rest hlock hp hq => exact h.dequeue hp hq
  | prepare t rest hlock hp hq =>
    have ht : t ∈ s.lead.queue := by rw [hq]; exact mem_cons_self
    have horder := h.order
    rw [hq] at horder
    refine { h.dequeue hp hq with prep := ?_ }
    rintro p ⟨rfl⟩
    exact ⟨h.queue t ht, by simp, Subset.refl _, fun _ => h.accepted t ht, (pairwise_cons.mp horder).1⟩
  | allocOver spill p hp | allocFail spill p op rest hp | giveBack p hp =>
    exact h.prepares (p := p) hp rfl (h.prep p hp).spans (h.prep p hp).todo
  | alloc spill p op rest r hp _ _ htodo _ hr =>
    have hprep := h.prep p hp
    have hmem := hprep.todo
    rw [htodo] at hmem
    refine h.prepares (p := p) hp rfl (forall_mem_append.mpr ⟨hprep.spans, forall_mem_singleton.mpr ?_⟩)
      fun o ho => hmem (mem_cons_of_mem _ ho)
    exact ⟨op, hmem mem_cons_self, record_span hr⟩
  | rollback p lock hp _ hlock =>
    rcases hlock with ⟨rfl, _⟩ | ⟨rfl, _⟩
    · exact { h with prep := by simp }
    · exact idle hheld' (by simp) (by simp)
  | ready p hp hlock =>
    have hprep := h.prep p hp
    have hseen : ∀ op ∈ seen { s with
        lead := { s.lead with
          group := { s.lead.group with pending := s.lead.group.pending ++ [⟨p.txn, p.records⟩] } }
        prep := none }, op ∈ s.seen ∨ op ∈ p.records := by
      intro op hop
      simp only [seen, members, flatMap_append, flatMap_singleton, mem_append] at hop ⊢
      tauto
    refine ⟨h.bulk, fun c hc => ?_,
      by simp, fun m hm op hop => ?_, fun t ht op hop => ?_, h.accepted, h.order⟩
    · rw [hlock] at hc
      cases hc
    · simp only [mem_append, mem_singleton] at hm
      rcases hm with (hm | rfl) | hm
      · exact h.grouped m (mem_append_left _ hm) op hop
      · obtain ⟨o, ho, hspan⟩ := hprep.spans op hop
        rw [hspan]
        exact hprep.accepted hlock o ho
      · exact h.grouped m (mem_append_right _ hm) op hop
    · rcases hseen op hop with hop | hop
      · exact h.queue t ht op hop
      · obtain ⟨o, ho, hspan⟩ := hprep.spans op hop
        refine Txn.missed_of_touchedBy ?_
        rw [hspan]
        exact hprep.before t ht o ho
  | encodeFail flush encode hl hp hq =>
    refine h.regroup (seen_subset
      (Step.encodeFail flush encode hl hp hq).encode_members (Subset.refl _)) ?_
    exact subset_append_right _ _
  | encode flush encode hl hp hq hg hf =>
    refine h.regroup
      (seen_subset (Step.encode flush encode hl hp hq hg hf).encode_members (Subset.refl _)) ?_
    intro m hm
    simpa [or_comm] using hm
  | stage hl hp hq hg =>
    exact h.regroup (seen_subset (Step.stage hl hp hq hg).stage_members (Subset.refl _)) (nil_subset _)
  | encodeSkip | loneRefused | ingestRefused => exact h
  | write ok chunks hf =>
    refine h.keep (seen_subset ?_ (Subset.refl _))
    simp [members, hf]
  | lone t hu _ hv =>
    have hfree := unlocked_free hu
    have hempty := hheld.lead (by simp [hfree])
    refine on hheld hfree rfl fun op hop => ?_
    rcases htraced.knows hop with hknown | ⟨m, hm, _⟩
    · refine validateLone_missed htraced.stored hv hknown ?_
      have := huniq.below op.sequence (seen_held hop)
      simp only [Db.lastSequence]
      omega
    · rw [hempty] at hm
      cases hm
  | one op hu | batch latched ops hu => exact on hheld (unlocked_free hu) rfl fun _ _ => rfl
  | batchOver latched ops n mem runs _ hn
    hpos => exact absurd (staysOnLadder_zero hlad hn) (Nat.ne_of_gt hpos)
  | batchBulk latched ops puts mem runs _ hlen hne =>
    exact absurd (length_eq_zero_iff.mp (staysOnLadder_zero hlad hlen)) hne
  | tailOver | tailPut => cases hlad
  | soloPrepare c hc =>
    have hempty := hheld.lead (by simp [hc])
    refine { h with prep := ?_ }
    rintro p ⟨rfl⟩
    refine ⟨h.solo c hc, by simp, Subset.refl _, fun hl => ?_, fun t ht => ?_⟩
    · rw [hc] at hl
      cases hl
    · rw [hempty] at ht
      cases ht
  | finish _ _ hu | fence _ _ hu =>
    have hfree := unlocked_free hu
    exact idle hheld' (by simp [acknowledgeAll, hfree]) (by simp [acknowledgeAll, hfree])
  | begin _ hfree | insert _ _ _ hfree | publish _ _ _ hfree | snapshot hfree | getAt _ _ hfree =>
    exact idle hheld' (by simp [acknowledge, hfree]) (by simp [acknowledge, hfree])
  | refuseOne | fly | giveBackBlock | emptyDone | bulkDone | soloFenced | soloOk | soloVlog
  | soloIo | ingestOver
  | ingest | install | installSst | installManifest =>
    exact idle hheld' (by simp [acknowledge]) (by simp [acknowledge])
  | mintOver i _ hi | mint i _ _ hi | bypassGiveBack i hi | bypassWrite i _ hi | bypassFail i _ hi =>
    refine h.keep (seen_subset (Subset.refl _) ?_)
    exact Runs.flatMap_set_subset hi (by simp)

end Cleared

/-- No write anywhere is lost to a sequenced member. -/
def NoneLost (s : State) : Prop :=
  ∀ m ∈ s.members, ∀ op, op ∈ s.seen ∨ op ∈ s.unseen → op ∉ m.records → m.txn.lost m.records op = false

theorem lastSequenceOf_lt {n : Nat} (h : ∀ r ∈ records, r.sequence < n) :
    records = [] ∨ lastSequenceOf records < n := by
  rcases eq_nil_or_concat records with rfl | ⟨front, r, rfl⟩
  · exact .inl rfl
  · refine .inr ?_
    simpa [lastSequenceOf] using h r (by simp)

theorem Txn.lost_above (h : ∀ r ∈ records, r.sequence < op.sequence) : t.lost records op = false := by
  rcases lastSequenceOf_lt h with rfl | hlt
  · simp [Txn.lost, lastSequenceOf]
  · simp [Txn.lost, le_of_lt hlt]

theorem NoneLost.step (h : NoneLost s) (hheld : Held s) (hord : Ordered s) (huniq : Unique s)
    (hclear : Cleared s)
    (hflow : Flow s s') : NoneLost s' := by
  intro m hm op hop hnot
  have hop : (op ∈ s.seen ∨ op ∈ s.unseen) ∨ Fresh s op := by
    rcases hop with hop | hop
    · exact .inl (hflow.seen op hop)
    · exact (hflow.unseen op hop).imp_left .inr
  rcases hflow.members m hm with hm | hraw | ⟨p, henter⟩
  · rcases hop with hop | hfresh
    · exact h m hm op hop hnot
    · refine Txn.lost_above fun r hr => ?_
      have := huniq.below r.sequence (seen_held (mem_append_left _ (mem_flatMap.mpr ⟨m, hm, hr⟩)))
      have := hfresh.above
      omega
  · simp [Txn.lost, Txn.missed, hraw]
  · -- the batch that was being prepared
    obtain ⟨hp, hcomplete, rfl, hbypassing⟩ := henter
    have hnot : op ∉ p.records := hnot
    rcases hop with (hop | hop) | hfresh
    · simp [Txn.lost, (hclear.prep p hp).missed op hop]
    · have hwaiting : s.lock.waiting = [] := by
        rcases hheld.prep (by simp [hp]) with hl | ⟨c, hc⟩
        · rw [hl]
          rfl
        · rw [hc]
          rfl
      simp only [unseen, hp, Option.map_some, Option.getD_some, hwaiting, append_nil, mem_append] at hop
      rcases hop with hop | hop
      · exact absurd hop hnot
      · exact hbypassing op hop
    · refine Txn.lost_above fun r hr => ?_
      have htaken : r.sequence ∈ p.taken := by
        rw [← (hord.prep p hp).even hcomplete.2.2]
        exact mem_map_of_mem hr
      exact lt_of_lt_of_le (huniq.taken_lt hp _ htaken) hfresh.above

/-! ### Runs -/

structure InView (s : State) : Prop where
  held : Held s
  unique : Unique s
  ordered : Ordered s
  traced : Traced s
  cleared : Cleared s
  lost : NoneLost s

theorem InView.step (h : InView s) (hlad : staysOnLadder s e = true) (hok : commitsInView s e = true)
    (hs : Step s e s') : InView s' := by
  have hflow := hs.flow h.held h.ordered h.cleared.bulk hlad hok
  have halone : allocatesAlone s e = true := by
    simp only [commitsInView, Bool.and_eq_true] at hok
    exact hok.1.1
  exact ⟨h.held.step hs, h.unique.step h.ordered halone hs, h.ordered.step h.held h.unique hs,
    h.traced.step h.held h.cleared.bulk hflow hlad hs, h.cleared.step h.held h.unique h.traced hlad hs,
    h.lost.step h.held h.ordered h.unique h.cleared hflow⟩

theorem inView_opened (hdb : 0 < db.nextSeq) (hruns : db.bulkRuns = []) (hproper : db.Proper) :
    InView (.opened db) :=
  ⟨held_opened db, unique_opened hdb, ordered_opened db,
    ⟨hruns, hproper, nofun, nofun, nofun, nofun, nofun⟩,
    .idle (held_opened db) nofun nofun, nofun⟩

/-- **Optimistic transactions do not lose updates.** In every run whose steps commit in
view, no other acknowledged write lies between a transaction's snapshot and its sequence
and touches a key it read or wrote. -/
theorem no_lost_update (db : Db) (hdb : 0 < db.nextSeq) (hruns : db.bulkRuns = []) (hproper : db.Proper)
    (es : List Event) (s : State) (hlad : Runs.Along step staysOnLadder (.opened db) es = true)
    (hok : Runs.Along step commitsInView (.opened db) es = true)
    (hrun : Runs.exec step (.opened db) es = some s) :
    ∀ c ∈ s.committed, ∀ snap keys, c.txn.occ = some (snap, keys) →
    ∀ c' ∈ s.committed, ∀ op ∈ c'.records, op ∉ c.records →
        snap < op.sequence → op.sequence < lastSequenceOf c.records → c.txn.touchedBy op.span =
        false := by
  have hinv : InView s := by
    refine Runs.exec_invariant (fun s e s' h hok hs => ?_) (inView_opened hdb hruns hproper)
      (Runs.along_and hlad hok) hrun
    simp only [Bool.and_eq_true] at hok
    exact h.step hok.1 hok.2 (step_cases hs)
  have hmember : ∀ c ∈ s.committed, (⟨c.txn, c.records⟩ : Sequenced) ∈ s.members := fun c hc =>
    mem_append_left _ (mem_append_left _ (mem_map_of_mem hc))
  intro c hc snap keys hocc c' hc' op hop hnot hafter hbefore
  have hseen : op ∈ s.seen := mem_append_left _ (mem_flatMap.mpr ⟨_, hmember c' hc', hop⟩)
  have := hinv.lost _ (hmember c hc) op (.inl hseen) hnot
  simpa [Txn.lost, Txn.missed, hocc, hafter, hbefore] using this

/-- A bypass takes sequence 1 for a key; a transaction that read the key at snapshot 0 is
validated, sequenced and acknowledged with sequence 2, and then the bypass is. -/
def overlookedRun : List Event :=
  [.begin (rawPut 1), .mint 0, .takeLead, .wave [⟨[.put [1] [7]], some (0, [[1]])⟩] false, .prepare,
    .alloc storeInline, .ready, .encode true true, .stage, .fly, .write true, .finish,
    .bypassWrite 0 true, .insert 0, .publish 0]

theorem bypass_overlooked :
    (Runs.exec step (.opened (.fresh [])) overlookedRun).map
        (fun s => s.committed.map fun c =>
          (c.txn.occ, c.records, s.committed.flatMap fun c' =>
            c'.records.filter (c.txn.lost c.records))) =
      some [(some (0, [[1]]), [⟨.value, 2, [1], [7]⟩], [⟨.value, 1, [1], [9]⟩]),
        (none, [⟨.value, 1, [1], [9]⟩], [])] := by
  rfl

/-- The bypass is acknowledged first; the transaction, now at snapshot 1, is let through. -/
def inViewRun : List Event :=
  [.begin (rawPut 1), .mint 0, .bypassWrite 0 true, .insert 0, .publish 0,
    .takeLead, .wave [⟨[.put [1] [7]], some (1, [[1]])⟩, ⟨[.put [1] [8]], some (0, [[1]])⟩] false,
    .prepare,
    .alloc storeInline, .ready, .encode true true, .stage, .fly, .write true, .finish]

theorem no_lost_update_in_view : ∃ s, Runs.exec step (.opened (.fresh [])) inViewRun = some s ∧
      ∀ c ∈ s.committed, ∀ snap keys, c.txn.occ = some (snap, keys) →
      ∀ c' ∈ s.committed, ∀ op ∈ c'.records, op ∉ c.records →
          snap < op.sequence → op.sequence < lastSequenceOf c.records → c.txn.touchedBy op.span = false :=
  ⟨_, rfl, no_lost_update (.fresh []) (by decide) rfl
    (by simp [Db.Proper, Db.stores, Db.fresh]) inViewRun _ rfl rfl rfl⟩

end PedraDb.Pipeline
