import PedraDb.Pipeline.Sequences

/-! The durability fence.

A log write that fails fences the store, and a fenced store refuses to prepare. Three
things get past that. The bypass neither looks at the fence nor sets it
(`bypass_unfenced`); a batch that goes to a bulk run as a whole is never prepared; and a
commit that has passed the check is acknowledged even if another one fails before it
returns. `fencesInTime` says that a run has none of these, and then nothing is
acknowledged after a failed write (`fence_absorbing`). -/
namespace PedraDb.Pipeline
open List GroupInFlight

/-- The bypass will not return a sequence any more. -/
def Bypass.over : Bypass → Bool
  | .overdrawn | .finished => true
  | .begun _ | .minted _ | .written _ | .inserted _ => false

/-- No group in flight has a member to acknowledge. -/
def State.flightOver (s : State) : Bool :=
  match s.flight with
  | none => true
  | some f => f.io == some false || f.chunks.flatMap live == []

/-- The commit went to a bulk run as a whole. -/
def Lock.allBulk : Lock → Bool
  | .solo c => c.txn.ops == [] && c.bulk != []
  | .free | .lead | .ingest _ | .owing _ => false

/-- The condition on a step: no bypass fails to write, or starts after a failure; no
batch is all bulk after a failure, nor is its last put; a commit is not prepared between a failure and its
fence; and a write fails only while no other commit is past the check. -/
def fencesInTime (s : State) : Event → Bool
  | .begin _ => !s.failed
  | .bypassWrite _ ok => ok
  | .batch latched ops =>
    !s.failed || (splitBatch s.db.physicalCfs latched ops).2 != [] ||
      (splitBatch s.db.physicalCfs latched ops).1 == []
  | .tailPut => !s.failed
  | .soloPrepare => !s.failed || s.db.durabilityFenced
  | .write ok => ok || s.bypasses.all Bypass.over && s.prep.isNone && !s.lock.allBulk
  | .soloWrite .io => s.bypasses.all Bypass.over && s.flightOver
  | _ => true

/-! ### After a failure -/

/-- Nobody is past the check. The failed commit has fenced the store, or is a group on
its way to do so. -/
structure Stopped (s : State) : Prop where
  fence : s.db.durabilityFenced = true ∨ ∃ chunks, s.flight = some ⟨chunks, some false⟩
  bypasses : ∀ b ∈ s.bypasses, b.over = true
  prep : s.prep = none
  lock : s.lock.allBulk = false
  group : s.lead.group.pending = [] ∧ s.lead.group.appended = []
  chunks : s.lead.chunks.flatMap live = []
  flight : s.flightOver = true

structure Fenced (s : State) : Prop where
  leads : s.lock = .lead → s.flight = none
  stopped : s.failed = true → Stopped s
  acked : ∀ c ∈ s.committed, c.path ≠ .ingest → c.afterFailure = false

variable {s s' : State}

namespace Stopped

theorem fenced (h : Stopped s) (hflight : s.flight = none) : s.db.durabilityFenced = true := by
  rcases h.fence with hf | ⟨_, hf⟩
  · exact hf
  · rw [hflight] at hf
    cases hf

theorem no_prep (h : Stopped s) {p : Prep} (hp : s.prep = some p) : False := by
  have := h.prep
  rw [hp] at this
  cases this

end Stopped

theorem Fenced.not_failed (h : Fenced s) {i : Nat} {b : Bypass} (hi : s.bypasses[i]? = some b)
    (hb : b.over = false) : s.failed = false := by
  by_contra hf
  have := (h.stopped (by simpa using hf)).bypasses b (mem_of_getElem? hi)
  rw [hb] at this
  cases this

namespace Fenced

section
variable (h : Fenced s)
include h

theorem keep (hleads : s'.lock = .lead → s'.flight = none) (hfailed : s'.failed = s.failed)
    (hcommitted : s'.committed = s.committed) (hstop : Stopped s → Stopped s') : Fenced s' := by
  refine ⟨hleads, fun hf => hstop (h.stopped (hfailed ▸ hf)), ?_⟩
  rw [hcommitted]
  exact h.acked

theorem running (hf : s.failed = false) (hleads : s'.lock = .lead → s'.flight = none)
    (hfailed : s'.failed = s.failed) (hcommitted : s'.committed = s.committed) : Fenced s' := by
  refine ⟨hleads, fun hf' => ?_, ?_⟩
  · rw [hfailed, hf] at hf'
    cases hf'
  · rw [hcommitted]
    exact h.acked

theorem acknowledge {path : Path} {txn : Txn} {records : List WriteOp}
    (hpath : path ≠ .ingest → s.failed = false) : Fenced (s.acknowledge path txn records) := by
  refine ⟨h.leads, fun hf => ?_, forall_mem_append.mpr ⟨h.acked, forall_mem_singleton.mpr hpath⟩⟩
  have hs := h.stopped hf
  exact { hs with }

/-- **A step of a run that fences in time acknowledges nothing after a failed write.** -/
theorem step {e : Event} (hheld : Held s) (hok : fencesInTime s e = true) (hs : Step s e s') :
    Fenced s' := by
  cases hs with
  | takeLead _ hflight =>
    refine h.keep (fun _ => hflight) rfl rfl fun hs => ?_
    exact ⟨hs.fence, hs.bypasses, hs.prep, rfl, ⟨rfl, rfl⟩, rfl, hs.flight⟩
  | wave _ _ _ _ hlock hp | prepareSkip _ _ hlock hp =>
    exact h.keep h.leads rfl rfl fun hs => { hs with prep := hp }
  | prepare t rest hlock _ _ _ hfence =>
    refine h.keep h.leads rfl rfl fun hs => ?_
    have := hs.fenced (h.leads hlock)
    rw [hfence] at this
    cases this
  | allocOver _ p hp | allocFail _ p _ _ hp | alloc _ p _ _ _ hp | giveBack p hp | ready p hp =>
    exact h.keep h.leads rfl rfl fun hs => (hs.no_prep hp).elim
  | rollback p lock hp _ hlock =>
    refine h.keep (fun hlead => ?_) rfl rfl fun hs => (hs.no_prep hp).elim
    rcases hlock with ⟨rfl, _⟩ | ⟨rfl, _⟩
    · exact h.leads hlead
    · cases hlead
  | refuseOne p c hp | soloVlog c p _ hp => exact h.keep nofun rfl rfl fun hs => (hs.no_prep hp).elim
  | encodeFail =>
    refine h.keep h.leads rfl rfl fun hs => ?_
    exact { hs with group := ⟨rfl, hs.group.2⟩ }
  | encode =>
    refine h.keep h.leads rfl rfl fun hs => ?_
    exact { hs with group := ⟨rfl, by simp [hs.group]⟩ }
  | stage =>
    refine h.keep h.leads rfl rfl fun hs => ?_
    refine { hs with group := ⟨rfl, rfl⟩, chunks := ?_ }
    simp [hs.chunks, live, hs.group]
  | fly hlock =>
    refine h.keep nofun rfl rfl fun hs => ?_
    exact ⟨.inl (hs.fenced (h.leads hlock)), hs.bypasses, hs.prep, rfl, ⟨rfl, rfl⟩, rfl,
      by simp [State.flightOver, hs.chunks]⟩
  | write ok chunks hf =>
    have hlead : s.lock ≠ .lead := fun hl => by simp [h.leads hl] at hf
    refine ⟨fun hl => absurd hl hlead, fun hfail => ?_, h.acked⟩
    by_cases hbefore : s.failed = true
    · have hs := h.stopped hbefore
      have hfence : s.db.durabilityFenced = true := by simpa [hf] using hs.fence
      have hover : chunks.flatMap live = [] := by simpa [State.flightOver, hf] using hs.flight
      exact { hs with fence := .inl hfence, flight := by simp [State.flightOver, hover] }
    · -- this is the write that fails
      obtain rfl : ok = false := by simpa [hbefore] using hfail
      simp only [fencesInTime, Bool.false_or, Bool.and_eq_true, all_eq_true,
        Option.isNone_iff_eq_none, Bool.not_eq_true'] at hok
      have hempty := hheld.lead hlead
      exact ⟨.inr ⟨chunks, rfl⟩, hok.1.1, hok.1.2, hok.2,
        by rw [hempty]; exact ⟨rfl, rfl⟩, by rw [hempty]; rfl,
        by simp [State.flightOver]⟩
  | finish chunks hf =>
    refine ⟨fun _ => rfl, fun hfail => ?_,
      forall_mem_append.mpr ⟨h.acked, forall_mem_map.mpr fun m hm hne => ?_⟩⟩
    · have hs := h.stopped hfail
      have hfence : s.db.durabilityFenced = true := by simpa [hf] using hs.fence
      exact { hs with fence := .inl hfence, flight := rfl }
    · by_contra hfail
      have hs := h.stopped (by simpa using hfail)
      have hover : chunks.flatMap live = [] := by simpa [State.flightOver, hf] using hs.flight
      simp [hover] at hm
  | fence chunks hf hu =>
    refine h.keep (fun _ => rfl) rfl rfl fun hs => ?_
    exact { hs with fence := .inl rfl, flight := rfl }
  | encodeSkip | loneRefused | ingestRefused => exact h
  | lone | one | batch =>
    exact h.keep nofun rfl rfl fun hs => { hs with lock := by simp [Lock.allBulk] }
  | batchBulk latched ops puts mem runs _ hlen hne =>
    refine ⟨nofun, fun hfail => { h.stopped hfail with lock := ?_ }, h.acked⟩
    have hsplit : (splitBatch s.db.physicalCfs latched ops).1 ≠ [] := by
      intro hnil
      rw [hnil] at hlen
      exact hne (length_eq_zero_iff.mp hlen)
    have hfail : s.failed = true := hfail
    have hladder : (splitBatch s.db.physicalCfs latched ops).2 ≠ [] := by
      simpa [fencesInTime, hfail, hsplit] using hok
    simp [Lock.allBulk, hladder]
  | batchOver | giveBackBlock | emptyDone | soloFenced | installSst =>
    exact h.keep nofun rfl rfl fun hs => { hs with lock := rfl }
  | ingestOver _ db _ _ hdb | ingest _ db _ _ hdb =>
    refine h.keep nofun rfl rfl fun hs => { hs with fence := hs.fence.imp_left fun hf => ?_, lock := rfl }
    cases hdb with
    | clean => exact hf
    | flush => exact hf
  | bulkDone c hc _ _ hops hbulk =>
    refine acknowledge ?_ fun _ => ?_
    · exact h.keep nofun rfl rfl fun hs => { hs with lock := rfl }
    · by_contra hfail
      have := (h.stopped (by simpa using hfail)).lock
      simp [hc, Lock.allBulk, hops, hbulk] at this
  | tailOver => exact h.running (by simpa [fencesInTime] using hok) nofun rfl rfl
  | tailPut c op hc =>
    have hrun : s.failed = false := by simpa [fencesInTime] using hok
    refine acknowledge ?_ fun _ => hrun
    exact h.running hrun nofun rfl rfl
  | soloPrepare c hc _ _ hfence =>
    have hrun : s.failed = false := by simpa [fencesInTime, hfence] using hok
    exact h.running hrun h.leads rfl rfl
  | soloOk c p hc hp =>
    have hrun : s.failed = false := by
      by_contra hfail
      exact (h.stopped (by simpa using hfail)).no_prep hp
    refine acknowledge ?_ fun _ => hrun
    exact h.running hrun nofun rfl rfl
  | soloIo c p hc =>
    have hempty := hheld.lead (by rw [hc]; nofun)
    simp only [fencesInTime, Bool.and_eq_true, all_eq_true] at hok
    refine ⟨nofun, fun _ => ⟨.inl rfl, hok.1, rfl, rfl, ?_, ?_, hok.2⟩, h.acked⟩
    · rw [hempty]
      exact ⟨rfl, rfl⟩
    · rw [hempty]
      rfl
  | install =>
    refine acknowledge ?_ fun hne => absurd rfl hne
    exact h.keep nofun rfl rfl fun hs => { hs with lock := rfl }
  | installManifest =>
    exact h.keep nofun rfl rfl fun hs => { hs with fence := .inl rfl, lock := rfl }
  | begin => exact h.running (by simpa [fencesInTime] using hok) h.leads rfl rfl
  | mint i op r hi | mintOver i op hi | bypassWrite i op hi | insert i op hi =>
    exact h.running (h.not_failed hi rfl) h.leads rfl rfl
  | bypassGiveBack i hi =>
    refine h.keep h.leads rfl rfl fun hs => ?_
    exact { hs with bypasses := Runs.forall_set hs.bypasses rfl }
  | bypassFail => cases hok
  | publish i op hi =>
    have hrun := h.not_failed hi rfl
    refine acknowledge ?_ fun _ => hrun
    exact h.running hrun h.leads rfl rfl
  | snapshot | getAt =>
    exact h.keep h.leads rfl rfl fun hs => { hs with }

end

end Fenced

/-! ### Runs -/

theorem fenced_opened (db : Db) : Fenced (.opened db) := ⟨fun _ => rfl, nofun, nofun⟩

/-- **The fence is absorbing.** In every run whose steps fence in time, no group, lone,
one-op, batch or bypass commit is acknowledged once a log write has failed, and a failed
write has fenced the store as soon as its commit has returned. -/
theorem fence_absorbing (db : Db) (es : List Event) (s : State)
    (hok : Runs.Along step fencesInTime (.opened db) es = true)
    (hrun : Runs.exec step (.opened db) es = some s) :
    (∀ c ∈ s.committed, c.path ≠ .ingest → c.afterFailure = false) ∧
      (s.failed = true → s.db.durabilityFenced = true ∨
        ∃ chunks, s.flight = some ⟨chunks, some false⟩) := by
  have hinv : Held s ∧ Fenced s := by
    refine Runs.exec_invariant (I := fun s => Held s ∧ Fenced s) (fun s e s' h hok hs => ?_)
      ⟨held_opened db, fenced_opened db⟩ hok hrun
    have hs := step_cases hs
    exact ⟨h.1.step hs, h.2.step h.1 hok hs⟩
  exact ⟨hinv.2.acked, fun hf => (hinv.2.stopped hf).fence⟩

/-- A bypass fails to write the log, and then a lone commit is made. -/
def bypassFailsRun : List Event :=
  [.begin (rawPut 1), .mint 0, .bypassWrite 0 false, .lone ⟨[rawPut 2], none⟩, .soloPrepare,
    .alloc storeInline, .soloWrite .ok]

theorem bypass_unfenced : (Runs.exec step (.opened (.fresh [])) bypassFailsRun).map
        (fun s => (s.failed, s.db.durabilityFenced, s.flight, s.committed.map Commit.afterFailure)) =
      some (true, false, none, [true]) := by
  rfl

/-- A lone commit fails to write the log after another one succeeded, and a third is
refused. -/
def loneFailsRun : List Event :=
  [.lone ⟨[rawPut 1], none⟩, .soloPrepare, .alloc storeInline, .soloWrite .ok,
    .lone ⟨[rawPut 2], none⟩, .soloPrepare, .alloc storeInline, .soloWrite .io,
    .lone ⟨[rawPut 3], none⟩, .soloPrepare]

theorem fence_absorbing_lone : ∃ s, Runs.exec step (.opened (.fresh [])) loneFailsRun = some s ∧
      (∀ c ∈ s.committed, c.path ≠ .ingest → c.afterFailure = false) ∧
      (s.failed = true → s.db.durabilityFenced = true ∨ ∃ chunks, s.flight = some ⟨chunks, some false⟩) :=
  ⟨_, rfl, fence_absorbing (.fresh []) loneFailsRun _ rfl rfl⟩

end PedraDb.Pipeline
