import PedraDb.Ingest.Latch
import PedraDb.Library.Runs

/-! What the latch promises of a batch that it sends to a run.

The keys of such a batch are to lie above all that the family had before the latch saw it
and above all that the latch has seen of it since. The latch keeps one key for this, the
high-water mark, and asks the store for its largest key where there is no mark yet. But
only a batch of puts is compared with the store: a deletion that is the first thing seen of
a family sets the mark and the store is never asked. -/
namespace PedraDb.Ingest
open List BulkLatch
variable {keys seen : List Key} {max : Option Key}

inductive FamilyRoute where
  | ladder
  | bulk
  deriving DecidableEq

namespace BulkLatch

/-- The route that `classifyFamily` gives: a latched family and puts in order. -/
def routeFamily (l : BulkLatch) (family : Key) (ops : List (Bool × Key)) (spanning : Bool)
    (familyMaxInDb : Option Key) : FamilyRoute :=
  if l.state family ≠ some .dead ∧ l.judge family ops spanning familyMaxInDb = .admissible ∧
      (l.classifyFamily family ops spanning familyMaxInDb).isLatched family = true then .bulk else .ladder

/-- Puts of a latched family. Only the last key moves the mark; what is out of order is
judged like any batch, but without the store. -/
def observeLatchedSpan (l : BulkLatch) (family : Key) (keys : List Key) : BulkLatch × FamilyRoute :=
  let ops := keys.map fun key => (true, key)
  let slow := (l.classifyFamily family ops false none, l.routeFamily family ops false none)
  if l.isLatched family then
    match keys.head?, keys.getLast? with
    | some first, some last =>
      if decide (keys.IsChain (· < ·)) && !(l.highWater family).any fun hw =>
        decide (first ≤ hw) then (l.ratchet family last, .bulk)
      else slow
    | _, _ => (l, .bulk)
  else slow

end BulkLatch

def largest : List Key → Option Key
  | [] => none
  | key :: rest => some (maxKey key (largest rest))

/-- One family is shown to the latch. -/
inductive Call where
  | classifyFamily (family : Key) (ops : List (Bool × Key)) (spanning : Bool)
  | observeLatchedSpan (family : Key) (keys : List Key)
  deriving DecidableEq

open Call

namespace Call

def family : Call → Key
  | .classifyFamily family _ _ => family
  | .observeLatchedSpan family _ => family

def ops : Call → List (Bool × Key)
  | .classifyFamily _ ops _ => ops
  | .observeLatchedSpan _ keys => keys.map fun key => (true, key)

/-- `present` is what the families hold before the latch sees them. -/
def run (present : Key → List Key) (l : BulkLatch) : Call → BulkLatch × FamilyRoute
  | .classifyFamily family ops spanning =>
    (l.classifyFamily family ops spanning (largest (present family)),
      l.routeFamily family ops spanning (largest (present family)))
  | .observeLatchedSpan family keys => l.observeLatchedSpan family keys

def step (present : Key → List Key) (l : BulkLatch) (c : Call) : Option BulkLatch :=
  some (c.run present l).1

/-- Whether the call compares the family with the store. -/
def consults : Call → Bool
  | .classifyFamily _ ops spanning => !spanning && ops.all Prod.fst
  | .observeLatchedSpan _ _ => false

/-- The first thing that is seen of a family is compared with the store, or reaches above
what is there. -/
def covers (present : Key → List Key) (l : BulkLatch) (c : Call) : Bool :=
  (l.highWater c.family).isSome || c.ops.isEmpty || c.consults || (present c.family).all fun key =>
    c.ops.any fun p => decide (key ≤ p.2)

end Call

/-- A batch, or the keys of puts that were sent ahead. -/
inductive Observation where
  | classifyBatch (batch : List BatchOp)
  | observeLatchedSpan (family : Key) (keys : List Key)

open Observation

/-- A batch is shown family by family. -/
def Observation.calls (physicalCfs : List Key) : Observation → List Call
  | .classifyBatch batch => (batch.flatMap (opFamilies physicalCfs)).dedup.map fun family =>
    .classifyFamily family (familyOps physicalCfs family batch) (spans physicalCfs family batch)
  | .observeLatchedSpan family keys => [.observeLatchedSpan family keys]

theorem classifyBatch_calls (physicalCfs : List Key) (present : Key → List Key) (l : BulkLatch)
    (batch : List BatchOp) :
    Runs.exec (Call.step present) l ((Observation.classifyBatch batch).calls physicalCfs) =
      some (l.classifyBatch physicalCfs (fun family => largest (present family)) batch) := by
  rw [Observation.calls, BulkLatch.classifyBatch]
  induction (batch.flatMap (opFamilies physicalCfs)).dedup generalizing l with
  | nil => rfl
  | cons family families ih => exact ih _

/-! ### What is judged in order -/

section Judge
variable {l : BulkLatch} {family : Key} {ops : List (Bool × Key)}

theorem le_maxKey (key : Key) (m : Option Key) :
    key ≤ maxKey key m ∧ ∀ k, m = some k → k ≤ maxKey key m := by
  cases m with
  | none => exact ⟨List.le_refl _, fun _ h => nomatch h⟩
  | some m =>
    rw [maxKey]
    split
    · rename_i hlt
      exact ⟨List.le_refl _, fun k hk => Option.some.inj hk ▸ List.le_of_lt hlt⟩
    · rename_i hge
      exact ⟨List.not_lt.mp hge, fun k hk => Option.some.inj hk ▸ List.le_refl _⟩

theorem exists_largest {key : Key} (h : key ∈ keys) : ∃ m, largest keys = some m ∧ key ≤ m := by
  induction keys with
  | nil => cases h
  | cons k keys ih =>
    refine ⟨_, rfl, ?_⟩
    rcases mem_cons.mp h with rfl | h
    · exact (le_maxKey _ _).1
    · obtain ⟨m, hm, hle⟩ := ih h
      exact List.le_trans hle ((le_maxKey k _).2 m hm)

theorem smallest_le {m : Key} (h : smallest keys = some m) : ∀ key ∈ keys, m ≤ key := by
  induction keys generalizing m with
  | nil => cases h
  | cons k keys ih =>
    rw [smallest] at h
    cases hrest : smallest keys with
    | none =>
      have hnil : keys = [] := by
        cases keys with
        | nil => rfl
        | cons a keys =>
          rw [smallest] at hrest
          split at hrest <;> cases hrest
      rw [hrest] at h
      obtain rfl := Option.some.inj h
      simp [hnil]
    | some x =>
      rw [hrest] at h
      obtain rfl := Option.some.inj h
      intro key hkey
      rcases mem_cons.mp hkey with rfl | hkey
      · split
        · rename_i hlt
          exact List.le_of_lt hlt
        · exact List.le_refl _
      · refine List.le_trans ?_ (ih hrest key hkey)
        split
        · exact List.le_refl _
        · rename_i hge
          exact List.not_lt.mp hge

/-- The keys are puts; without a key below the one before they ascend. -/
theorem judgeKeys_ok {prev : Option Key} {inversions n : Nat}
    (h : judgeKeys prev inversions ops = .ok n) :
    (∀ p ∈ ops, p.1 = true) ∧ inversions ≤ n ∧
    (n = inversions → (prev.toList ++ ops.map Prod.snd).IsChain (· < ·)) := by
  induction ops generalizing prev inversions with
  | nil =>
    cases h
    refine ⟨by simp, .refl, fun _ => ?_⟩
    cases prev <;> simp
  | cons p ops ih =>
    obtain ⟨isPut, key⟩ := p
    rw [judgeKeys] at h
    split at h
    · cases h
    rename_i hput
    have hall : ∀ {m}, judgeKeys (some key) m ops = .ok n →
        (∀ p ∈ (isPut, key) :: ops, p.1 = true) ∧ m ≤ n ∧
        (n = m → (key :: ops.map Prod.snd).IsChain (· < ·)) := by
      intro m hm
      obtain ⟨hputs, hle, hchain⟩ := ih hm
      exact ⟨forall_mem_cons.mpr ⟨by simpa using hput, hputs⟩, hle, hchain⟩
    split at h
    · cases h
    rename_i hne
    split at h
    · split at h
      · cases h
      · obtain ⟨hputs, hle, _⟩ := hall h
        exact ⟨hputs, Nat.le_of_succ_le hle, fun heq => absurd hle (by omega)⟩
    · rename_i hge
      obtain ⟨hputs, hle, hchain⟩ := hall h
      refine ⟨hputs, hle, fun heq => ?_⟩
      cases prev with
      | none => exact hchain heq
      | some q =>
        have hle' : q ≤ key := List.not_lt.mp (by simpa using hge)
        have hlt : q < key := (List.le_iff_lt_or_eq.mp hle').resolve_right fun heq => hne (by rw [heq])
        exact isChain_cons_cons.mpr ⟨hlt, hchain heq⟩

theorem nodup_of_chain (h : keys.IsChain (· < ·)) : keys.Pairwise (· < ·) ∧ keys.Nodup := by
  have hpair := isChain_iff_pairwise.mp h
  exact ⟨hpair, hpair.imp fun {a b} (hlt : a < b) (heq : a = b) => List.lt_irrefl _ (heq ▸ hlt)⟩

/-- A family that is in order: puts of different keys, above the mark or else above the
store. -/
theorem judge_admissible {spanning : Bool} (h : l.judge family ops spanning max = .admissible) :
    spanning = false ∧ (∀ p ∈ ops, p.1 = true) ∧ (ops.map Prod.snd).Nodup ∧
      ∀ m, (l.highWater family <|> max) = some m → ∀ p ∈ ops, m < p.2 := by
  rw [judge] at h
  split at h
  · cases h
  rename_i hspan
  split at h
  · rename_i verdict hkeys
    -- a failed pass is never admissible
    have hbad : ∀ {prev : Option Key} {n} {ops : List (Bool × Key)},
        judgeKeys prev n ops ≠ .error .admissible := by
      intro prev n ops
      induction ops generalizing prev n with
      | nil => exact nofun
      | cons p ops ih =>
        rw [judgeKeys]
        split_ifs <;> first | exact ih | exact nofun
    exact absurd (h ▸ hkeys) hbad
  · rename_i inversions hkeys
    obtain ⟨hputs, _, hchain⟩ := judgeKeys_ok hkeys
    split at h
    · cases h
    rename_i hdup
    split at h
    · cases h
    rename_i first hfirst
    split at h
    · cases h
    rename_i hmark
    refine ⟨by simpa using hspan, hputs, ?_, fun m hm p hp => ?_⟩
    · by_cases hzero : inversions = 0
      · exact (nodup_of_chain (hchain hzero)).2
      · simpa [hzero, keysHaveDuplicate] using hdup
    · refine List.not_le.mp fun hle => hmark ?_
      have hmin : first ≤ p.2 := smallest_le hfirst p.2 (mem_map_of_mem hp)
      simp [hm, List.le_trans hmin hle]

/-- Puts that are judged at all are in order or kill the family. -/
theorem judge_puts (hputs : ∀ p ∈ ops, p.1 = true) (hne : ops ≠ []) :
    l.judge family ops false max ≠ .ineligible := by
  have hkeys : ∀ {prev : Option Key} {n}, judgeKeys prev n ops ≠ .error .ineligible := by
    clear hne
    induction ops with
    | nil => exact nofun
    | cons p ops ih =>
      obtain ⟨hput, hputs⟩ := forall_mem_cons.mp hputs
      intro prev n
      rw [judgeKeys, hput]
      split_ifs <;> first | exact ih hputs | simp_all
  obtain ⟨m, hm⟩ : ∃ m, smallest (ops.map Prod.snd) = some m := by
    cases ops with
    | nil => exact absurd rfl hne
    | cons p ops =>
      rw [map_cons, smallest]
      split <;> exact ⟨_, rfl⟩
  rw [judge, if_neg Bool.false_ne_true]
  split
  · rename_i verdict hverdict
    rintro rfl
    exact hkeys hverdict
  · rw [hm]
    split
    · simp
    · dsimp only
      split <;> simp

end Judge

section Mark
variable {l : BulkLatch} {family : Key} {ops : List (Bool × Key)}

theorem ratchet_all (l : BulkLatch) (family : Key) (ops : List (Bool × Key)) :
    (∀ p ∈ ops, ∃ hw, (ops.foldl (fun l op => l.ratchet family op.2) l).highWater family = some hw ∧
      p.2 ≤ hw) ∧
      (∀ hw, l.highWater family = some hw → ∃ hw',
        (ops.foldl (fun l op => l.ratchet family op.2) l).highWater family = some hw' ∧ hw ≤ hw') ∧
      (ops = [] → ops.foldl (fun l op => l.ratchet family op.2) l = l) := by
  induction ops generalizing l with
  | nil => exact ⟨by simp, fun hw h => ⟨hw, h, List.le_refl _⟩, fun _ => rfl⟩
  | cons p ops ih =>
    obtain ⟨hall, hold, _⟩ := ih (l.ratchet family p.2)
    have hmark : (l.ratchet family p.2).highWater family = some (maxKey p.2 (l.highWater family)) :=
      Function.update_self ..
    obtain ⟨hw', hhw', hle'⟩ := hold _ hmark
    obtain ⟨hself, hprev⟩ := le_maxKey p.2 (l.highWater family)
    refine ⟨forall_mem_cons.mpr ⟨⟨hw', hhw', List.le_trans hself hle'⟩, hall⟩,
      fun hw h => ⟨hw', hhw', ?_⟩, nofun⟩
    exact List.le_trans (hprev hw h) hle'

/-- What the mark of a family says, where `present` was there before and `seen` was seen. -/
structure Marked (present seen : List Key) (l : BulkLatch) (family : Key) : Prop where
  fresh : l.highWater family = none → l.state family = none ∨ l.state family = some (.probing 0)
  unseen : l.highWater family = none → seen = []
  above : ∀ hw, l.highWater family = some hw → l.state family ≠ some .dead →
    ∀ key ∈ present ++ seen, key ≤ hw

variable {present : List Key} {spanning : Bool}

/-- **Judging a batch** keeps the mark above everything, if the first batch is compared with
the store or reaches above it. -/
theorem Marked.classifyFamily (h : Marked present seen l family)
    (hfirst : l.highWater family = none → ops ≠ [] →
      (max = largest present ∧ spanning = false ∧ ∀ p ∈ ops, p.1 = true) ∨
      ∀ key ∈ present, ∃ p ∈ ops, key ≤ p.2) :
    Marked present (seen ++ ops.map Prod.snd) (l.classifyFamily family ops spanning max) family := by
  by_cases hdead : l.state family = some .dead
  · have heq : l.classifyFamily family ops spanning max = l := by simp [BulkLatch.classifyFamily, hdead]
    rw [heq]
    refine ⟨h.fresh, fun hnone => ?_, fun _ _ hlive => absurd hdead hlive⟩
    have hfresh := h.fresh hnone
    simp [hdead] at hfresh
  obtain ⟨hall, hold, hnil⟩ := ratchet_all l family ops
  have hstate : (l.state family).getD (.probing 0) ≠ .dead := by
    cases hs : l.state family with
    | none => exact nofun
    | some st => exact fun heq => hdead (hs.trans (congrArg some heq))
  obtain ⟨next, heq, hkill⟩ : ∃ next, l.classifyFamily family ops spanning max =
      { ops.foldl (fun l op => l.ratchet family op.2) l with
        state := Function.update l.state family (some next) } ∧
      (l.judge family ops spanning max = .ineligible →
        next = .probing 0 ∨ l.state family = some .latched) ∧
      (l.judge family ops spanning max = .kill → next = .dead) := by
    simp only [BulkLatch.classifyFamily, if_neg hstate]
    refine ⟨_, rfl, ?_⟩
    cases l.judge family ops spanning max <;> cases hs : l.state family with
    | none => simp
    | some st => cases st <;> simp
  rw [heq]
  generalize ops.foldl (fun l op => l.ratchet family op.2) l = r at hall hold hnil
  by_cases hops : ops = []
  · obtain rfl := hnil hops
    subst hops
    have hineligible : r.judge family [] spanning max = .ineligible := by cases spanning <;> rfl
    rw [map_nil, append_nil]
    refine ⟨fun hnone => ?_, h.unseen, fun hw hhw _ => h.above hw hhw hdead⟩
    rcases hkill.1 hineligible with hnext | hlatched
    · simp [hnext]
    · have hfresh := h.fresh hnone
      simp [hlatched] at hfresh
  · obtain ⟨p, hp⟩ := exists_mem_of_ne_nil _ hops
    obtain ⟨hw, hhw, _⟩ := hall p hp
    have hsome : r.highWater family ≠ none := by rw [hhw]; exact nofun
    refine ⟨fun hnone => absurd hnone hsome, fun hnone => absurd hnone hsome,
      fun hw' hhw' hlive key hkey => ?_⟩
    have hops' : ∀ q ∈ ops, q.2 ≤ hw' := by
      intro q hq
      obtain ⟨_, hq', hle⟩ := hall q hq
      rwa [← Option.some.inj (hhw'.symm.trans hq')] at hle
    rw [← append_assoc] at hkey
    rcases mem_append.mp hkey with hkey | hkey
    · cases hmark : l.highWater family with
      | some m =>
        obtain ⟨_, hm', hle⟩ := hold m hmark
        rw [← Option.some.inj (hhw'.symm.trans hm')] at hle
        exact List.le_trans (h.above m hmark hdead key hkey) hle
      | none =>
        rw [h.unseen hmark, append_nil] at hkey
        rcases hfirst hmark hops with ⟨rfl, rfl, hputs⟩ | hreach
        · -- puts compared with the store: in order, since the family is alive
          have hjudge : l.judge family ops false (largest present) = .admissible := by
            cases hv : l.judge family ops false (largest present) with
            | admissible => rfl
            | ineligible => exact absurd hv (judge_puts hputs hops)
            | kill => exact absurd (by rw [hkill.2 hv]; simp) hlive
          obtain ⟨m, hmax, hle⟩ := exists_largest hkey
          have hlt := (judge_admissible hjudge).2.2.2 m (by rw [hmark, hmax]; rfl) p hp
          exact List.le_trans hle (List.le_trans (List.le_of_lt hlt) (hops' p hp))
        · obtain ⟨q, hq, hle⟩ := hreach key hkey
          exact List.le_trans hle (hops' q hq)
    · obtain ⟨q, hq, rfl⟩ := mem_map.mp hkey
      exact hops' q hq

end Mark

/-! ### Calls -/

section Calls
variable {present : Key → List Key} {l : BulkLatch}

theorem ratchet_other {family f : Key} (hne : f ≠ family) (ops : List (Bool × Key)) :
    (ops.foldl (fun l op => l.ratchet family op.2) l).highWater f = l.highWater f := by
  induction ops generalizing l with
  | nil => rfl
  | cons p ops ih => exact (@ih (l.ratchet family p.2)).trans (Function.update_of_ne hne ..)

theorem classifyFamily_other {family f : Key} (hne : f ≠ family) (ops : List (Bool × Key))
    (spanning : Bool) (max : Option Key) :
    (l.classifyFamily family ops spanning max).state f = l.state f ∧
      (l.classifyFamily family ops spanning max).highWater f = l.highWater f := by
  simp only [BulkLatch.classifyFamily]
  split
  · exact ⟨rfl, rfl⟩
  · exact ⟨Function.update_of_ne hne .., ratchet_other hne ops⟩

theorem observeLatchedSpan_cases (l : BulkLatch) (family : Key) (keys : List Key) :
    (l.observeLatchedSpan family keys).1 = l.classifyFamily family
    (keys.map fun key => (true, key)) false none ∧
        (l.observeLatchedSpan family keys).2 = l.routeFamily family
        (keys.map fun key => (true, key)) false none ∨
      l.isLatched family = true ∧ (keys = [] ∧ (l.observeLatchedSpan family keys).1 = l ∨
          ∃ first last, keys.head? = some first ∧ keys.getLast? = some last ∧ keys.IsChain (· < ·) ∧
            (∀ hw, l.highWater family = some hw → hw < first) ∧
            (l.observeLatchedSpan family keys).1 = l.ratchet family last) := by
  rw [BulkLatch.observeLatchedSpan]
  split
  · rename_i hlatched
    split
    · rename_i first last hfirst hlast
      split
      · rename_i hfast
        simp only [Bool.and_eq_true, decide_eq_true_eq, Bool.not_eq_true'] at hfast
        refine .inr ⟨hlatched, .inr ⟨first, last, hfirst, hlast, hfast.1, fun hw hhw => ?_, rfl⟩⟩
        exact List.not_le.mp fun hle => by simp [hhw, hle] at hfast
      · exact .inl ⟨rfl, rfl⟩
    · rename_i hnone
      refine .inr ⟨hlatched, .inl ⟨?_, rfl⟩⟩
      cases keys with
      | nil => rfl
      | cons key keys => exact absurd (getLast?_eq_some_getLast (cons_ne_nil key keys)) (hnone _ _ rfl)
  · exact .inl ⟨rfl, rfl⟩

theorem le_last (h : keys.IsChain (· < ·)) {last : Key} (hlast : keys.getLast? = some last) :
    ∀ key ∈ keys, key ≤ last := by
  obtain ⟨ys, rfl⟩ := getLast?_eq_some_iff.mp hlast
  refine forall_mem_append.mpr ⟨fun key hkey => ?_, forall_mem_singleton.mpr (List.le_refl _)⟩
  exact List.le_of_lt ((pairwise_append.mp (nodup_of_chain h).1).2.2 key hkey last (mem_singleton_self _))

theorem Marked.latched {present : List Key} {family : Key} (h : Marked present seen l family)
    (hlatched : l.isLatched family = true) :
    ∃ hw, l.highWater family = some hw := by
  cases hmark : l.highWater family with
  | some hw => exact ⟨hw, rfl⟩
  | none =>
    have hstate : l.state family = some .latched := by simpa [isLatched] using hlatched
    have hfresh := h.fresh hmark
    simp [hstate] at hfresh

theorem Marked.span {present : List Key} {family : Key} (h : Marked present seen l family)
    (hlatched : l.isLatched family = true)
    (hchain : keys.IsChain (· < ·)) {last : Key} (hlast : keys.getLast? = some last) :
    Marked present (seen ++ keys) (l.ratchet family last) family := by
  have hmark : (l.ratchet family last).highWater family = some (maxKey last (l.highWater family)) :=
    Function.update_self ..
  obtain ⟨hself, hprev⟩ := le_maxKey last (l.highWater family)
  obtain ⟨m, hm⟩ := h.latched hlatched
  refine ⟨fun hnone => ?_, fun hnone => ?_, fun hw hhw hlive key hkey => ?_⟩
  · rw [hmark] at hnone
    cases hnone
  · rw [hmark] at hnone
    cases hnone
  · obtain rfl := Option.some.inj (hmark.symm.trans hhw)
    rw [← append_assoc] at hkey
    rcases mem_append.mp hkey with hkey | hkey
    · exact List.le_trans (h.above m hm hlive key hkey) (hprev m hm)
    · exact List.le_trans (le_last hchain hlast key hkey) hself

theorem Marked.call {f : Key} {c : Call} (h : Marked (present f) seen l f)
    (hcovers : c.covers present l = true) :
    Marked (present f) (seen ++ if c.family = f then c.ops.map Prod.snd else [])
    (c.run present l).1 f := by
  have hcases : ∀ family keys, _ := observeLatchedSpan_cases l
  by_cases hfam : c.family = f
  · subst hfam
    rw [if_pos rfl]
    have hfirst : l.highWater c.family = none → c.ops ≠ [] → c.consults = true ∨
        ∀ key ∈ present c.family, ∃ p ∈ c.ops, key ≤ p.2 := by
      intro hnone hne
      simpa [Call.covers, hnone, hne] using hcovers
    cases c with
    | classifyFamily family ops spanning =>
      refine h.classifyFamily fun hnone hne => (hfirst hnone hne).imp_left fun hconsults => ?_
      simp only [Call.consults, Bool.and_eq_true, Bool.not_eq_true', all_eq_true] at hconsults
      exact ⟨rfl, hconsults⟩
    | observeLatchedSpan family keys =>
      have hkeys : (Call.observeLatchedSpan family keys).ops.map Prod.snd = keys := by
        simp [Call.ops, Function.comp_def]
      rcases hcases family keys with ⟨heq, _⟩ |
        ⟨hlatched, ⟨rfl, heq⟩ | ⟨first, last, _, hlast, hchain, _, heq⟩⟩ <;> rw [Call.run, heq]
      · exact h.classifyFamily fun hnone hne => .inr ((hfirst hnone hne).resolve_left nofun)
      · simpa [Call.ops] using h
      · rw [hkeys]
        exact h.span hlatched hchain hlast
  · rw [if_neg hfam, append_nil]
    have hsame : (c.run present l).1.state f = l.state f ∧
        (c.run present l).1.highWater f = l.highWater f := by
      cases c with
      | classifyFamily family ops spanning => exact classifyFamily_other (Ne.symm hfam) ..
      | observeLatchedSpan family keys =>
        rcases hcases family keys with ⟨heq, _⟩ |
          ⟨_, ⟨_, heq⟩ | ⟨_, _, _, _, _, _, heq⟩⟩ <;> rw [Call.run, heq]
        · exact classifyFamily_other (Ne.symm hfam) ..
        · exact ⟨rfl, rfl⟩
        · exact ⟨rfl, Function.update_of_ne (Ne.symm hfam) ..⟩
    exact ⟨hsame.1 ▸ hsame.2 ▸ h.fresh, hsame.2 ▸ h.unseen, hsame.1 ▸ hsame.2 ▸ h.above⟩

/-- What the calls showed of a family. -/
def shownOf (f : Key) (calls : List Call) : List Key :=
  calls.flatMap fun c => if c.family = f then c.ops.map Prod.snd else []

theorem Marked.run {f : Key} {calls : List Call} {l' : BulkLatch} (h : Marked (present f) seen l f)
    (hok : Runs.Along (step present) (fun l c => c.covers present l) l calls = true)
    (hrun : Runs.exec (step present) l calls = some l') :
    Marked (present f) (seen ++ shownOf f calls) l' f := by
  induction calls generalizing l seen with
  | nil =>
    cases hrun
    simpa [shownOf] using h
  | cons c calls ih =>
    simp only [Runs.Along, step, Bool.and_eq_true] at hok
    have hrest := ih (h.call hok.1) hok.2 hrun
    simpa [shownOf] using hrest

/-- **What is sent to a run lies above everything.** In every sequence of batches and spans
in which the first thing seen of each family is compared with the store, or reaches above
it, a family that is sent to its run has puts only, of different keys, above all keys that
the family held before and all that were seen of it in earlier batches. -/
theorem bulk_above_everything (physicalCfs : List Key) (present : Key → List Key)
    (earlier : List Observation) (o : Observation)
    {before after : List Call} {c : Call} (hcalls : o.calls physicalCfs = before ++ c :: after)
    {l : BulkLatch}
    (hok : Runs.Along (Call.step present) (fun l c =>
      c.covers present l) .new (earlier.flatMap (·.calls physicalCfs) ++ before) = true)
    (hrun : Runs.exec (Call.step present) .new (earlier.flatMap (·.calls physicalCfs) ++ before) = some l)
    (hroute : (c.run present l).2 = .bulk) :
    (∀ p ∈ c.ops, p.1 = true) ∧ (c.ops.map Prod.snd).Nodup ∧ ∀ p ∈ c.ops,
      (∀ key ∈ present c.family, key < p.2) ∧
        ∀ o' ∈ earlier, ∀ c' ∈ o'.calls physicalCfs, c'.family = c.family → ∀ q ∈ c'.ops, q.2 < p.2 := by
  have hmarked : Marked (present c.family)
      (shownOf c.family (earlier.flatMap (·.calls physicalCfs) ++ before)) l c.family := by
    have hnew : Marked (present c.family) [] .new c.family :=
      ⟨fun _ => .inl rfl, fun _ => rfl, fun _ h => nomatch h⟩
    exact hnew.run hok hrun
  -- above the mark is above everything
  have habove : ∀ hw, l.highWater c.family = some hw → l.state c.family ≠ some .dead →
    ∀ p : Bool × Key, hw < p.2 →
      (∀ key ∈ present c.family, key < p.2) ∧
        ∀ o' ∈ earlier, ∀ c' ∈ o'.calls physicalCfs, c'.family = c.family → ∀ q ∈ c'.ops, q.2 < p.2 := by
    intro hw hhw hlive p hlt
    have hle := hmarked.above hw hhw hlive
    refine ⟨fun key hkey => List.lt_of_le_of_lt (hle key (mem_append_left _ hkey)) hlt,
      fun o' ho' c' hc' hfam q hq => ?_⟩
    refine List.lt_of_le_of_lt (hle q.2 (mem_append_right _ (mem_flatMap.mpr ⟨c', ?_, ?_⟩))) hlt
    · exact mem_append_left _ (mem_flatMap.mpr ⟨o', ho', hc'⟩)
    · rw [if_pos hfam]
      exact mem_map_of_mem hq
  -- a family that is judged and sent to its run has a mark
  have hjudged : ∀ {ops spanning max},
    l.routeFamily c.family ops spanning max = .bulk → (∀ p ∈ ops, p.1 = true) ∧
      (ops.map Prod.snd).Nodup ∧ ∀ p ∈ ops, ∃ hw, l.highWater c.family = some hw ∧
      l.state c.family ≠ some .dead ∧ hw < p.2 := by
    intro ops spanning max hbulk
    rw [BulkLatch.routeFamily] at hbulk
    split at hbulk
    · rename_i hroute
      obtain ⟨hlive, hjudge, hlatched⟩ := hroute
      obtain ⟨_, hputs, hnodup, hlt⟩ := judge_admissible hjudge
      refine ⟨hputs, hnodup, fun p hp => ?_⟩
      cases hmark : l.highWater c.family with
      | some hw => exact ⟨hw, rfl, hlive, hlt hw (by rw [hmark]; rfl) p hp⟩
      | none =>
        rcases hmarked.fresh hmark with hstate | hstate <;>
          simp [BulkLatch.isLatched, BulkLatch.classifyFamily, hjudge, hstate, bulkLatchStreak]
          at hlatched
    · cases hbulk
  cases c with
  | classifyFamily family ops spanning =>
    obtain ⟨hputs, hnodup, hlt⟩ := hjudged hroute
    refine ⟨hputs, hnodup, fun p hp => ?_⟩
    obtain ⟨hw, hhw, hlive, hlt⟩ := hlt p hp
    exact habove hw hhw hlive p hlt
  | observeLatchedSpan family keys =>
    rcases observeLatchedSpan_cases l family keys with ⟨_, heq⟩ |
      ⟨hlatched, ⟨rfl, _⟩ | ⟨first, last, hhead, _, hchain, hmark, _⟩⟩
    · obtain ⟨hputs, hnodup, hlt⟩ := hjudged (heq ▸ hroute)
      refine ⟨hputs, hnodup, fun p hp => ?_⟩
      obtain ⟨hw, hhw, hlive, hlt⟩ := hlt p hp
      exact habove hw hhw hlive p hlt
    · simp [Call.ops]
    · have hstate : l.state family = some .latched := by simpa [BulkLatch.isLatched] using hlatched
      obtain ⟨hw, hhw⟩ := hmarked.latched hlatched
      obtain ⟨rest, rfl⟩ : ∃ rest, keys = first :: rest := head?_eq_some_iff.mp hhead
      obtain ⟨hpair, hnodup⟩ := nodup_of_chain hchain
      refine ⟨by simp [Call.ops], by simpa [Call.ops, Function.comp_def] using hnodup, fun p hp => ?_⟩
      refine habove hw hhw (by rw [show (Call.observeLatchedSpan family (first :: rest)).family =
        family from rfl, hstate]; exact nofun) p ?_
      obtain ⟨key, hkey, rfl⟩ := mem_map.mp hp
      rcases mem_cons.mp hkey with rfl | hkey
      · exact hmark hw hhw
      · exact List.lt_trans (hmark hw hhw) ((pairwise_cons.mp hpair).1 key hkey)

/-- The store has `9` and the first thing that is seen is a deletion of `1`. Nothing compares
the puts that follow with the store, and the eighth is sent to a run below it. -/
theorem bulk_below_store : ∃ l, Runs.exec (Call.step fun _ => [[9]]) .new
        ((Observation.classifyBatch [.delete [1]] :: [2, 3, 4, 5, 6, 7, 8].map fun k =>
          .classifyBatch [.put [k] [5]]).flatMap
          (Observation.calls [])) = some l ∧
      (Observation.classifyBatch [.put [8, 1] [5]]).calls [] =
      [.classifyFamily defaultFamily [(true, [8, 1])] false] ∧
      ((Call.classifyFamily defaultFamily [(true, [8, 1])] false).run (fun _ => [[9]]) l).2 = .bulk :=
  ⟨_, rfl, by decide, by decide⟩

/-- A family that starts with puts above its store, and has a deletion later. -/
def risingPuts : List Observation :=
  [2, 3, 4, 5, 6, 7, 8, 9].map (fun k => .classifyBatch [.put [k] [5]]) ++ [.classifyBatch [.delete [3]]]

theorem bulk_above_everything_latched :
    ∃ l, Runs.exec (Call.step fun _ => [[1]]) .new (risingPuts.flatMap (Observation.calls []) ++
      []) = some l ∧
      ∀ p ∈ (Call.observeLatchedSpan defaultFamily [[10], [11]]).ops, ∀ key ∈ ([[1]] : List Key),
      key < p.2 := by
  refine ⟨_, rfl, fun p hp => ?_⟩
  exact ((@bulk_above_everything [] (fun _ => [[1]]) risingPuts
    (.observeLatchedSpan defaultFamily [[10], [11]]) [] [] _ rfl _
    (by decide) rfl (by decide)).2.2 p hp).1

end Calls

end PedraDb.Ingest
