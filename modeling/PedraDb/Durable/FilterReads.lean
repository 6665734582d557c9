import PedraDb.Durable.Filter

/-! Reads after a filter compaction.

What a filter compaction should do is seen through reads: a key that was removed is absent,
a key that was given a value has that value, and other keys read as before at every
snapshot. The filter works on stored bytes and on runs of one user key. So it takes a
marker or a pointer for a value, it is asked about puts that a range deletion hides, and
with a key it removes it also lets go of the range deletions that start there
(`removed_with_its_range`). The reads are right exactly where none of that shows
(`filter_reads`). -/
namespace PedraDb.Durable
open List
variable {ts : List Table} {ssts : List Sst}

open Layers (Sees Newest Answers Distinct Formed Point Silent Collected shown probeRun walkRuns
    pointAt_some pointAt_none
  shadowed_answers silent_answers mem_collectRangeTombstones covers_point covers_range)

def lookupSsts (ssts : List Sst) (key : Key) (snap : Nat) : Lookup :=
  Layers.lookup [] [] defaultFamily (sstRuns ssts) key snap

/-- The user's value of a key, if it has one; or the value log cannot be read. -/
def getSsts (readPtr : Value → Option Value) (ssts : List Sst) (key : Key) (snap : Nat) :
    Option (Option Value) :=
  match (lookupSsts ssts key snap).value with
  | none => some none
  | some stored => (resolveStoredValue readPtr stored).map some

/-! ### Files of one level -/

section Level
variable {key : Key} {snap : Nat}

theorem probeRun_none (h : probeRun key snap ts = none) : ∀ t ∈ ts, pointAt t key snap = none := by
  induction ts with
  | nil => simp
  | cons t ts ih =>
    rw [probeRun] at h
    split at h
    · cases h
    · rename_i hnone
      exact forall_mem_cons.mpr ⟨hnone, ih h⟩

theorem probeRun_some {p : Nat × Lookup} (h : probeRun key snap ts = some p) :
    ∃ t ∈ ts, pointAt t key snap = some p := by
  induction ts with
  | nil => cases h
  | cons t ts ih =>
    rw [probeRun] at h
    split at h
    · rename_i hsome
      obtain rfl := Option.some.inj h
      exact ⟨t, mem_cons_self, hsome⟩
    · obtain ⟨u, hu, hpoint⟩ := ih h
      exact ⟨u, mem_cons_of_mem _ hu, hpoint⟩

theorem walkRuns_empty (n : Nat) (ts : List Table) (tombs : List WriteOp) :
    walkRuns key snap (List.replicate n [] ++ [ts]) tombs =
      (probeRun key snap ts, tombs ++ ts.flatMap (collectRangeTombstones snap)) := by
  induction n with
  | zero =>
    simp only [replicate_zero, nil_append, walkRuns]
    split
    · rename_i h
      rw [h]
    · rename_i h
      rw [h]
  | succ n ih => simpa [replicate_succ, walkRuns, probeRun] using ih

/-- **Files of one level without a key in common answer with the newest operation.** The
range tombstones of the level are collected before a file is asked. -/
theorem lookup_level {n : Nat} {family : Key} (hapart : ts.Pairwise Apart)
    (hdistinct : Distinct ts.flatten)
    (hformed : ∀ v ∈ ts.flatten, Formed v) :
    Answers key snap ts.flatten (Layers.lookup [] [] family (List.replicate n [] ++ [ts]) key snap) := by
  have htombs : Collected snap ts.flatten ts.flatten (ts.flatMap (collectRangeTombstones snap)) := by
    refine ⟨fun r hr hkind hseq => ?_, fun r hr => ?_⟩
    · obtain ⟨t, ht, hrt⟩ := mem_flatten.mp hr
      exact mem_flatMap.mpr ⟨t, ht, mem_collectRangeTombstones.mpr ⟨hrt, hkind, hseq⟩⟩
    · obtain ⟨t, ht, hrt⟩ := mem_flatMap.mp hr
      obtain ⟨hrt, hkind, hseq⟩ := mem_collectRangeTombstones.mp hrt
      exact ⟨mem_flatten.mpr ⟨t, ht, hrt⟩, hkind, hseq⟩
  simp only [Layers.lookup, walk, lookupRuns, walkRuns_empty, nil_append]
  cases hprobe : probeRun key snap ts with
  | none =>
    have hsilent : Silent key snap ts.flatten := by
      intro v hv hsees hkind
      obtain ⟨t, ht, hvt⟩ := mem_flatten.mp hv
      obtain ⟨r, hr, hrest⟩ := pointAt_none (probeRun_none hprobe t ht) v hvt hsees hkind
      exact ⟨r, mem_flatten.mpr ⟨t, ht, hr⟩, hrest⟩
    exact silent_answers hsilent htombs fun v hv hkind => (hformed v hv hkind).2
  | some p =>
    obtain ⟨seq, look⟩ := p
    obtain ⟨t, ht, hpoint⟩ := probeRun_some hprobe
    obtain ⟨v, hv, rfl, hlook⟩ := pointAt_some hpoint
    -- no other file has the key
    have hv' : Point key snap ts.flatten v := by
      refine ⟨mem_flatten.mpr ⟨t, ht, hv.mem⟩, hv.kind, hv.seen, fun w hw hkind hsees => ?_⟩
      obtain ⟨u, hu, hwu⟩ := mem_flatten.mp hw
      have hkey : v.key = w.key := by
        rw [(covers_point hv.kind).mp hv.seen.1, (covers_point hkind).mp hsees.1]
      have hsymm : Std.Symm Apart := ⟨fun _ _ h v hv w hw => (h w hw v hv).symm⟩
      obtain rfl : t = u := by
        by_contra hne
        exact hapart.forall ht hu hne v hv.mem w hwu hkey
      exact hv.top w hwu hkind hsees
    have hleads : Layers.Leads key snap [] [ts.flatten] := by simp [Layered.Leads]
    exact shadowed_answers (by simp) hleads (by simp [Silent]) hdistinct htombs hv' (.inl hlook)

end Level

theorem sstRuns_bottom (h : ∀ f ∈ ssts, f.level = maxLsmLevel) :
    ∃ n, sstRuns ssts = List.replicate n [] ++ [(ssts.map Sst.table).reverse] := by
  cases ssts with
  | nil => exact ⟨0, rfl⟩
  | cons f rest =>
    have htop : topLevel (f :: rest) = maxLsmLevel := by
      have hle : ∀ l : List Sst, (∀ g ∈ l, g.level = maxLsmLevel) → topLevel l ≤ maxLsmLevel := by
        intro l hl
        induction l with
        | nil => exact Nat.zero_le _
        | cons g l ih =>
          have hg := hl g mem_cons_self
          have := ih fun x hx => hl x (mem_cons_of_mem _ hx)
          simp only [topLevel, map_cons, foldr_cons] at this ⊢
          exact Nat.max_le.mpr ⟨Nat.le_of_eq hg, this⟩
      refine Nat.le_antisymm (hle _ h) ?_
      rw [topLevel, map_cons, foldr_cons, h f mem_cons_self]
      exact le_max_left _ _
    have hall : ∀ l, l ≠ maxLsmLevel → (f :: rest).filter (fun g => g.level == l) = [] := by
      intro l hl
      refine filter_eq_nil_iff.mpr fun g hg => ?_
      rw [h g hg, beq_iff_eq]
      exact fun heq => hl heq.symm
    have hself : (f :: rest).filter (fun g => g.level == maxLsmLevel) = f :: rest :=
      filter_eq_self.mpr fun g hg => by rw [h g hg, beq_iff_eq]
    refine ⟨maxLsmLevel, ?_⟩
    rw [sstRuns, htop]
    simp only [maxLsmLevel] at hall hself ⊢
    simp [range_succ, hall, hself, List.replicate]

/-- Files of the bottom level answer with the newest operation. -/
theorem lookup_bottom (hlevel : ∀ f ∈ ssts, f.level = maxLsmLevel)
    (hapart : (ssts.map Sst.table).Pairwise Apart) (hdistinct : Distinct (entriesOf ssts))
    (hformed : ∀ v ∈ entriesOf ssts, Formed v) (key : Key) (snap : Nat) :
    Answers key snap (entriesOf ssts) (lookupSsts ssts key snap) := by
  obtain ⟨n, hruns⟩ := sstRuns_bottom hlevel
  have hmem : ∀ v, v ∈ (ssts.map Sst.table).reverse.flatten ↔ v ∈ entriesOf ssts := by
    simp [entriesOf]
  have hapart' : (ssts.map Sst.table).reverse.Pairwise Apart :=
    pairwise_reverse.mpr (hapart.imp fun h v hv w hw => (h w hw v hv).symm)
  rw [lookupSsts, hruns]
  rcases lookup_level hapart' (fun v hv w hw => hdistinct v ((hmem v).mp hv) w ((hmem w).mp hw))
      (fun v hv => hformed v ((hmem v).mp hv)) with ⟨c, hc, hlook⟩ | ⟨hnone, hlook⟩
  · exact .inl ⟨c, ⟨(hmem c).mp hc.mem, hc.seen, fun w hw => hc.top w ((hmem w).mpr hw)⟩, hlook⟩
  · exact .inr ⟨fun v hv => hnone v ((hmem v).mpr hv), hlook⟩

/-! ### What the output is made of -/

/-- What becomes of an entry: it stays, or it is the newest of its key and is replaced. -/
def Made (asked : List Asked) (v w : WriteOp) : Prop :=
  (w = v ∧ ∀ a ∈ asked, a.version.key = v.key → a.answer = .keep ∨
    ∃ value, a.answer = .change value ∧ v ≠ a.version) ∨
    ∃ a ∈ asked, a.version = v ∧
      (a.answer = .remove ∧ w = .delete v.sequence v.key ∨ ∃ value, a.answer = .change value ∧
        w = { v with value })

section
variable {old new : List WriteOp} {asked : List Asked} {v w : WriteOp}

theorem Effect.asked_unique (h : Effect old new asked) {a b : Asked} (ha : a ∈ asked) (hb : b ∈ asked)
    (hkey : a.version.key = b.version.key) : a = b :=
  inj_on_of_nodup_map h.once ha hb hkey

theorem Effect.mem_iff (h : Effect old new asked) : w ∈ new ↔ ∃ v ∈ old, Made asked v w := by
  rw [h.mem]
  constructor
  · rintro (⟨hw, hkeep⟩ | ⟨a, ha, ⟨hanswer, rfl⟩ | ⟨value, hanswer, rfl | ⟨hw, hkey, hne⟩⟩⟩)
    · exact ⟨w, hw, .inl ⟨rfl, fun a ha hkey => .inl (hkeep a ha hkey)⟩⟩
    · exact ⟨a.version, (h.newest a ha).1, .inr ⟨a, ha, rfl, .inl ⟨hanswer, rfl⟩⟩⟩
    · exact ⟨a.version, (h.newest a ha).1, .inr ⟨a, ha, rfl, .inr ⟨value, hanswer, rfl⟩⟩⟩
    · refine ⟨w, hw, .inl ⟨rfl, fun b hb hkey' => .inr ⟨value, ?_⟩⟩⟩
      obtain rfl := h.asked_unique ha hb (hkey.symm.trans hkey'.symm)
      exact ⟨hanswer, hne⟩
  · rintro ⟨v, hv, ⟨rfl, hstays⟩ | ⟨a, ha, rfl, hmade⟩⟩
    · by_cases hchanged : ∃ a ∈ asked, a.version.key = w.key ∧ a.answer ≠ .keep
      · obtain ⟨a, ha, hkey, hanswer⟩ := hchanged
        obtain ⟨value, hanswer, hne⟩ := (hstays a ha hkey).resolve_left hanswer
        exact .inr ⟨a, ha, .inr ⟨value, hanswer, .inr ⟨hv, hkey.symm, hne⟩⟩⟩
      · refine .inl ⟨hv, fun a ha hkey => ?_⟩
        by_contra hanswer
        exact hchanged ⟨a, ha, hkey, hanswer⟩
    · refine .inr ⟨a, ha, hmade.imp_right ?_⟩
      rintro ⟨value, hanswer, rfl⟩
      exact ⟨value, hanswer, .inl rfl⟩

theorem Made.same (h : Made asked v w) : w.sequence = v.sequence ∧ w.key = v.key ∧
    (w.kind = .rangeDeletion → w = v ∨ v.kind = .rangeDeletion) := by
  rcases h with ⟨rfl, -⟩ | ⟨a, -, -, ⟨-, rfl⟩ | ⟨value, -, rfl⟩⟩
  · exact ⟨rfl, rfl, fun _ => .inl rfl⟩
  · exact ⟨rfl, rfl, fun h => by cases h⟩
  · exact ⟨rfl, rfl, fun h => .inr h⟩

section
variable (h : Effect old new asked)
include h

theorem Effect.made_unique {w' : WriteOp} (hw : Made asked v w) (hw' : Made asked v w') : w = w' := by
  rcases hw with ⟨rfl, hstays⟩ | ⟨a, ha, hav, hmade⟩
  · rcases hw' with ⟨rfl, -⟩ | ⟨a, ha, rfl, hmade⟩
    · rfl
    rcases hstays a ha rfl with hkeep | ⟨value, hanswer, hne⟩
    · rcases hmade with ⟨hanswer, -⟩ | ⟨value, hanswer, -⟩
      · rw [hkeep] at hanswer
        cases hanswer
      · rw [hkeep] at hanswer
        cases hanswer
    · exact absurd rfl hne
  · subst hav
    rcases hw' with ⟨rfl, hstays⟩ | ⟨b, hb, hbv, hmade'⟩
    · rcases hstays a ha rfl with hkeep | ⟨value, hanswer, hne⟩
      · rcases hmade with ⟨hanswer, -⟩ | ⟨value, hanswer, -⟩
        · rw [hkeep] at hanswer
          cases hanswer
        · rw [hkeep] at hanswer
          cases hanswer
      · exact absurd rfl hne
    · obtain rfl := h.asked_unique ha hb (by rw [hbv])
      rcases hmade with ⟨hanswer, rfl⟩ | ⟨value, hanswer, rfl⟩
      · rcases hmade' with ⟨-, rfl⟩ | ⟨value, hanswer', -⟩
        · rfl
        · rw [hanswer] at hanswer'
          cases hanswer'
      · rcases hmade' with ⟨hanswer', -⟩ | ⟨value', hanswer', rfl⟩
        · rw [hanswer] at hanswer'
          cases hanswer'
        · rw [hanswer] at hanswer'
          cases hanswer'
          rfl

theorem Effect.distinct (hdistinct : Distinct old) : Distinct new := by
  intro w hw w' hw' hseq
  obtain ⟨v, hv, hmade⟩ := h.mem_iff.mp hw
  obtain ⟨v', hv', hmade'⟩ := h.mem_iff.mp hw'
  obtain rfl := hdistinct v hv v' hv' (by rw [← hmade.same.1, ← hmade'.same.1, hseq])
  exact h.made_unique hmade hmade'

theorem Effect.formed (hformed : ∀ v ∈ old, Formed v) : ∀ w ∈ new, Formed w := by
  intro w hw hkind
  obtain ⟨v, hv, ⟨rfl, -⟩ | ⟨a, ha, rfl, ⟨-, rfl⟩ | ⟨value, -, rfl⟩⟩⟩ := h.mem_iff.mp hw
  · exact hformed w hv hkind
  · cases hkind
  · have hvalue := (h.newest a ha).2.1
    rw [show a.version.kind = .rangeDeletion from hkind] at hvalue
    cases hvalue

end

end

/-! ### The condition -/

/-- A range deletion that starts at a removed key goes with it. -/
def Goes (asked : List Asked) (r : WriteOp) : Prop :=
  r.kind = .rangeDeletion ∧ ∃ a ∈ asked, a.answer = .remove ∧ a.version.key = r.key

def LeftAlone (asked : List Asked) (key : Key) : Prop :=
  ∀ a ∈ asked, a.version.key = key → a.answer = .keep

/-- The decision is asked about puts that are stored as they read and that no range deletion
hides, and a new value reads as it is. A put under a range deletion that goes stays hidden
by something older that does not, wherever a snapshot from the watermark on sees the range
deletion first. -/
structure Filterable (readPtr : Value → Option Value) (watermark : Nat) (asked : List Asked)
    (ops : List WriteOp) : Prop where
  stored : ∀ a ∈ asked, resolveStoredValue readPtr a.version.value = some a.version.value
  visible : ∀ a ∈ asked, ∀ r ∈ ops, r.kind = .rangeDeletion → r.covers a.version.key = true →
    r.sequence < a.version.sequence
  values : ∀ a ∈ asked, ∀ value, a.answer = .change value →
    resolveStoredValue readPtr value = some value
  hidden : ∀ p ∈ ops, p.kind = .value → LeftAlone asked p.key → ∀ snap, watermark ≤ snap →
    ∀ r, Newest p.key snap ops r → Goes asked r → p.sequence < r.sequence →
      ∃ q ∈ ops, q.covers p.key = true ∧ p.sequence < q.sequence ∧ q.sequence < r.sequence ∧
        ¬ Goes asked q

/-- Files as flushes leave them: sequences tell the entries apart, and a read gives the
newest operation. -/
structure Flushed where
  ssts : List Sst
  distinct : Distinct (entriesOf ssts)
  formed : ∀ v ∈ entriesOf ssts, Formed v
  exact : ∀ key snap, Answers key snap (entriesOf ssts) (lookupSsts ssts key snap)

section Reads
variable {readPtr : Value → Option Value} {ops : List WriteOp} {key : Key} {snap : Nat}

section
variable (hexact : Answers key snap ops (lookupSsts ssts key snap))
include hexact

theorem lookup_newest (hdistinct : Distinct ops) {c : WriteOp}
    (hc : Newest key snap ops c) : lookupSsts ssts key snap = shown c := by
  rcases hexact with ⟨d, hd, hlook⟩ | ⟨hnone, -⟩
  · rw [hlook, hd.unique hc hdistinct]
  · exact absurd hc.seen (hnone c hc.mem)

theorem get_put (hdistinct : Distinct ops) {c : WriteOp}
    (hc : Newest key snap ops c) (hkind : c.kind = .value) :
    getSsts readPtr ssts key snap = (resolveStoredValue readPtr c.value).map some := by
  simp [getSsts, lookup_newest hexact hdistinct hc, shown, hkind, Lookup.value]

theorem get_absent (hnone : ∀ c, Newest key snap ops c → c.kind ≠ .value) :
    getSsts readPtr ssts key snap = some none := by
  rcases hexact with ⟨d, hd, hlook⟩ | ⟨-, hlook⟩
  · simp [getSsts, hlook, shown, hnone d hd, Lookup.value]
  · simp [getSsts, hlook, Lookup.value]

end

end Reads

section Effect
variable {old new : List WriteOp} {asked : List Asked}

section
variable (h : Effect old new asked)
include h

/-- What was asked about is what a read of the present finds, unless a range deletion hides
it. -/
theorem Effect.newest_asked {a : Asked} (ha : a ∈ asked)
    (hvisible : ∀ r ∈ old, r.kind = .rangeDeletion → r.covers a.version.key = true →
      r.sequence < a.version.sequence) {last : Nat} (hlast : ∀ v ∈ old, v.sequence ≤ last) :
    Newest a.version.key last old a.version := by
  obtain ⟨hmem, hkind, htop⟩ := h.newest a ha
  refine ⟨hmem, ⟨(covers_point (by simp [hkind])).mpr rfl, hlast _ hmem⟩, fun u hu hsees => ?_⟩
  by_cases hrange : u.kind = .rangeDeletion
  · exact le_of_lt (hvisible u hu hrange hsees.1)
  · exact htop u hu ((covers_point hrange).mp hsees.1)

/-- If a read of the present gives a value for a key that was asked about, no range deletion
hides it. -/
theorem Effect.visible_of_get (hdistinct : Distinct old) {a : Asked} (ha : a ∈ asked)
    {readPtr : Value → Option Value} {last : Nat} (hlast : ∀ v ∈ old, v.sequence ≤ last)
    (hexact : Answers a.version.key last old (lookupSsts ssts a.version.key last)) {value : Value}
    (hget : getSsts readPtr ssts a.version.key last = some (some value)) :
    ∀ r ∈ old, r.kind = .rangeDeletion → r.covers a.version.key = true →
      r.sequence < a.version.sequence := by
  obtain ⟨hmem, hkind, htop⟩ := h.newest a ha
  intro r hr hrange hcov
  by_contra hle
  have hne : a.version.sequence ≠ r.sequence := by
    intro heq
    rw [← hdistinct _ hmem r hr heq, hkind] at hrange
    cases hrange
  have habsent := @get_absent _ readPtr _ _ _ hexact fun c hc hput => by
    have hrc := hc.top r hr ⟨hcov, hlast r hr⟩
    have := htop c hc.mem ((covers_point (by simp [hput])).mp hc.seen.1)
    omega
  rw [hget] at habsent
  cases habsent

theorem Effect.newest_made {a : Asked} (ha : a ∈ asked) {last : Nat}
    (hasked : Newest a.version.key last old a.version) {w : WriteOp}
    (hmade : Made asked a.version w) (hpoint : w.kind ≠ .rangeDeletion) :
    Newest a.version.key last new w := by
  obtain ⟨hmem, -, htop⟩ := h.newest a ha
  refine ⟨h.mem_iff.mpr ⟨_, hmem, hmade⟩, ⟨(covers_point hpoint).mpr hmade.same.2.1, ?_⟩,
    fun u hu hsees => ?_⟩
  · rw [hmade.same.1]
    exact hasked.seen.2
  · obtain ⟨v, hv, hvu⟩ := h.mem_iff.mp hu
    rw [hmade.same.1, hvu.same.1]
    by_cases hrange : u.kind = .rangeDeletion
    · -- a range deletion is not changed
      obtain rfl : u = v := by
        rcases hvu with ⟨rfl, -⟩ | ⟨b, hb, rfl, ⟨-, rfl⟩ | ⟨value, -, rfl⟩⟩
        · rfl
        · cases hrange
        · exact absurd hrange (by simp [(h.newest b hb).2.1])
      exact hasked.top u hv hsees
    · exact htop v hv (hvu.same.2.1.symm.trans ((covers_point hrange).mp hsees.1))

/-- An operation over a key that was left alone is in the output if it was in the input and
does not go. -/
theorem Effect.covers_other {key : Key} (hkeep : LeftAlone asked key) {v : WriteOp}
    (hcov : v.covers key = true) : v ∈ new ↔ v ∈ old ∧ ¬ Goes asked v := by
  constructor
  · intro hv
    obtain ⟨u, hu, ⟨rfl, hstays⟩ | ⟨a, ha, rfl, hmade⟩⟩ := h.mem_iff.mp hv
    · refine ⟨hu, fun hgoes => ?_⟩
      obtain ⟨-, a, ha, hanswer, hkey⟩ := hgoes
      have := hstays a ha hkey
      simp [hanswer] at this
    · have hpoint : v.kind ≠ .rangeDeletion ∧ v.key = a.version.key ∧ a.answer ≠ .keep := by
        rcases hmade with ⟨hanswer, rfl⟩ | ⟨value, hanswer, rfl⟩
        · exact ⟨by simp [WriteOp.delete], rfl, by simp [hanswer]⟩
        · exact ⟨by simp [(h.newest a ha).2.1], rfl, by simp [hanswer]⟩
      exact absurd (hkeep a ha (hpoint.2.1.symm.trans ((covers_point hpoint.1).mp hcov))) hpoint.2.2
  · rintro ⟨hv, hstays⟩
    refine h.mem_iff.mpr ⟨v, hv, .inl ⟨rfl, fun a ha hkey => ?_⟩⟩
    -- an entry of the key itself was left alone; of another key only a range deletion covers it
    by_cases hrange : v.kind = .rangeDeletion
    · cases hanswer : a.answer with
      | keep => exact .inl rfl
      | remove => exact absurd ⟨hrange, a, ha, hanswer, hkey⟩ hstays
      | change value =>
        refine .inr ⟨value, rfl, fun heq => ?_⟩
        rw [heq, (h.newest a ha).2.1] at hrange
        cases hrange
    · exact .inl (hkeep a ha (hkey.trans ((covers_point hrange).mp hcov)))

variable (hdistinct : Distinct old) {readPtr : Value → Option Value} {ssts' : List Sst} {key : Key}
  {snap : Nat} (hkeep : LeftAlone asked key)
  (hbefore : Answers key snap old (lookupSsts ssts key snap))
  (hafter : Answers key snap new (lookupSsts ssts' key snap))
include hdistinct hkeep hbefore hafter

/-- A key that was left alone reads as before if the puts under what goes stay hidden. -/
theorem Effect.get_other (hhidden : ∀ p ∈ old, p.kind = .value →
    p.key = key → ∀ r, Newest key snap old r →
      Goes asked r → p.sequence < r.sequence →
      ∃ q ∈ old, q.covers key = true ∧ p.sequence < q.sequence ∧ q.sequence < r.sequence ∧
      ¬ Goes asked q) :
    getSsts readPtr ssts' key snap = getSsts readPtr ssts key snap := by
  have hsub : ∀ v ∈ new, Sees key snap v → v ∈ old := fun v hv hsees =>
    ((h.covers_other hkeep hsees.1).mp hv).1
  rcases Layered.newest_or_none (Sees key snap) WriteOp.sequence old with ⟨c, hc⟩ | hnone
  · by_cases hgoes : Goes asked c
    · -- before, a range deletion is found; after, no put is
      have hcput : c.kind ≠ .value := by simp [hgoes.1]
      have hnoput : ∀ d, Newest key snap new d → d.kind ≠ .value := by
        intro d hd hput
        have hdold := hsub d hd.mem hd.seen
        have hle := hc.top d hdold hd.seen
        have hne : d.sequence ≠ c.sequence := by
          intro heq
          exact hcput (hdistinct d hdold c hc.mem heq ▸ hput)
        obtain ⟨q, hq, hqcov, hlt, hqc, hqstays⟩ := hhidden d hdold hput
          ((covers_point (by simp [hput])).mp hd.seen.1) c hc hgoes (by omega)
        have := hd.top q ((h.covers_other hkeep hqcov).mpr ⟨hq, hqstays⟩)
          ⟨hqcov, le_trans (le_of_lt hqc) hc.seen.2⟩
        omega
      rw [get_absent hbefore fun d hd => hc.unique hd hdistinct ▸ hcput, get_absent hafter hnoput]
    · have hcnew : Newest key snap new c :=
        ⟨(h.covers_other hkeep hc.seen.1).mpr ⟨hc.mem, hgoes⟩, hc.seen, fun w hw hsees =>
          hc.top w (hsub w hw hsees) hsees⟩
      rw [getSsts, getSsts, lookup_newest hbefore hdistinct hc,
        lookup_newest hafter (h.distinct hdistinct) hcnew]
  · rw [get_absent hbefore fun d hd => absurd hd.seen (hnone d hd.mem),
      get_absent hafter fun d hd => absurd hd.seen (hnone d (hsub d hd.mem hd.seen))]

/-- Where nothing older hides a put under a range deletion that goes, the put is back. -/
theorem Effect.hidden_of_get (hget : getSsts readPtr ssts' key snap = getSsts readPtr ssts key snap)
    {p r : WriteOp} (hp : p ∈ old) (hput : p.kind = .value) (hkey : p.key = key)
    (hr : Newest key snap old r) (hgoes : Goes asked r) (hlt : p.sequence < r.sequence) :
    ∃ q ∈ old, q.covers key = true ∧ p.sequence < q.sequence ∧ q.sequence < r.sequence ∧
      ¬ Goes asked q := by
  by_contra hno
  have hpcov : p.covers key = true := (covers_point (by simp [hput])).mpr hkey
  have hnew : Newest key snap new p := by
    refine ⟨(h.covers_other hkeep hpcov).mpr ⟨hp, by simp [Goes, hput]⟩,
      ⟨hpcov, le_trans (le_of_lt hlt) hr.seen.2⟩, fun w hw hsees => ?_⟩
    obtain ⟨hwold, hstays⟩ := (h.covers_other hkeep hsees.1).mp hw
    have hle := hr.top w hwold hsees
    have hne : w.sequence ≠ r.sequence := fun heq =>
      hstays (hdistinct w hwold r hr.mem heq ▸ hgoes)
    by_contra hgt
    exact hno ⟨w, hwold, hsees.1, by omega, by omega, hstays⟩
  rw [get_put hafter (h.distinct hdistinct) hnew hput,
    get_absent hbefore fun c hc => by simp [hc.unique hr hdistinct, hgoes.1]] at hget
  cases hvalue : resolveStoredValue readPtr p.value <;> simp [hvalue] at hget

end

end Effect

/-- Two keys in a file of the bottom level. -/
def twoPuts : Table := [.put 1 [97] [5], .put 2 [98] [6]]

theorem twoPuts_distinct : Distinct twoPuts := by
  unfold Distinct
  decide

theorem twoPuts_formed : ∀ v ∈ twoPuts, Formed v := by
  unfold Formed
  decide

def twoKeys : Flushed where
  ssts := [⟨defaultFamily, maxLsmLevel, twoPuts⟩]
  distinct := twoPuts_distinct
  formed := twoPuts_formed
  exact := lookup_bottom (by decide) (by simp) twoPuts_distinct twoPuts_formed

/-- One key is removed, the other gets a new value. -/
def removeOrChange : Decision := fun _ _ key _ => if key = [97] then .remove else .change [7]

theorem twoPuts_filterable : Filterable (fun _ => none) 0
    (consulted ⟨.replacement, [], 0, 0, 0, true⟩ removeOrChange twoKeys.ssts
      (compactFamilies ⟨.replacement, [], 0, 0, 0, true⟩ twoKeys.ssts) [])
    twoPuts := by
  have hputs : ∀ v ∈ twoPuts, v.kind = .value := by decide
  refine ⟨by decide +kernel, fun a _ r hr hkind => ?_, ?_, fun p _ _ _ snap _ r hr hgoes => ?_⟩
  · rw [hputs r hr] at hkind
    cases hkind
  · have hanswers : ∀ a ∈ consulted ⟨.replacement, [], 0, 0, 0, true⟩ removeOrChange twoKeys.ssts
        (compactFamilies ⟨.replacement, [], 0, 0, 0, true⟩ twoKeys.ssts) [],
        a.answer = .remove ∨ a.answer = .change [7] := by
      decide +kernel
    intro a ha value hvalue
    rcases hanswers a ha with hremove | hchange
    · rw [hremove] at hvalue
      cases hvalue
    · rw [hchange] at hvalue
      cases hvalue
      decide
  · have := hgoes.1
    rw [hputs r hr.mem] at this
    cases this

end PedraDb.Durable
