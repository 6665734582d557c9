import PedraDb.Files
import PedraDb.Library.Layered

/-! Reading through memtables, bulk runs and levels of files.

The memtables are asked one by one and each hides its own points under its own range
tombstones. A file answers with its newest point and passes over range deletions; the
tombstones of a whole level are collected before its files are asked. In both parts the
first point decides.

What a read should give is the newest operation that covers the key (`Answers`). It gives
that where the tables are in order of recency (`lookup_answers`). -/
namespace PedraDb.Layers
open List WriteOp
variable {v : WriteOp} {look : Lookup} {seq : Nat} {files : List (List Table)} {runs : List BulkRun}

/-- The first file of a level that has a point. -/
def probeRun (key : Key) (snap : Nat) : List Table → Option (Nat × Lookup)
  | [] => none
  | t :: rest =>
    match pointAt t key snap with
    | some p => some p
    | none => probeRun key snap rest

def walkRuns (key : Key) (snap : Nat) : List (List Table) → List WriteOp → Option
    (Nat × Lookup) × List WriteOp
  | [], tombs => (none, tombs)
  | run :: rest, tombs =>
    let tombs := tombs ++ run.flatMap (collectRangeTombstones snap)
    match probeRun key snap run with
    | some p => (some p, tombs)
    | none => walkRuns key snap rest tombs

/-- The visible version of `key` at `snap`: memtables, bulk runs, files by level. -/
def lookup (layers : List Table) (runs : List BulkRun) (family : Key) (files : List (List Table))
    (key : Key) (snap : Nat) : Lookup :=
  match walk key snap layers [] with
  | (some look, _) => look
  | (none, tombs) =>
    match lookupRuns key snap family tombs runs with
    | some look => look
    | none =>
      match walkRuns key snap files tombs with
      | (some (seq, look), tombs) => shadowed key seq tombs look
      | (none, tombs) => if rangeDeleted key 0 tombs then .deleted else .notFound

/-! ### What a read should give -/

/-- The operation covers the key and the snapshot sees it. -/
def Sees (key : Key) (snap : Nat) (v : WriteOp) : Prop := v.covers key = true ∧ v.sequence ≤ snap

/-- A range deletion covers its start and its sequence is above zero. -/
def Formed (v : WriteOp) : Prop := v.kind = .rangeDeletion → v.key < v.value ∧ 0 < v.sequence

abbrev Newest (key : Key) (snap : Nat) : List WriteOp → WriteOp → Prop :=
  Layered.Newest (Sees key snap) sequence

abbrev Fronts (key : Key) (snap : Nat) : List WriteOp → List Table → Prop :=
  Layered.Fronts (Sees key snap) sequence

/-- A point that is seen: a walk ends at it, while it only collects range deletions. -/
def Stops (key : Key) (snap : Nat) (v : WriteOp) : Prop := Sees key snap v ∧ v.kind ≠ .rangeDeletion

abbrev Heads (key : Key) (snap : Nat) : Table → Table → Prop :=
  Layered.Heads (Sees key snap) sequence (Stops key snap)

abbrev Leads (key : Key) (snap : Nat) : List WriteOp → List Table → Prop :=
  Layered.Leads (Sees key snap) sequence (Stops key snap)

/-- Sequences tell the operations apart. -/
def Distinct (ops : List WriteOp) : Prop := ∀ v ∈ ops, ∀ w ∈ ops, v.sequence = w.sequence → v = w

def shown (c : WriteOp) : Lookup := if c.kind = .value then .found c.value else .deleted

/-- The answer is that of the newest operation over the key, or there is none. -/
def Answers (key : Key) (snap : Nat) (ops : List WriteOp) (look : Lookup) : Prop :=
  (∃ c, Newest key snap ops c ∧ look = shown c) ∨ ((∀ v ∈ ops, ¬ Sees key snap v) ∧ look = .notFound)

variable {ops ops' : List WriteOp}

theorem Answers.eq {key : Key} {snap : Nat} {look' : Lookup}
    (h : Answers key snap ops look) (h' : Answers key snap ops' look') (hdistinct : Distinct ops)
    (hsub : ∀ v ∈ ops', Sees key snap v → v ∈ ops)
    (htop : ∀ v ∈ ops, Sees key snap v → ∃ w ∈ ops', Sees key snap w ∧ v.sequence ≤ w.sequence) :
    look = look' := by
  rcases h with ⟨c, hc, rfl⟩ | ⟨hnone, rfl⟩
  · obtain ⟨w, hw, hwsees, _⟩ := htop c hc.mem hc.seen
    rcases h' with ⟨d, hd, rfl⟩ | ⟨hnone', _⟩
    · have hd' : Newest key snap ops d := by
        refine ⟨hsub d hd.mem hd.seen, hd.seen, fun v hv hsees => ?_⟩
        obtain ⟨u, hu, husees, hle⟩ := htop v hv hsees
        exact Nat.le_trans hle (hd.top u hu husees)
      rw [hc.unique hd' hdistinct]
    · exact absurd hwsees (hnone' w hw)
  · rcases h' with ⟨d, hd, _⟩ | ⟨_, rfl⟩
    · exact absurd hd.seen (hnone d (hsub d hd.mem hd.seen))
    · rfl

/-! ### What one table answers -/

section Table
variable {t : Table} {key : Key} {snap : Nat}

theorem covers_point (hkind : v.kind ≠ .rangeDeletion) : v.covers key = true ↔ v.key = key := by
  cases hk : v.kind <;> simp_all [covers, writeOpCoversKey]

theorem covers_range (hkind : v.kind = .rangeDeletion) :
    v.covers key = rangeTombstoneCovers v.key v.value key := by
  simp [covers, writeOpCoversKey, hkind]

theorem Formed.covers_start (h : Formed v) (hkind : v.kind = .rangeDeletion) : v.covers v.key = true := by
  rw [covers_range hkind, rangeTombstoneCovers]
  simp [(h hkind).1]

/-- Every point that is seen is below a range deletion that is seen. -/
def Silent (key : Key) (snap : Nat) (ops : List WriteOp) : Prop :=
  ∀ v ∈ ops, Sees key snap v → v.kind ≠ .rangeDeletion →
    ∃ r ∈ ops, Sees key snap r ∧ r.kind = .rangeDeletion ∧ v.sequence < r.sequence

theorem Silent.append (h : Silent key snap ops) (h' : Silent key snap ops') :
    Silent key snap (ops ++ ops') := by
  intro v hv hsees hkind
  rcases mem_append.mp hv with hv | hv
  · obtain ⟨r, hr, hrest⟩ := h v hv hsees hkind
    exact ⟨r, mem_append_left _ hr, hrest⟩
  · obtain ⟨r, hr, hrest⟩ := h' v hv hsees hkind
    exact ⟨r, mem_append_right _ hr, hrest⟩

/-- The newest point of a table that is seen. -/
structure Point (key : Key) (snap : Nat) (t : Table) (v : WriteOp) : Prop where
  mem : v ∈ t
  kind : v.kind ≠ .rangeDeletion
  seen : Sees key snap v
  top : ∀ w ∈ t, w.kind ≠ .rangeDeletion → Sees key snap w → w.sequence ≤ v.sequence

theorem getEntry_none (hformed : ∀ v ∈ t, Formed v) (hdistinct : Distinct t)
    (h : getEntry t key snap = none) : Silent key snap t := by
  intro v hv hsees hkind
  obtain ⟨n, hn, hle⟩ := newestVersion_ge hv ((covers_point hkind).mp hsees.1) hsees.2
  obtain ⟨hnmem, hnkey, hnseq⟩ := newestVersion_mem hn
  have hnkind : n.kind = .rangeDeletion := by
    cases hk : n.kind with
    | rangeDeletion => rfl
    | deletion => simp [getEntry, hn, hk] at h
    | value =>
      simp only [getEntry, hn, hk] at h
      split at h <;> cases h
  have hcovers : n.covers key = true := by
    rw [← hnkey]
    exact (hformed n hnmem).covers_start hnkind
  refine ⟨n, hnmem, ⟨hcovers, hnseq⟩, hnkind, Nat.lt_of_le_of_ne hle fun heq => ?_⟩
  rw [hdistinct v hv n hnmem heq] at hkind
  exact hkind hnkind

theorem getEntry_some (h : getEntry t key snap = some (seq, look)) :
    ∃ v, Point key snap t v ∧ v.sequence = seq ∧
      (look = shown v ∨ look = .deleted ∧ rangeDeleted key seq (collectRangeTombstones snap t) =
        true) := by
  cases hn : newestVersion key snap t with
  | none => simp [getEntry, hn] at h
  | some v =>
    obtain ⟨hmem, hkey, hseq⟩ := newestVersion_mem hn
    have htop : ∀ w ∈ t, w.kind ≠ .rangeDeletion → Sees key snap w → w.sequence ≤ v.sequence := by
      intro w hw hkind hsees
      obtain ⟨n, hn', hle⟩ := newestVersion_ge hw ((covers_point hkind).mp hsees.1) hsees.2
      rw [hn] at hn'
      cases hn'
      exact hle
    cases hk : v.kind with
    | rangeDeletion => simp [getEntry, hn, hk] at h
    | deletion =>
      simp only [getEntry, hn, hk, Option.some.injEq, Prod.mk.injEq] at h
      obtain ⟨rfl, rfl⟩ := h
      exact ⟨v, ⟨hmem, by simp [hk], ⟨(covers_point (by simp [hk])).mpr hkey, hseq⟩, htop⟩, rfl,
        .inl (by simp [shown, hk])⟩
    | value =>
      have hpoint : Point key snap t v :=
        ⟨hmem, by simp [hk], ⟨(covers_point (by simp [hk])).mpr hkey, hseq⟩, htop⟩
      simp only [getEntry, hn, hk] at h
      split at h
      · rename_i hdel
        cases h
        exact ⟨v, hpoint, rfl, .inr ⟨rfl, hdel⟩⟩
      · cases h
        exact ⟨v, hpoint, rfl, .inl (by simp [shown, hk])⟩

theorem pointAt_none (h : pointAt t key snap = none) : Silent key snap t := by
  intro v hv hsees hkind
  have hmem : v ∈ t.filter fun v => v.kind != .rangeDeletion := by simp [hv, hkind]
  obtain ⟨n, hn, _⟩ := newestVersion_ge hmem ((covers_point hkind).mp hsees.1) hsees.2
  simp [pointAt, hn] at h

theorem pointAt_some (h : pointAt t key snap = some (seq, look)) :
    ∃ v, Point key snap t v ∧ v.sequence = seq ∧ look = shown v := by
  simp only [pointAt, Option.map_eq_some_iff] at h
  obtain ⟨v, hv, hpair⟩ := h
  cases hpair
  obtain ⟨hmem, hkey, hseq⟩ := newestVersion_mem hv
  simp only [mem_filter, bne_iff_ne, ne_eq] at hmem
  refine ⟨v, ⟨hmem.1, hmem.2, ⟨(covers_point hmem.2).mpr hkey, hseq⟩, ?_⟩, rfl, rfl⟩
  intro w hw hkind hsees
  have hwmem : w ∈ t.filter fun v => v.kind != .rangeDeletion := by simp [hw, hkind]
  obtain ⟨n, hn, hle⟩ := newestVersion_ge hwmem ((covers_point hkind).mp hsees.1) hsees.2
  rw [hv] at hn
  cases hn
  exact hle

end Table

/-! ### The walk -/

variable {layers : List Table} {family : Key}

section Walk
variable {key : Key} {snap : Nat}

/-- The tombstones collected are those of the operations met, within all there are. -/
structure Collected (snap : Nat) (met all : List WriteOp) (tombs : List WriteOp) : Prop where
  has : ∀ r ∈ met, r.kind = .rangeDeletion → r.sequence ≤ snap → r ∈ tombs
  within : ∀ r ∈ tombs, r ∈ all ∧ r.kind = .rangeDeletion ∧ r.sequence ≤ snap

theorem rangeDeleted_iff {tombs : List WriteOp} : rangeDeleted key seq tombs = true ↔
      ∃ r ∈ tombs, rangeTombstoneCovers r.key r.value key = true ∧ seq < r.sequence := by
  simp [rangeDeleted]

theorem mem_collectRangeTombstones {t : Table} {r : WriteOp} :
    r ∈ collectRangeTombstones snap t ↔ r ∈ t ∧ r.kind = .rangeDeletion ∧ r.sequence ≤ snap := by
  simp [collectRangeTombstones]

theorem Collected.append {met all tombs t : List WriteOp} (h : Collected snap met all tombs)
    (ht : ∀ v ∈ t, v ∈ all) :
    Collected snap (met ++ t) all (tombs ++ collectRangeTombstones snap t) := by
  refine ⟨fun r hr hkind hseq => ?_, fun r hr => ?_⟩
  · rcases mem_append.mp hr with hr | hr
    · exact mem_append_left _ (h.has r hr hkind hseq)
    · exact mem_append_right _ (mem_collectRangeTombstones.mpr ⟨hr, hkind, hseq⟩)
  · rcases mem_append.mp hr with hr | hr
    · exact h.within r hr
    · obtain ⟨hr, hkind, hseq⟩ := mem_collectRangeTombstones.mp hr
      exact ⟨ht r hr, hkind, hseq⟩

/-- **The first point decides.** It is the newest operation over the key, or a tombstone
that was collected is. -/
theorem shadowed_answers {met all t tombs : List WriteOp} {rest : List Table}
    (hall : all = met ++ (t :: rest).flatten) (hleads : Leads key snap met (t :: rest))
    (hsilent : Silent key snap met)
    (hdistinct : Distinct all) (htombs : Collected snap (met ++ t) all tombs) (hv : Point key snap t v)
    (hlook : look = shown v ∨ look = .deleted ∧ rangeDeleted key v.sequence tombs = true) :
    Answers key snap all (shadowed key v.sequence tombs look) := by
  have hstops : ∃ v ∈ t, Stops key snap v := ⟨v, hv.mem, hv.seen, hv.kind⟩
  rcases Layered.newest_or_none (Sees key snap) sequence (met ++ t) with ⟨c, hc⟩ | hnone
  swap
  · exact absurd hv.seen (hnone v (mem_append_right _ hv.mem))
  have hcall : Newest key snap all c := hall ▸ hleads.newest hstops hc
  refine .inl ⟨c, hcall, ?_⟩
  have hvmet : v ∈ met ++ t := mem_append_right _ hv.mem
  by_cases hkind : c.kind = .rangeDeletion
  · -- the newest operation is a tombstone, and it was collected
    have hlt : v.sequence < c.sequence := by
      refine Nat.lt_of_le_of_ne (hc.top v hvmet hv.seen) fun heq => ?_
      have hvall : v ∈ all := by simp [hall, hv.mem]
      exact hv.kind (hdistinct v hvall c hcall.mem heq ▸ hkind)
    have hdel : rangeDeleted key v.sequence tombs = true :=
      rangeDeleted_iff.mpr ⟨c, htombs.has c hc.mem hkind hc.seen.2, covers_range hkind ▸ hc.seen.1, hlt⟩
    have hshown : shown c = .deleted := by simp [shown, hkind]
    rcases hlook with rfl | ⟨rfl, _⟩
    · rw [hshown, shown]
      split <;> simp [shadowed, hdel]
    · rw [hshown, shadowed]
      simp
  · -- the newest operation is the point itself
    obtain rfl : c = v := by
      have hct : c ∈ t := by
        rcases mem_append.mp hc.mem with hmem | hmem
        · obtain ⟨r, hr, hrsees, _, hlt⟩ := hsilent c hmem hc.seen hkind
          have := hc.top r (mem_append_left _ hr) hrsees
          omega
        · exact hmem
      have hle := hv.top c hct hkind hc.seen
      have hge := hc.top v hvmet hv.seen
      exact hdistinct c hcall.mem v (by simp [hall, hv.mem]) (Nat.le_antisymm hle hge)
    have hdel : ¬ rangeDeleted key c.sequence tombs = true := by
      intro h
      obtain ⟨r, hr, hcovers, hlt⟩ := rangeDeleted_iff.mp h
      obtain ⟨hrall, hrkind, hrseq⟩ := htombs.within r hr
      have := hcall.top r hrall ⟨(covers_range hrkind).trans hcovers, hrseq⟩
      omega
    rcases hlook with rfl | ⟨_, h⟩
    · rw [shown]
      split
      · simp [shadowed, hdel]
      · simp [shadowed]
    · exact absurd h hdel

variable {met all tombs : List WriteOp}

theorem walk_answers {ls rest : List Table} (hall : all = met ++ (ls ++ rest).flatten)
    (hleads : Leads key snap met (ls ++ rest)) (hsilent : Silent key snap met) (hdistinct : Distinct all)
    (hformed : ∀ v ∈ ls.flatten, Formed v) (htombs : Collected snap met all tombs) :
    (∃ look tombs', walk key snap ls tombs = (some look, tombs') ∧ Answers key snap all look) ∨
      ∃ tombs', walk key snap ls tombs = (none, tombs') ∧ Silent key snap (met ++ ls.flatten) ∧
        Collected snap (met ++ ls.flatten) all tombs' := by
  induction ls generalizing met tombs with
  | nil => exact .inr ⟨tombs, rfl, by simpa using hsilent, by simpa using htombs⟩
  | cons t ls ih =>
    have htall : ∀ v ∈ t, v ∈ all := fun v hv => by simp [hall, hv]
    have htombs' := htombs.append htall
    have hdistinctt : Distinct t := fun v hv w hw => hdistinct v (htall v hv) w (htall w hw)
    simp only [walk]
    cases hentry : getEntry t key snap with
    | some p =>
      obtain ⟨seq, look⟩ := p
      obtain ⟨v, hv, rfl, hlook⟩ := getEntry_some hentry
      refine .inl ⟨_, _, rfl, shadowed_answers hall hleads hsilent hdistinct htombs' hv
        (hlook.imp_right (And.imp_right fun hd => ?_))⟩
      obtain ⟨r, hr, hrest⟩ := rangeDeleted_iff.mp hd
      exact rangeDeleted_iff.mpr ⟨r, mem_append_right _ hr, hrest⟩
    | none =>
      rw [flatten_cons] at hformed
      have hsilent' :=
        hsilent.append
        (getEntry_none (fun v hv => hformed v (mem_append_left _ hv)) hdistinctt hentry)
      rw [show met ++ (t :: ls).flatten = met ++ t ++ ls.flatten by simp]
      exact ih (by simp [hall]) hleads.2 hsilent' (fun v hv => hformed v (mem_append_right _ hv)) htombs'

theorem probeRun_answers {run rest : List Table} (hall : all = met ++ (run ++ rest).flatten)
    (hleads : Leads key snap met (run ++ rest)) (hsilent : Silent key snap met) (hdistinct : Distinct all)
    (htombs : Collected snap (met ++ run.flatten) all tombs) :
    (∃ seq look, probeRun key snap run = some (seq, look) ∧
      Answers key snap all (shadowed key seq tombs look)) ∨
      probeRun key snap run = none ∧ Silent key snap (met ++ run.flatten) := by
  induction run generalizing met with
  | nil => exact .inr ⟨rfl, by simpa using hsilent⟩
  | cons t run ih =>
    simp only [probeRun]
    cases hpoint : pointAt t key snap with
    | some p =>
      obtain ⟨seq, look⟩ := p
      obtain ⟨v, hv, rfl, hlook⟩ := pointAt_some hpoint
      refine .inl ⟨_, _, rfl, shadowed_answers hall hleads hsilent hdistinct
        ⟨fun r hr => ?_, htombs.within⟩ hv (.inl hlook)⟩
      refine htombs.has r ?_
      rw [flatten_cons, ← append_assoc]
      exact mem_append_left _ hr
    | none =>
      rw [show met ++ (t :: run).flatten = met ++ t ++ run.flatten by simp] at htombs ⊢
      exact ih (by simp [hall]) hleads.2 (hsilent.append (pointAt_none hpoint)) htombs

theorem Collected.level {run : List Table} (h : Collected snap met all tombs)
    (hrun : ∀ v ∈ run.flatten, v ∈ all) :
    Collected snap (met ++ run.flatten) all (tombs ++ run.flatMap (collectRangeTombstones snap)) := by
  have heq : run.flatMap (collectRangeTombstones snap) = collectRangeTombstones snap run.flatten := by
    simp only [flatMap_def, collectRangeTombstones, filter_flatten]
    rfl
  rw [heq]
  exact h.append hrun

theorem walkRuns_answers (runs : List (List Table)) (hall : all = met ++ runs.flatten.flatten)
    (hleads : Leads key snap met runs.flatten) (hsilent : Silent key snap met) (hdistinct : Distinct all)
    (htombs : Collected snap met all tombs) :
    (∃ seq look tombs', walkRuns key snap runs tombs = (some (seq, look), tombs') ∧
      Answers key snap all (shadowed key seq tombs' look)) ∨
      ∃ tombs', walkRuns key snap runs tombs = (none, tombs') ∧ Silent key snap all ∧
      Collected snap all all tombs' := by
  induction runs generalizing met tombs with
  | nil =>
    obtain rfl : all = met := by simpa using hall
    exact .inr ⟨tombs, rfl, hsilent, htombs⟩
  | cons run runs ih =>
    have hall' : all = met ++ (run ++ runs.flatten).flatten := by simpa using hall
    have htombs' : Collected snap (met ++ run.flatten) all
      (tombs ++ run.flatMap (collectRangeTombstones snap)) :=
      htombs.level fun v hv => by
        rw [hall', flatten_append]
        exact mem_append_right _ (mem_append_left _ hv)
    simp only [walkRuns]
    rcases probeRun_answers hall' (by simpa using hleads) hsilent hdistinct htombs' with
      ⟨seq, look, hprobe, hans⟩ | ⟨hprobe, hsilent'⟩
    · rw [hprobe]
      exact .inl ⟨seq, look, _, rfl, hans⟩
    · rw [hprobe]
      exact ih (by simp [hall]) (Layered.Leads.drop (by simpa using hleads)) hsilent' htombs'

/-- No point decided: a tombstone over the key does, or there is nothing. -/
theorem silent_answers (hsilent : Silent key snap all) (htombs : Collected snap all all tombs)
    (hpos : ∀ v ∈ all, v.kind = .rangeDeletion → 0 < v.sequence) :
    Answers key snap all (if rangeDeleted key 0 tombs then .deleted else .notFound) := by
  rcases Layered.newest_or_none (Sees key snap) sequence all with ⟨c, hc⟩ | hnone
  · have hkind : c.kind = .rangeDeletion := by
      by_contra hkind
      obtain ⟨r, hr, hrsees, _, hlt⟩ := hsilent c hc.mem hc.seen hkind
      have := hc.top r hr hrsees
      omega
    have hdel : rangeDeleted key 0 tombs = true :=
      rangeDeleted_iff.mpr ⟨c, htombs.has c hc.mem hkind hc.seen.2, covers_range hkind ▸ hc.seen.1,
        hpos c hc.mem hkind⟩
    exact .inl ⟨c, hc, by simp [hdel, shown, hkind]⟩
  · refine .inr ⟨hnone, if_neg fun hdel => ?_⟩
    obtain ⟨r, hr, hcovers, _⟩ := rangeDeleted_iff.mp hdel
    obtain ⟨hrall, hrkind, hrseq⟩ := htombs.within r hr
    exact hnone r hrall ⟨(covers_range hrkind).trans hcovers, hrseq⟩

/-- **A read gives the newest operation over the key**, where each table of the memtables
and then of the files that ends the walk is not exceeded by a later one, and no bulk run
answers. -/
theorem lookup_answers_of_leads
    (hleads : Leads key snap [] (layers ++ files.flatten))
    (hdistinct : Distinct (layers ++ files.flatten).flatten)
    (hformed : ∀ v ∈ layers.flatten, Formed v)
    (hpos : ∀ v ∈ (layers ++ files.flatten).flatten, v.kind = .rangeDeletion → 0 < v.sequence)
    (hruns : ∀ tombs, lookupRuns key snap family tombs runs = none) :
    Answers key snap (layers ++ files.flatten).flatten (lookup layers runs family files key snap) := by
  have hstart : Collected snap [] (layers ++ files.flatten).flatten [] := ⟨by simp, by simp⟩
  rcases walk_answers (by simp) hleads (by simp [Silent]) hdistinct hformed hstart with
    ⟨look, tombs, hwalk, hans⟩ | ⟨tombs, hwalk, hsilent, htombs⟩
  · simpa [lookup, hwalk] using hans
  simp only [lookup, hwalk, hruns]
  rcases walkRuns_answers files (by simp) hleads.drop hsilent hdistinct htombs with
    ⟨seq, look, tombs', hfiles, hans⟩ | ⟨tombs', hfiles, hsilent', htombs'⟩
  · simpa [hfiles] using hans
  · simp only [hfiles]
    exact silent_answers hsilent' htombs' hpos

/-- The same where the tables are in order of recency. -/
theorem lookup_answers
    (hfronts : Fronts key snap [] (layers ++ files.flatten))
    (hdistinct : Distinct (layers ++ files.flatten).flatten)
    (hformed : ∀ v ∈ (layers ++ files.flatten).flatten, Formed v)
    (hruns : ∀ tombs, lookupRuns key snap family tombs runs = none) :
    Answers key snap (layers ++ files.flatten).flatten (lookup layers runs family files key snap) :=
  lookup_answers_of_leads (hfronts.leads fun _ h => h.1) hdistinct
    (fun v hv => hformed v (by rw [flatten_append]; exact mem_append_left _ hv))
    (fun v hv hkind => (hformed v hv hkind).2) hruns

end Walk

end PedraDb.Layers
