import PedraDb.Cache.System

/-! Claims on what a key reads as.

An answer that the cache holds, or that a read is about to give to it, is a claim. In the
runs of `current` a claim is what an uncached read gives, or some commit of its key is
under way; and a commit that has invalidated the cache meets no claim on its keys until it
is published. Both are kept step by step (`Inv.step`). -/
namespace PedraDb.Cache
open List State BulkRun Writer
variable {key : Key} {w : Writer} {v : Option Value} {snap snap' : Nat} {o : WriteOp}

/-! ### The store -/

namespace State

/-- All versions of the store. -/
def stored (s : State) : List WriteOp := s.mem ++ s.runs.flatMap BulkRun.entries ++ s.files.flatten

end State

/-- Operations that do not touch a key are not over it. -/
theorem visibleOver_untouched {t : Table} (h : ∀ o ∈ t, o.touches key = false) :
    visibleOver key snap t = [] := by
  refine filter_eq_nil_iff.mpr fun o ho => ?_
  simp [h o ho]

theorem visibleOver_append {t u : Table} (h : ∀ o ∈ u, o.touches key = false) :
    visibleOver key snap (t ++ u) = visibleOver key snap t := by
  have hu : visibleOver key snap u = [] := visibleOver_untouched h
  simp only [visibleOver, filter_append] at hu ⊢
  rw [hu, append_nil]

theorem BulkRun.lookup_append (run : BulkRun) {entries : List WriteOp}
    (h : ∀ o ∈ entries, o.touches key = false) (snap : Nat) :
    ({ run with entries := run.entries ++ entries } : BulkRun).lookup key snap = run.lookup key snap := by
  have hnone : entries.find? (fun v => v.key == key) = none := by
    refine find?_eq_none.mpr fun o ho => ?_
    have := h o ho
    simp only [WriteOp.touches, Bool.or_eq_false_iff] at this
    simp [this.1]
  simp [BulkRun.lookup, hnone]

variable {family : Key}

/-- A run is read past entries of other keys. -/
theorem lookupRuns_pushRun {entries tombs : List WriteOp} (h : ∀ o ∈ entries, o.touches key = false)
    (runs : List BulkRun) :
    lookupRuns key snap family tombs (pushRun family entries runs) =
    lookupRuns key snap family tombs runs := by
  induction runs with
  | nil =>
    have hnone : BulkRun.lookup ⟨family, entries⟩ key snap = .notFound :=
      BulkRun.lookup_append ⟨family, []⟩ h snap
    simp [pushRun, lookupRuns, hnone]
  | cons run runs ih =>
    rw [pushRun]
    split
    · simp [lookupRuns, BulkRun.lookup_append run h]
    · simp [lookupRuns, ih]

theorem lookupRuns_snap {tombs : List WriteOp} {runs : List BulkRun}
    (h : ∀ o ∈ runs.flatMap BulkRun.entries, o.touches key = true → o.sequence ≤ snap ∧
      o.sequence ≤ snap') :
    lookupRuns key snap family tombs runs = lookupRuns key snap' family tombs runs := by
  induction runs with
  | nil => rfl
  | cons run runs ih =>
    have hrun : run.lookup key snap = run.lookup key snap' := by
      rw [BulkRun.lookup, BulkRun.lookup]
      cases hf : run.entries.find? (fun v => v.key == key) with
      | none => rfl
      | some o =>
        have hkey : o.touches key = true := by
          have := find?_some hf
          simp only [beq_iff_eq] at this
          simp [WriteOp.touches, this]
        obtain ⟨h1, h2⟩ := h o (mem_flatMap.mpr ⟨run, mem_cons_self, mem_of_find?_eq_some hf⟩) hkey
        simp [Nat.not_lt.mpr h1, Nat.not_lt.mpr h2]
    have hih := ih fun o ho => h o (by
      rw [flatMap_cons]
      exact mem_append_right _ ho)
    simp [lookupRuns, hrun, hih]

/-- Snapshots above all that touches the key see the same over it. -/
theorem visibleOver_snap {t : Table}
    (h : ∀ o ∈ t, o.touches key = true → o.sequence ≤ snap ∧ o.sequence ≤ snap') :
    visibleOver key snap t = visibleOver key snap' t := by
  refine filter_congr fun o ho => ?_
  cases ht : o.touches key with
  | false => rfl
  | true => simp [h o ho ht]

/-- **A snapshot that moves past no version of a key** gives the same read. -/
theorem State.lookupAt_snap (s : State)
    (h : ∀ o ∈ s.stored, o.touches key = true → o.sequence ≤ snap ∧ o.sequence ≤ snap') :
    s.lookupAt key snap = s.lookupAt key snap' := by
  have hmem : ∀ o ∈ s.mem, o ∈ s.stored := fun o ho => by simp [stored, ho]
  have hfiles : ∀ t ∈ s.files, ∀ o ∈ t, o ∈ s.stored := fun t ht o ho => by
    simp only [stored, mem_append, mem_flatten]
    exact .inr ⟨t, ht, ho⟩
  rw [lookupAt, lookupAt]
  congr 1
  refine lookupLayers_congr (.cons (visibleOver_snap fun o ho =>
    h o (hmem o ho)) .nil) (fun tombs => ?_) fun tombs => ?_
  · refine lookupRuns_snap fun o ho => h o ?_
    simp only [stored, mem_append]
    exact .inl (.inr ho)
  · refine walk_congr ?_ rfl
    exact forall₂_same.mpr fun t ht => visibleOver_snap fun o ho => h o (hfiles t ht o ho)

section Insert
variable {s s' : State} {i : Nat}

/-- What is in the store after a commit went there. -/
theorem insert_cases (hs : s.insert i = some s') :
    ∃ w, s.writers[i]? = some w ∧ w.phase = .minted ∧ s.admits w = true ∧
      s' = { s with
        mem := ((s.settle w).openRun w).1 ++ w.members.flatten
        runs := if w.bulk.isEmpty then ((s.settle w).openRun w).2
          else pushRun defaultFamily w.bulk ((s.settle w).openRun w).2
        files := if w.entries.isEmpty then s.files else w.entries :: (s.settle w).files
        writers := s.writers.set i { w with phase := .inserted, absorbed := s.moves w } } := by
  rw [State.insert] at hs
  split at hs
  · rename_i w hw
    split at hs
    · rename_i hguard
      cases hs
      simp only [Bool.and_eq_true, decide_eq_true_eq] at hguard
      exact ⟨w, hw, hguard.1, hguard.2, rfl⟩
    · cases hs
  · cases hs

theorem openRun_same (h : (s.openRun w).1 = s.mem) : (s.openRun w).2 = s.runs := by
  rw [openRun] at h ⊢
  split
  · rfl
  rename_i hno
  rw [if_neg hno] at h
  rcases absorbMemFamilyIntoRun_cases s.mem s.runs defaultFamily with ⟨_, heq⟩ | ⟨htaken, heq⟩
  · rw [heq]
  · rw [heq] at h
    refine absurd (filter_eq_nil_iff.mpr fun v hv => ?_) htaken
    have hall := filter_eq_self.mp h v hv
    simpa using hall

/-- Opening a run makes no version. -/
theorem mem_openRun (s : State) (w : Writer) : (∀ o ∈ (s.openRun w).1, o ∈ s.mem) ∧
      ∀ o ∈ (s.openRun w).2.flatMap BulkRun.entries, o ∈ s.mem ∨ o ∈ s.runs.flatMap BulkRun.entries := by
  rw [openRun]
  split
  · exact ⟨fun o ho => ho, fun o ho => .inr ho⟩
  · obtain ⟨hmem, hruns⟩ := mem_absorbMemFamilyIntoRun s.mem s.runs defaultFamily
    rw [hmem]
    exact ⟨fun o ho => (mem_filter.mp ho).1, hruns⟩

theorem mem_flushed (ho : o ∈ s.flushed.flatten) : o ∈ s.mem ∨ o ∈ s.runs.flatMap BulkRun.entries := by
  obtain ⟨t, ht, ho⟩ := mem_flatten.mp ho
  rcases mem_cons.mp (mem_filter.mp ht).1 with rfl | hmem
  · exact .inl ho
  · obtain ⟨run, hrun, rfl⟩ := mem_map.mp hmem
    exact .inr (mem_flatMap.mpr ⟨run, hrun, ho⟩)

/-- A flush before an ingest adds nothing. -/
theorem mem_stored_settle (ho : o ∈ (s.settle w).stored) : o ∈ s.stored := by
  rw [settle] at ho
  split at ho
  · exact ho
  simp only [stored, flatMap_nil, nil_append, flatten_append, mem_append] at ho ⊢
  exact ho.imp_left mem_flushed

/-- If nothing moved, nothing was flushed. -/
theorem settle_same (h : s.moves w = false) :
    s.settle w = s ∧ (s.openRun w).1 = s.mem ∧ (s.openRun w).2 = s.runs := by
  simp only [moves, Bool.or_eq_false_iff, bne_eq_false_iff_eq] at h
  obtain ⟨hmem, hruns⟩ := h
  have hsame : s.settle w = s := by
    rw [settle]
    split
    · rfl
    rename_i hentries
    have hnoruns : s.runs = [] := by simpa [hentries] using hruns
    have hnomem : s.mem = [] := by
      refine eq_nil_iff_forall_not_mem.mpr fun v hv => ?_
      rw [← hmem] at hv
      have hold := (mem_openRun (s.settle w) w).1 v hv
      rw [settle, if_neg hentries] at hold
      cases hold
    have hflushed : s.flushed = [] := by simp [flushed, hnomem, hnoruns]
    rw [hflushed, nil_append, ← hnomem]
    conv => lhs; rw [← hnoruns]
  rw [hsame] at hmem
  exact ⟨hsame, hmem, openRun_same hmem⟩

/-- A version is an old one or one of the commit. -/
theorem mem_stored_insert (hs : s.insert i = some s') (ho : o ∈ s'.stored) :
    o ∈ s.stored ∨ ∃ w, s.writers[i]? = some w ∧ o ∈ w.ops := by
  obtain ⟨w, hw, _, _, rfl⟩ := insert_cases hs
  obtain ⟨hmem, hruns⟩ := mem_openRun (s.settle w) w
  have hold : (o ∈ (s.settle w).mem ∨ o ∈ (s.settle w).runs.flatMap BulkRun.entries) ∨
      o ∈ (s.settle w).files.flatten → o ∈ s.stored := by
    intro ho
    refine mem_stored_settle (w := w) ?_
    simp only [stored, mem_append]
    exact ho
  have hnew : o ∈ w.bulk ∨ o ∈ w.members.flatten ∨ o ∈ w.entries → o ∈ w.ops := by
    simp only [Writer.ops, mem_append]
    tauto
  simp only [stored, mem_append] at ho
  rcases ho with ((ho | ho) | ho) | ho
  · exact .inl (hold (.inl (.inl (hmem o ho))))
  · exact .inr ⟨w, hw, hnew (.inr (.inl ho))⟩
  · split at ho
    · exact .inl (hold (.inl (hruns o ho)))
    · rcases mem_pushRun ho with ho | ho
      · exact .inr ⟨w, hw, hnew (.inl ho)⟩
      · exact .inl (hold (.inl (hruns o ho)))
  · split at ho
    · exact .inl (by simp only [stored, mem_append]; exact .inr ho)
    · rcases mem_append.mp (flatten_cons ▸ ho) with ho | ho
      · exact .inr ⟨w, hw, hnew (.inr (.inr ho))⟩
      · exact .inl (hold (.inr ho))

/-- **A commit leaves the reads of other keys as they were.** -/
theorem lookupAt_insert (hs : s.insert i = some s') {w' : Writer} (hw' : s'.writers[i]? = some w')
    (huntouched : w'.touches key = false) (snap : Nat) : s'.lookupAt key snap = s.lookupAt key snap := by
  obtain ⟨w, hw, _, _, rfl⟩ := insert_cases hs
  have hi : i < s.writers.length := (List.getElem?_eq_some_iff.mp hw).1
  obtain rfl : { w with phase := .inserted, absorbed := s.moves w } = w' := by
    simpa [getElem?_set, hi] using hw'
  simp only [touches, ops, Bool.or_eq_false_iff, any_eq_false, mem_append] at huntouched
  obtain ⟨hstill, hops⟩ := huntouched
  obtain ⟨hsame, hmem, hruns⟩ := settle_same hstill
  have hno : ∀ {t : List WriteOp}, (∀ o ∈ t, (o ∈ w.bulk ∨ o ∈ w.members.flatten) ∨ o ∈ w.entries) →
      ∀ o ∈ t, o.touches key = false := fun h o ho => by simpa using hops o (h o ho)
  rw [lookupAt, lookupAt]
  congr 1
  simp only [hsame, hmem, hruns]
  refine lookupLayers_congr (.cons (visibleOver_append (hno fun o ho => .inl (.inr ho))) .nil)
    (fun tombs => ?_) fun tombs => ?_
  · split
    · rfl
    · exact lookupRuns_pushRun (hno fun o ho => .inl (.inl ho)) s.runs
  · split
    · exact ⟨rfl, rfl⟩
    · exact walk_unseen (visibleOver_untouched (hno fun o ho => .inr ho)) _ _

end Insert

/-- An answer that the cache gives, or that is on its way into it. -/
inductive Claims (s : State) (key : Key) (v : Option Value) : Prop where
  | cached (h : (key, v) ∈ s.cache)
  | filling (g : Getter) (hg : g ∈ s.getters) (hkey : g.key = key) (hv : s.filling g = some v)

/-- A commit that may change the key is in the store and has not returned. -/
def State.busy (s : State) (key : Key) : Bool := s.writers.any fun w => w.holds && w.touches key

/-- **What the cache may claim.** A claim is what an uncached read gives, or a commit of the
key is under way; and no claim stands between the invalidation of a commit of its key and
the publication. -/
structure Inv (s : State) : Prop where
  /-- What is above the published sequence belongs to commits under way. -/
  above : ∀ o ∈ s.stored, s.published < o.sequence → ∃ w ∈ s.writers, w.holds = true ∧ o ∈ w.ops
  minted : ∀ w ∈ s.writers, ∀ o ∈ w.ops, o.sequence ≤ w.top
  snapped : ∀ g ∈ s.getters, ∀ snap, (g.phase = .snapped snap ∨ ∃ v, g.phase = .looked snap v) →
    snap ≤ s.published
  true' : ∀ key v, Claims s key v → v = s.uncached key ∨ s.busy key = true
  sealed : ∀ key v, s.sealed key = true → ¬ Claims s key v

section Steps
variable {s s' : State} {i : Nat} {w' : Writer}

theorem Claims.mono (h : Claims s' key v) (hcache : ∀ e ∈ s'.cache, e ∈ s.cache)
    (hgetters : ∀ g ∈ s'.getters, ∀ v, s'.filling g = some v →
      g ∈ s.getters ∧ s.filling g = some v) : Claims s key v := by
  cases h with
  | cached h => exact .cached (hcache _ h)
  | filling g hg hkey hv =>
    obtain ⟨hg, hv⟩ := hgetters g hg v hv
    exact .filling g hg hkey hv

theorem busy_iff : s.busy key = true ↔ ∃ w ∈ s.writers, w.holds = true ∧ w.touches key = true := by
  simp [busy]

theorem sealed_iff :
    s.sealed key = true ↔ ∃ w ∈ s.writers, w.phase = .invalidated ∧ w.touches key = true := by
  simp [sealed]

theorem Writer.touches_of_mem (ho : o ∈ w.ops) (ht : o.touches key = true) : w.touches key = true := by
  simp only [touches, Bool.or_eq_true, any_eq_true]
  exact .inr ⟨o, ho, ht⟩

/-! ### Commits -/

/-- A commit that moves on keeps its sequences. -/
theorem Inv.minted_set (h : Inv s) (hw : s.writers[i]? = some w) (hops : w'.ops = w.ops)
    (htop : w'.top = w.top) : ∀ a ∈ s.writers.set i w', ∀ o ∈ a.ops, o.sequence ≤ a.top := by
  intro a ha o ho
  rcases mem_or_eq_of_mem_set ha with ha | rfl
  · exact h.minted a ha o ho
  · rw [htop]
    exact h.minted w (mem_of_getElem? hw) o (hops ▸ ho)

/-- A commit goes from one phase in the store to another, and claims get no more. -/
theorem Inv.moved (h : Inv s) (hw : s.writers[i]? = some w) (phase : Phase)
    (hholds' : Writer.holds { w with phase := phase } = true) {dirty : List Key} {reset : Bool}
    {cache : List (Key × Option Value)} (hcache : ∀ e ∈ cache, e ∈ s.cache)
    (hsealed : phase = .invalidated → ∀ key, w.touches key = true → ∀ v,
      ¬ Claims { s with cache := cache } key v) :
    Inv { s with
      dirty := dirty, reset := reset, cache := cache
      writers := s.writers.set i { w with phase := phase } } := by
  have hkeep : ∀ {u}, u ∈ s.writers → u.holds = true → ∃ u₁ ∈ s.writers.set i { w with phase := phase },
      u₁.holds = true ∧ u₁.ops = u.ops ∧ ∀ key, u₁.touches key = u.touches key := by
    intro u hu hh
    by_cases hne : u = w
    · exact ⟨_, mem_set (List.getElem?_eq_some_iff.mp hw).1 _, hholds', hne ▸ rfl, fun key => hne ▸ rfl⟩
    · exact ⟨u, Runs.mem_set_of_ne hw hne hu, hh, rfl, fun _ => rfl⟩
  refine ⟨fun o ho habove => ?_, h.minted_set hw rfl rfl, h.snapped, fun key v hclaim => ?_, ?_⟩
  · obtain ⟨u, hu, hh, hou⟩ := h.above o ho habove
    obtain ⟨u₁, hu₁, hh₁, hops, _⟩ := hkeep hu hh
    exact ⟨u₁, hu₁, hh₁, hops ▸ hou⟩
  · refine (h.true' key v (hclaim.mono hcache fun g hg v hv => ⟨hg, hv⟩)).imp_right fun hb => ?_
    obtain ⟨u, hu, hh, ht⟩ := busy_iff.mp hb
    obtain ⟨u₁, hu₁, hh₁, _, htouch⟩ := hkeep hu hh
    exact busy_iff.mpr ⟨u₁, hu₁, hh₁, by rw [htouch]; exact ht⟩
  · intro key v hs hclaim
    obtain ⟨u, hu, hp, ht⟩ := sealed_iff.mp hs
    rcases mem_or_eq_of_mem_set hu with hu | rfl
    · exact h.sealed key v (sealed_iff.mpr ⟨u, hu, hp, ht⟩)
        (hclaim.mono hcache fun g hg v hv => ⟨hg, hv⟩)
    · exact hsealed hp key ht v (hclaim.mono (fun _ he => he) fun g hg v hv => ⟨hg, hv⟩)

variable (seq : Nat)

theorem numberPuts_lt (puts : List (Key × Value)) :
    ∀ o ∈ numberPuts seq puts, o.sequence < seq + puts.length := by
  induction puts generalizing seq with
  | nil => simp [numberPuts]
  | cons p puts ih =>
    refine forall_mem_cons.mpr ⟨by simp [WriteOp.put], fun o ho => ?_⟩
    have := ih (seq + 1) o ho
    simp only [length_cons]
    omega

theorem numberOps_lt (ops : List BatchOp) : ∀ o ∈ numberOps seq ops, o.sequence < seq + ops.length := by
  induction ops generalizing seq with
  | nil => simp [numberOps]
  | cons op ops ih =>
    refine forall_mem_cons.mpr ⟨by simp [stamped_sequence], fun o ho => ?_⟩
    have := ih (seq + 1) o ho
    simp only [length_cons]
    omega

theorem numberMembers_lt (members : List (List BatchOp)) :
    ∀ o ∈ (numberMembers seq members).flatten, o.sequence < seq + members.flatten.length := by
  induction members generalizing seq with
  | nil => simp [numberMembers]
  | cons m members ih =>
    intro o ho
    rw [flatten_cons, length_append]
    rcases mem_append.mp (flatten_cons ▸ ho) with ho | ho
    · have := numberOps_lt seq m o ho
      omega
    · have := ih (seq + m.length) o ho
      omega

theorem numberEntries_lt (entries : List (Key × Option Value)) :
    ∀ o ∈ numberEntries seq entries, o.sequence < seq + entries.length := by
  induction entries generalizing seq with
  | nil => simp [numberEntries]
  | cons e entries ih =>
    have hrest : ∀ o ∈ numberEntries (seq + 1) entries, o.sequence < seq + (entries.length + 1) := by
      intro o ho
      have := ih (seq + 1) o ho
      omega
    obtain ⟨key, value | value⟩ := e
    · exact forall_mem_cons.mpr ⟨by simp [WriteOp.delete], hrest⟩
    · exact forall_mem_cons.mpr ⟨by simp [WriteOp.put], hrest⟩

/-- The operations of a new commit are nowhere yet. -/
theorem Inv.start (h : Inv s) {members : List (List BatchOp)} {bulk : List (Key × Value)}
    {entries : List (Key × Option Value)} {exclusive : Bool}
    (hs : s.start members bulk entries exclusive = some s') : Inv s' := by
  simp only [State.start] at hs
  split at hs
  swap
  · cases hs
  cases hs
  refine ⟨fun o ho habove => ?_, ?_, h.snapped, fun key v hclaim => ?_, fun key v hsealed hclaim => ?_⟩
  · obtain ⟨u, hu, hrest⟩ := h.above o ho habove
    exact ⟨u, mem_append_left _ hu, hrest⟩
  · refine forall_mem_append.mpr ⟨h.minted, forall_mem_singleton.mpr fun o ho => ?_⟩
    have hlt : o.sequence < s.nextSeq + (bulk.length + members.flatten.length + entries.length) := by
      rcases mem_append.mp ho with ho | ho
      · rcases mem_append.mp ho with ho | ho
        · have := numberPuts_lt _ bulk o ho
          omega
        · have := numberMembers_lt _ members o ho
          omega
      · have := numberEntries_lt _ entries o ho
        omega
    exact Nat.le_sub_one_of_lt hlt
  · refine (h.true' key v (hclaim.mono (fun _ he => he) fun g hg v hv => ⟨hg, hv⟩)).imp_right fun hb => ?_
    obtain ⟨u, hu, hrest⟩ := busy_iff.mp hb
    exact busy_iff.mpr ⟨u, mem_append_left _ hu, hrest⟩
  · obtain ⟨u, hu, hp, ht⟩ := sealed_iff.mp hsealed
    rcases mem_append.mp hu with hu | hu
    · exact h.sealed key v (sealed_iff.mpr ⟨u, hu, hp, ht⟩)
        (hclaim.mono (fun _ he => he) fun g hg v hv => ⟨hg, hv⟩)
    · rw [mem_singleton.mp hu] at hp
      cases hp

theorem note_cases {cold : Bool} (hs : s.note i cold = some s') :
    ∃ w dirty reset, s.writers[i]? = some w ∧ w.phase = .inserted ∧
      s' = { s with
        dirty := dirty, reset := reset, writers := s.writers.set i { w with phase := .noted } } := by
  rw [State.note] at hs
  split at hs
  · rename_i w hw
    split at hs
    · rename_i hguard
      cases hs
      simp only [Bool.and_eq_true, decide_eq_true_eq] at hguard
      exact ⟨w, _, _, hw, hguard.1, rfl⟩
    · cases hs
  · cases hs

/-- Noting dirty keys claims nothing. -/
theorem Inv.note (h : Inv s) {cold : Bool} (hs : s.note i cold = some s') : Inv s' := by
  obtain ⟨w, dirty, reset, hw, hphase, rfl⟩ := note_cases hs
  exact h.moved hw .noted rfl (fun _ he => he) fun hno => by cases hno

theorem Claims.of_insert (hs : s.insert i = some s') (h : Claims s' key v) : Claims s key v := by
  obtain ⟨w, _, _, _, rfl⟩ := insert_cases hs
  exact h.mono (fun _ he => he) fun g hg v hv => ⟨hg, hv⟩

/-- A commit in the store makes its keys busy. -/
theorem Inv.insert (h : Inv s) (hs : s.insert i = some s') : Inv s' := by
  have hclaims : ∀ key v, Claims s' key v → Claims s key v := fun _ _ hclaim => hclaim.of_insert hs
  have hlook : ∀ w', s'.writers[i]? = some w' → ∀ key, w'.touches key = false → ∀ snap,
      s'.lookupAt key snap = s.lookupAt key snap :=
    fun w' hw' key ht snap => lookupAt_insert hs hw' ht snap
  have hstored : ∀ o ∈ s'.stored, o ∈ s.stored ∨ ∃ w, s.writers[i]? = some w ∧ o ∈ w.ops :=
    fun o ho => mem_stored_insert hs ho
  obtain ⟨w, hw, hphase, _, heq⟩ := insert_cases hs
  generalize hw'def : ({ w with phase := .inserted, absorbed := s.moves w } : Writer) = w' at heq
  have hops : w'.ops = w.ops := by subst hw'def; rfl
  have htop : w'.top = w.top := by subst hw'def; rfl
  have hholds' : w'.holds = true := by subst hw'def; rfl
  have hphase' : w'.phase ≠ .invalidated := by subst hw'def; exact Phase.noConfusion
  subst heq
  have hself : (s.writers.set i w')[i]? = some w' := getElem?_set_self (List.getElem?_eq_some_iff.mp hw).1
  have hw'mem : w' ∈ s.writers.set i w' := mem_of_getElem? hself
  have hkeep : ∀ {u}, u ∈ s.writers → u.holds = true → u ∈ s.writers.set i w' := by
    intro u hu hh
    refine Runs.mem_set_of_ne hw ?_ hu
    rintro rfl
    simp [Writer.holds, hphase] at hh
  refine ⟨fun o ho habove => ?_, h.minted_set hw hops htop, h.snapped, fun key v hclaim => ?_,
    fun key v hsealed hclaim => ?_⟩
  · rcases hstored o ho with ho | ⟨u, hu, hou⟩
    · obtain ⟨u, hu, hh, hou⟩ := h.above o ho habove
      exact ⟨u, hkeep hu hh, hh, hou⟩
    · rw [hw] at hu
      cases hu
      exact ⟨w', hw'mem, hholds', hops ▸ hou⟩
  · cases ht : w'.touches key with
    | true => exact .inr (busy_iff.mpr ⟨w', hw'mem, hholds', ht⟩)
    | false =>
      have hun := hlook w' hself key ht s.published
      rcases h.true' key v (hclaims key v hclaim) with hv | hb
      · exact .inl (hv.trans hun.symm)
      · obtain ⟨u, hu, hh, htu⟩ := busy_iff.mp hb
        exact .inr (busy_iff.mpr ⟨u, hkeep hu hh, hh, htu⟩)
  · obtain ⟨u, hu, hp, ht⟩ := sealed_iff.mp hsealed
    rcases mem_or_eq_of_mem_set hu with hu | rfl
    · exact h.sealed key v (sealed_iff.mpr ⟨u, hu, hp, ht⟩) (hclaims key v hclaim)
    · exact hphase' hp

/-! ### Invalidation and publication -/

/-- A publication that is not a reset names each key it changes. -/
theorem dirty_of_touches (hcovers : s.dirtyCovers w = true) (hclears : s.clears = false)
    (ht : w.touches key = true) : key ∈ s.dirty := by
  simp only [dirtyCovers, hclears, Bool.false_or, Bool.and_eq_true, Bool.not_eq_true', all_eq_true,
    bne_iff_ne, contains_iff_mem] at hcovers
  simp only [touches, hcovers.1, Bool.false_or, any_eq_true] at ht
  obtain ⟨o, ho, hot⟩ := ht
  obtain ⟨hkind, hdirty⟩ := hcovers.2 o ho
  have hkey : o.key = key := by
    simp only [WriteOp.touches, Bool.or_eq_true, beq_iff_eq] at hot
    rcases hot with hot | hot
    · exact hot
    · cases hok : o.kind <;> simp_all [WriteOp.covers, writeOpCoversKey]
  rwa [← hkey]

/-- The cache forgets the keys of the publication, and nothing is added. -/
theorem cache_invalidate (s : State) :
    (∀ e ∈ s.invalidateReadAnswers.cache, e ∈ s.cache) ∧
      ((s.dirtyCovers w = true ∨ s.cache = []) → w.touches key = true →
        (key, v) ∉ s.invalidateReadAnswers.cache) := by
  simp only [invalidateReadAnswers]
  split
  · exact ⟨fun _ he => absurd he not_mem_nil, fun _ _ => not_mem_nil⟩
  rename_i hclears
  refine ⟨fun e he => (mem_filter.mp he).1, fun hcovers ht hv => ?_⟩
  obtain ⟨hmem, hclean⟩ := mem_filter.mp hv
  rcases hcovers with hcovers | hempty
  · have hdirty := dirty_of_touches hcovers (by simpa using hclears) ht
    simp [hdirty] at hclean
  · rw [hempty] at hmem
    cases hmem

theorem invalidate_cases (hs : s.invalidate i = some s') :
    ∃ w, s.writers[i]? = some w ∧ w.phase = .noted ∧
      s' = { s.invalidateReadAnswers with writers := s.writers.set i { w with phase := .invalidated } } := by
  rw [State.invalidate] at hs
  split at hs
  · rename_i w hw
    split at hs
    · cases hs
      exact ⟨w, hw, by assumption, rfl⟩
    · cases hs
  · cases hs

theorem Claims.of_invalidate (hs : s.invalidate i = some s') (h : Claims s' key v) : Claims s key v := by
  obtain ⟨w, _, _, rfl⟩ := invalidate_cases hs
  exact h.mono (@cache_invalidate key w v s).1 fun g hg v hv => ⟨hg, hv⟩

/-- The claims on the keys of the commit are gone. -/
theorem Inv.invalidate (h : Inv s) (hok : current s (.invalidate i) = true)
    (hs : s.invalidate i = some s') : Inv s' := by
  obtain ⟨w, hw, hphase, rfl⟩ := invalidate_cases hs
  simp only [current, hw, Bool.and_eq_true, Bool.or_eq_true, Bool.not_eq_true', all_eq_true,
    List.isEmpty_iff, Option.isNone_iff_eq_none] at hok
  obtain ⟨hcovers, hgetters⟩ := hok
  refine h.moved hw .invalidated rfl (@cache_invalidate [] w none s).1
    fun _ key ht v hclaim => ?_
  cases hclaim with
  | cached hc => exact (cache_invalidate s).2 hcovers ht hc
  | filling g hg hkey hv =>
    rcases hgetters g hg with hno | hno
    · rw [hkey, ht] at hno
      cases hno
    · cases hno.symm.trans hv

theorem publish_cases (hs : s.publish i = some s') :
    ∃ w, s.writers[i]? = some w ∧ w.phase = .invalidated ∧
      s' = { s with
        published := max s.published w.top
        writers := s.writers.set i { w with phase := .returned } } := by
  rw [publish] at hs
  split at hs
  · rename_i w hw
    split at hs
    · cases hs
      exact ⟨w, hw, by assumption, rfl⟩
    · cases hs
  · cases hs

/-- A read that is to be cached after a publication was to be before it. -/
theorem Claims.of_publish (hinv : Inv s) (hs : s.publish i = some s') (h : Claims s' key v) :
    Claims s key v := by
  obtain ⟨w, _, _, rfl⟩ := publish_cases hs
  refine h.mono (fun _ he => he) fun g hg v hv => ⟨hg, ?_⟩
  simp only [State.filling] at hv ⊢
  cases hp : g.phase with
  | looked snap x =>
    have hle := hinv.snapped g hg snap (.inr ⟨x, hp⟩)
    simp only [hp] at hv ⊢
    split at hv
    · rename_i hsnap
      rw [if_pos (by omega)]
      exact hv
    · cases hv
  | checked x => simpa [hp] using hv
  | asked | snapped snap | returned x => simp [hp] at hv

/-- The commit is visible, and no one claims what its keys read as before. -/
theorem Inv.publish (h : Inv s) (hs : s.publish i = some s') : Inv s' := by
  have hclaims : ∀ key v, Claims s' key v → Claims s key v := fun _ _ hclaim => hclaim.of_publish h hs
  obtain ⟨w, hw, hphase, rfl⟩ := publish_cases hs
  have hwmem := mem_of_getElem? hw
  -- a claim from before is on a key the commit does not touch
  have huntouched : ∀ {key v}, Claims s key v → w.touches key = false := by
    intro key v hclaim
    cases ht : w.touches key with
    | false => rfl
    | true => exact absurd hclaim (h.sealed key v (sealed_iff.mpr ⟨w, hwmem, hphase, ht⟩))
  have hbusy : ∀ {u key}, u ∈ s.writers → u.holds = true → u.touches key = true → w.touches key = false →
      busy { s with
        published := max s.published w.top
        writers := s.writers.set i { w with phase := .returned } } key = true := by
    intro u key hu hh ht hno
    refine busy_iff.mpr ⟨u, Runs.mem_set_of_ne hw ?_ hu, hh, ht⟩
    rintro rfl
    rw [hno] at ht
    cases ht
  refine ⟨fun o ho habove => ?_, h.minted_set hw rfl rfl, ?_, fun key v hclaim => ?_, ?_⟩
  · have habove' : s.published < o.sequence ∧ w.top < o.sequence := by
      have : max s.published w.top < o.sequence := habove
      omega
    obtain ⟨u, hu, hh, hou⟩ := h.above o ho habove'.1
    refine ⟨u, Runs.mem_set_of_ne hw ?_ hu, hh, hou⟩
    rintro rfl
    have := h.minted u hu o hou
    omega
  · intro g hg snap hsnap
    exact Nat.le_trans (h.snapped g hg snap hsnap) (Nat.le_max_left _ _)
  · have hno := huntouched (hclaims key v hclaim)
    rcases h.true' key v (hclaims key v hclaim) with hv | hb
    · by_cases hpast : ∃ o ∈ s.stored, o.touches key = true ∧ s.published < o.sequence
      · obtain ⟨o, ho, ht, habove⟩ := hpast
        obtain ⟨u, hu, hh, hou⟩ := h.above o ho habove
        exact .inr (hbusy hu hh (Writer.touches_of_mem hou ht) hno)
      left
      rw [hv, uncached, uncached]
      refine s.lookupAt_snap fun o ho ht => ?_
      have hle : o.sequence ≤ s.published := by
        by_contra hgt
        exact hpast ⟨o, ho, ht, Nat.not_le.mp hgt⟩
      exact ⟨hle, Nat.le_trans hle (Nat.le_max_left _ _)⟩
    · obtain ⟨u, hu, hh, ht⟩ := busy_iff.mp hb
      exact .inr (hbusy hu hh ht hno)
  · intro key v hsealed hclaim
    obtain ⟨u, hu, hp, ht⟩ := sealed_iff.mp hsealed
    rcases mem_or_eq_of_mem_set hu with hu | rfl
    · exact h.sealed key v (sealed_iff.mpr ⟨u, hu, hp, ht⟩) (hclaims key v hclaim)
    · cases hp

/-! ### Reads -/

/-- The store and the commits stay as they are. -/
structure Reads (s s' : State) : Prop where
  mem : s'.mem = s.mem
  runs : s'.runs = s.runs
  files : s'.files = s.files
  published : s'.published = s.published
  writers : s'.writers = s.writers

/-- What a step of a read may do. Every claim it makes is an old one, or what an uncached
read gives while no commit of the key is between its invalidation and its publication. -/
structure ReadStep (s s' : State) : Prop extends Reads s s' where
  snapped : ∀ g ∈ s'.getters, ∀ snap, (g.phase = .snapped snap ∨ ∃ v, g.phase = .looked snap v) →
    snap ≤ s.published
  claims : ∀ key v, Claims s' key v → Claims s key v ∨ v = s.uncached key ∧ s.sealed key = false

section
variable (h : Inv s)
include h

/-- Reads keep the invariant. -/
theorem Inv.of_reads (hr : ReadStep s s') : Inv s' := by
  obtain ⟨hsame, hsnapped, hclaims⟩ := hr
  cases s'
  obtain ⟨rfl, rfl, rfl, rfl, rfl⟩ := hsame
  refine ⟨h.above, h.minted, hsnapped, ?_, ?_⟩
  · intro key v hclaim
    rcases hclaims key v hclaim with hold | ⟨hv, _⟩
    · exact h.true' key v hold
    · exact .inl hv
  · intro key v hs hclaim
    rcases hclaims key v hclaim with hold | ⟨_, hno⟩
    · exact h.sealed key v hs hold
    · cases hno.symm.trans hs

/-- One read moves on. Its claims are checked on their own; all else is as it was. -/
theorem Inv.getter_step (hr : Reads s s') (g g' : Getter)
    (hkey : g'.key = g.key) (hgetters : s'.getters = s.getters.set i g')
    (hsnap : ∀ snap, (g'.phase = .snapped snap ∨ ∃ v, g'.phase = .looked snap v) → snap ≤ s.published)
    (hcache : ∀ e ∈ s'.cache, e ∈ s.cache ∨ Claims s e.1 e.2)
    (hfilling : ∀ v, s.filling g' = some v →
      Claims s g.key v ∨ v = s.uncached g.key ∧ s.sealed g.key = false) : ReadStep s s' := by
  have hfill : ∀ a : Getter, s'.filling a = s.filling a := fun a => by
    cases hp : a.phase <;> simp [State.filling, hp, hr.published]
  refine { hr with snapped := fun a ha snap hp => ?_, claims := fun key v hclaim => ?_ }
  · rcases mem_or_eq_of_mem_set (hgetters ▸ ha) with ha | rfl
    · exact h.snapped a ha snap hp
    · exact hsnap snap hp
  · cases hclaim with
    | cached hc =>
      rcases hcache _ hc with hold | hold
      · exact .inl (.cached hold)
      · exact .inl hold
    | filling a ha hak hv =>
      rw [hfill] at hv
      rcases mem_or_eq_of_mem_set (hgetters ▸ ha) with ha | rfl
      · exact .inl (.filling a ha hak hv)
      · rw [← hak, hkey]
        exact hfilling v hv

/-- An answer of the cache is returned. -/
theorem Inv.probe (hs : s.probe i = some s') : ReadStep s s' := by
  rw [State.probe] at hs
  split at hs
  swap
  · cases hs
  rename_i g hg
  split at hs
  swap
  · cases hs
  rename_i v hp hc
  cases hs
  exact h.getter_step ⟨rfl, rfl, rfl, rfl, rfl⟩ g { g with phase := .returned v } rfl rfl
    (fun snap hp => by rcases hp with hp | ⟨_, hp⟩ <;> cases hp) (fun e he => .inl he)
    fun x hx => by cases hx

/-- A read that begins claims nothing. -/
theorem Inv.ask (key : Key) : ReadStep s (s.ask key) := by
  refine ⟨⟨rfl, rfl, rfl, rfl, rfl⟩, fun a ha snap hp => ?_, fun k v hclaim => .inl ?_⟩
  · rcases mem_append.mp ha with ha | ha
    · exact h.snapped a ha snap hp
    · rw [mem_singleton.mp ha] at hp
      rcases hp with hp | ⟨_, hp⟩ <;> cases hp
  · refine hclaim.mono (fun _ he => he) fun a ha x hx => ⟨?_, hx⟩
    rcases mem_append.mp ha with ha | ha
    · exact ha
    · rw [mem_singleton.mp ha] at hx
      cases hx

/-- A read takes its snapshot, looks up, compares and fills. -/
theorem Inv.advance {room : Bool} (hok : current s (.advance i room) = true)
    (hs : s.advance i room = some s') : ReadStep s s' := by
  rw [State.advance] at hs
  split at hs
  · cases hs
  rename_i g hg
  have hgmem := mem_of_getElem? hg
  simp only [current, hg] at hok
  cases hp : g.phase with
  | asked =>
    simp only [hp] at hs
    split at hs
    · cases hs
    cases hs
    refine h.getter_step ⟨rfl, rfl, rfl, rfl, rfl⟩ g { g with phase := .snapped s.published } rfl rfl
      (fun snap hp' => ?_) (fun e he => .inl he) fun x hx => by cases hx
    rcases hp' with hp' | ⟨_, hp'⟩ <;> cases hp'
    exact .refl
  | snapped snap =>
    simp only [hp] at hs hok
    cases hs
    refine h.getter_step ⟨rfl, rfl, rfl, rfl, rfl⟩ g
      { g with phase := .looked snap (s.lookupAt g.key snap) } rfl rfl (fun n hp' => ?_)
      (fun e he => .inl he) fun x hx => ?_
    · rcases hp' with hp' | ⟨_, hp'⟩ <;> cases hp'
      exact h.snapped g hgmem snap (.inl hp)
    · -- the answer is about to be cached at the published sequence
      simp only [State.filling] at hx
      split at hx
      · rename_i hsnap
        cases hx
        exact .inr ⟨by rw [uncached, hsnap], by simpa [hsnap] using hok⟩
      · cases hx
  | looked snap x =>
    simp only [hp] at hs
    cases hs
    by_cases hsnap : s.published = snap
    · simp only [if_pos hsnap]
      refine h.getter_step ⟨rfl, rfl, rfl, rfl, rfl⟩ g { g with phase := .checked x } rfl rfl
        (fun n hp' => by rcases hp' with hp' | ⟨_, hp'⟩ <;> cases hp') (fun e he => .inl he)
        fun y hy => ?_
      exact .inl (.filling g hgmem rfl (by rw [← hy]; simp [State.filling, hp, hsnap]))
    · simp only [if_neg hsnap]
      exact h.getter_step ⟨rfl, rfl, rfl, rfl, rfl⟩ g { g with phase := .returned x } rfl rfl
        (fun n hp' => by rcases hp' with hp' | ⟨_, hp'⟩ <;> cases hp') (fun e he => .inl he)
        fun y hy => by cases hy
  | checked x =>
    simp only [hp] at hs
    cases hs
    refine h.getter_step ⟨rfl, rfl, rfl, rfl, rfl⟩ g { g with phase := .returned x } rfl rfl
      (fun n hp' => by rcases hp' with hp' | ⟨_, hp'⟩ <;> cases hp') (fun e he => ?_)
      fun y hy => by cases hy
    dsimp only at he
    split at he
    · rcases mem_cons.mp he with rfl | he
      · exact .inr (.filling g hgmem rfl (by simp [State.filling, hp]))
      · exact .inl (mem_filter.mp he).1
    · exact .inl he
  | returned x => simp [hp] at hs

end

/-- Every step of a run in which publications cover what they change. -/
theorem Inv.step {e : Event} (h : Inv s) (hok : current s e = true) (hs : step s e = some s') :
    Inv s' := by
  cases e with
  | start members bulk entries exclusive => exact h.start hs
  | insert i => exact h.insert hs
  | note i cold => exact h.note hs
  | invalidate i => exact h.invalidate hok hs
  | publish i => exact h.publish hs
  | ask key =>
    cases hs
    exact h.of_reads (h.ask key)
  | probe i => exact h.of_reads (h.probe hs)
  | advance i room => exact h.of_reads (h.advance hok hs)

/-- What a step claims was claimed before it, or is what an uncached read gave. -/
theorem Inv.claims_step {e : Event} (h : Inv s) (hok : current s e = true) (hs : Cache.step s e = some s')
    (hclaim : Claims s' key v) : Claims s key v ∨ v = s.uncached key := by
  cases e with
  | start members bulk entries exclusive =>
    simp only [Cache.step, State.start] at hs
    split at hs
    · cases hs
      exact .inl (hclaim.mono (fun _ he => he) fun g hg v hv => ⟨hg, hv⟩)
    · cases hs
  | insert i => exact .inl (hclaim.of_insert hs)
  | note i cold =>
    obtain ⟨w, _, _, _, _, rfl⟩ := note_cases hs
    exact .inl (hclaim.mono (fun _ he => he) fun g hg v hv => ⟨hg, hv⟩)
  | invalidate i => exact .inl (hclaim.of_invalidate hs)
  | publish i => exact .inl (hclaim.of_publish h hs)
  | ask k =>
    cases hs
    exact ((h.ask k).claims key v hclaim).imp_right And.left
  | probe i => exact ((h.probe hs).claims key v hclaim).imp_right And.left
  | advance i room => exact ((h.advance hok hs).claims key v hclaim).imp_right And.left

theorem Inv.opened : Inv .opened := by
  have hnone : ∀ key v, ¬ Claims .opened key v := by
    intro key v h
    cases h with
    | cached h => cases h
    | filling g hg => cases hg
  refine ⟨?_, ?_, ?_, fun key v h => absurd h (hnone key v), fun key v _ => hnone key v⟩
  -- the rest is about members of empty lists
  all_goals
    intro x hx
    cases hx

end Steps
end PedraDb.Cache
