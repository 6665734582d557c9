import PedraDb.Layers.Order

/-! The moves of the flush pipeline keep the order.

A move is of one of a few kinds: tables move within memory (`Moved`), tables reach the
files (`Placed`), or the caches are folded. For each it is said once where the tables
stand after it. -/
namespace PedraDb.Layers
open List Tables
variable {sw : Switch} {t : Table} {cap : Nat}

section Switches
variable {key : Key} {snap : Nat} {s s' : Tables}

/-- Tables moved within memory. -/
structure Moved (key : Key) (snap : Nat) (s s' : Tables) : Prop where
  ssts : s'.ssts = s.ssts
  pending : s'.retiredPending = s.retiredPending
  fold : s'.retiredFold = s.retiredFold
  folding : s'.folding = s.folding
  tables : s.tables.Pairwise (Tops key snap) → s'.tables.Pairwise (Tops key snap)
  stored : ∀ v, v ∈ s'.stored ↔ v ∈ s.stored

/-- Tables moved from memory to the files. -/
structure Placed (key : Key) (snap : Nat) (s s' : Tables) (ts : List Table) : Prop where
  filed : Filed s s' ts
  tables : s.tables.Pairwise (Tops key snap) → s'.tables.Pairwise (Tops key snap)
  stored : ∀ v, v ∈ s'.stored ↔ v ∈ s.stored

/-- Tables that hold the same in the same order are still in order. -/
theorem Moved.ordered (h : Moved key snap s s') (hord : Ordered key snap s) : Ordered key snap s' :=
  hord.of_memory h.ssts h.pending h.fold h.folding (h.tables hord.tables)

theorem Moved.copies (h : Moved key snap s s') : s'.copies = s.copies := by
  rw [Tables.copies, Tables.copies, Tables.caches, Tables.caches, h.pending, h.fold, h.folding]

section
variable (hssts : s'.ssts = s.ssts) (hpending : s'.retiredPending = s.retiredPending)
    (hfold : s'.retiredFold = s.retiredFold) (hfolding : s'.folding = s.folding)
include hssts hpending hfold hfolding

theorem Moved.of_tables (htables : s'.tables = s.tables) : Moved key snap s s' :=
  ⟨hssts, hpending, hfold, hfolding, fun h => htables ▸ h,
    fun v => by rw [Tables.stored, htables, Tables.stored]⟩

/-- A fresh memtable in front. -/
theorem Moved.of_cons (htables : s'.tables = [] :: s.tables) : Moved key snap s s' :=
  ⟨hssts, hpending, hfold, hfolding, fun h => htables ▸ pairwise_cons.mpr ⟨fun u _ => .nil_left u, h⟩,
    fun v => by rw [Tables.stored, htables, flatten_cons, nil_append, Tables.stored]⟩

end

attribute [local simp] tables memLayers

/-! ### Within memory -/

/-- The active memtable becomes the immutable one. -/
theorem stage_moved (hs : s.stageFlushImm = some s') : Moved key snap s s' := by
  rw [stageFlushImm] at hs
  split at hs
  · cases hs
  next hno =>
    cases hs
    simp only [Bool.or_eq_true, Option.isSome_iff_ne_none, not_or, not_not] at hno
    exact .of_cons rfl rfl rfl rfl (by simp [hno.1]; rfl)

/-- The memtable that a flush takes is pinned where it was read. -/
theorem prepare_moved (hshape : s.Shaped) (hs : s.prepareFlushImm = some s') : Moved key snap s s' := by
  rw [prepareFlushImm] at hs
  split at hs
  next hflush =>
    have hpin := hshape.idle hflush
    split at hs
    next t himm =>
      cases hs
      exact .of_tables rfl rfl rfl rfl (by simp [himm, hpin]; rfl)
    next himm =>
      split at hs
      · cases hs
      · cases hs
        exact .of_cons rfl rfl rfl rfl (by simp [himm, hpin]; rfl)
  · cases hs

/-- A flush that failed puts its memtable back: into the active one when the slot is taken. -/
theorem restore_moved (hshape : s.Shaped) (hok : s.inOrder .restore = true)
    (hs : s.restoreImm = some s') :
    Moved key snap s s' := by
  rw [restoreImm] at hs
  split at hs
  next t hflush =>
    have hpin := (hshape.writing t hflush).1
    split at hs
    next u himm =>
      cases hs
      have hapart : apart t u = true := by simpa [inOrder, hflush, himm] using hok
      have hbefore : s.tables = s.mem :: u :: t :: (s.parked.reverse ++ s.files.flatten) := by
        simp [himm, hpin]
      have hafter : ({ s with mem := s.mem ++ t, pin := none, flushing := .idle } : Tables).tables =
          (s.mem ++ t) :: u :: (s.parked.reverse ++ s.files.flatten) := by
        simp [himm]
        rfl
      refine ⟨rfl, rfl, rfl, rfl, fun h => ?_, fun v => ?_⟩
      · rw [hbefore] at h
        obtain ⟨hmem, hu, ht, hrest⟩ :
          (∀ a ∈ u :: t :: (s.parked.reverse ++ s.files.flatten), Tops key snap s.mem a) ∧
            (∀ a ∈ t :: (s.parked.reverse ++ s.files.flatten), Tops key snap u a) ∧
            (∀ a ∈ s.parked.reverse ++ s.files.flatten, Tops key snap t a) ∧
            (s.parked.reverse ++ s.files.flatten).Pairwise (Tops key snap) := by
          simpa using h
        rw [hafter, pairwise_cons, pairwise_cons]
        refine ⟨forall_mem_cons.mpr ⟨?_, fun a ha => ?_⟩, fun a ha => hu a (mem_cons_of_mem _ ha), hrest⟩
        · exact (hmem _ (by simp)).append_left (apart_tops hapart).1
        · exact (hmem a (by simp [ha])).append_left (ht a ha)
      · rw [stored, stored, hbefore, hafter]
        simp only [flatten_cons, mem_append]
        tauto
    next himm =>
      cases hs
      exact .of_tables rfl rfl rfl rfl (by simp [himm, hpin]; rfl)
  · cases hs

/-- The active memtable is parked past two others that have none of its keys. -/
theorem parkActive_moved (hok : s.inOrder .parkActive = true) : Moved key snap s s.parkActiveMem := by
  rw [parkActiveMem, pushParkedUnflushed]
  split
  next hempty =>
    have hmem : s.mem = [] := by simpa using hempty
    exact .of_tables rfl rfl rfl rfl (by simp [hmem]; rfl)
  · have hbefore : s.tables = [] ++ s.mem :: (s.imm.toList ++ s.pin.toList) ++
        (s.parked.reverse ++ s.files.flatten) := by
      simp
    have hafter : ({ s with mem := [], parked := s.parked ++ [s.mem] } : Tables).tables =
        [] :: ([] ++ (s.imm.toList ++ s.pin.toList) ++
          s.mem :: (s.parked.reverse ++ s.files.flatten)) := by
      simp
      rfl
    refine ⟨rfl, rfl, rfl, rfl, fun h => ?_, fun v => ?_⟩
    · rw [hbefore] at h
      rw [hafter]
      refine pairwise_cons.mpr ⟨fun u _ => .nil_left u, pairwise_move h fun u hu => ?_⟩
      exact (apart_tops (all_eq_true.mp hok u hu)).2
    · rw [stored, stored, hbefore, hafter]
      simp only [flatten_append, flatten_cons, nil_append, mem_append]
      tauto

/-- With no flush running the immutable memtable is next to the parked ones. -/
theorem parkImm_moved (hshape : s.Shaped) (hs : s.parkImm = some s') : Moved key snap s s' := by
  rw [parkImm] at hs
  split at hs
  next t hflush himm =>
    have hpin := hshape.idle hflush
    cases hs
    rw [pushParkedUnflushed]
    split
    next hempty =>
      have ht : t = [] := by simpa using hempty
      subst ht
      have hbefore : s.tables = s.mem :: [] :: ({ s with imm := none } : Tables).tables.tail := by
        simp [himm, hpin]
        rfl
      have hafter : ({ s with imm := none } : Tables).tables =
        s.mem :: ({ s with imm := none } : Tables).tables.tail := rfl
      refine ⟨rfl, rfl, rfl, rfl, fun h => ?_, fun v => ?_⟩
      · rw [hbefore] at h
        rw [hafter]
        exact h.sublist (.cons_cons _ (.cons _ (.refl _)))
      · rw [stored, stored, hbefore, hafter]
        simp
    · exact .of_tables rfl rfl rfl rfl (by simp [himm, hpin]; rfl)
  · cases hs

/-- The oldest parked memtable is flushed from where it stands. -/
theorem materialize_moved (hs : s.materializeParked = some s') : Moved key snap s s' := by
  rw [materializeParked] at hs
  split at hs
  · cases hs
    exact .of_tables rfl rfl rfl rfl rfl
  · cases hs

/-! ### To the files -/

/-- A flushed memtable is placed above the files: what is parked has no key of it. -/
theorem install_placed (hshape : s.Shaped) (hflush : s.flushing = .writing t)
    (hapart : s.parked.all (apart t) = true) :
    Placed key snap s { s with ssts := s.ssts ++ [⟨0, t⟩], flushing := .idle, pin := none } [t] := by
  have hpin := (hshape.writing t hflush).1
  have hfiles :
    ({ s with ssts := s.ssts ++ [⟨0, t⟩], flushing := .idle, pin := none } : Tables).files.flatten =
      t :: s.files.flatten := files_install s t
  have hbefore : s.tables = ([s.mem] ++ s.imm.toList) ++ t :: s.parked.reverse ++ s.files.flatten := by
    simp [hpin]
  have hafter : ({ s with ssts := s.ssts ++ [⟨0, t⟩], flushing := .idle, pin := none } : Tables).tables =
      ([s.mem] ++ s.imm.toList) ++ s.parked.reverse ++ t :: s.files.flatten := by
    rw [tables, hfiles]
    simp [memLayers]
  refine ⟨⟨hfiles, rfl, rfl, rfl⟩, fun h => ?_, fun v => ?_⟩
  · rw [hbefore] at h
    rw [hafter]
    refine pairwise_move h fun u hu => (apart_tops (all_eq_true.mp hapart u ?_)).2
    exact mem_reverse.mp hu
  · rw [stored, stored, hbefore, hafter]
    simp only [flatten_append, flatten_cons, mem_append]
    tauto

/-- The oldest parked memtable is next to the files already. -/
theorem materialized_placed (hshape : s.Shaped) (hflush : s.flushing = .materializing t) :
    Placed key snap s { s with
      ssts := s.ssts ++ [⟨0, t⟩], flushing := .idle, parked := s.parked.tail } [t] := by
  obtain ⟨rest, hparked⟩ : ∃ rest, s.parked = t :: rest :=
    ⟨s.parked.tail, eq_cons_of_mem_head? (hshape.materializing t hflush).2⟩
  have hfiles : ({ s with ssts := s.ssts ++ [⟨0, t⟩], flushing := .idle, parked := s.parked.tail } :
    Tables).files.flatten =
      t :: s.files.flatten := files_install s t
  have htables :
    ({ s with ssts := s.ssts ++ [⟨0, t⟩], flushing := .idle, parked := s.parked.tail } :
      Tables).tables =
      s.tables := by
    rw [tables, hfiles]
    simp [hparked]
  exact ⟨⟨hfiles, rfl, rfl, rfl⟩, fun h => htables ▸ h, fun v => by rw [stored, htables, stored]⟩

/-- Flushing tables in turn adds a file for each that is not empty. -/
theorem foldl_flushImmToL0 (cap : Nat) (ts : List Table) (hpin : s.pin = none) :
    ts.foldl (flushImmToL0 cap) s =
      { s with ssts := s.ssts ++ (ts.filter fun t => !t.isEmpty).map (Sst.mk 0) } := by
  induction ts generalizing s with
  | nil => simp
  | cons t ts ih =>
    rw [foldl_cons, flushImmToL0]
    split
    next hempty => rw [ih hpin, filter_cons_of_neg (by simpa using hempty)]
    next hempty =>
      rw [show ({ s with ssts := s.ssts ++ [⟨0, t⟩] } : Tables).retireFlushPin cap =
        { s with ssts := s.ssts ++ [⟨0, t⟩] } by simp [retireFlushPin, hpin]]
      rw [ih (s := { s with ssts := s.ssts ++ [⟨0, t⟩] }) hpin,
        filter_cons_of_pos (by simpa using hempty)]
      simp

/-- A later file is looked in first. -/
theorem files_append (s : Tables) (ts : List Table) :
    ({ s with ssts := s.ssts ++ ts.map (Sst.mk 0) } : Tables).files.flatten =
    ts.reverse ++ s.files.flatten := by
  induction ts generalizing s with
  | nil => simp
  | cons t ts ih =>
    have hstep := ih { s with ssts := s.ssts ++ [⟨0, t⟩] }
    simp only [append_assoc, singleton_append] at hstep
    rw [map_cons, hstep, files_install, reverse_cons, append_assoc, singleton_append]

theorem flush_eq (cap : Nat) (hpin : s.pin = none) :
    s.flush cap =
      { s with
        mem := [], imm := none, parked := []
        ssts := s.ssts ++ ((s.imm.toList ++ s.parked ++ [s.mem]).filter fun t => !t.isEmpty).map
          (Sst.mk 0) } :=
  foldl_flushImmToL0 (s := { s with mem := [], imm := none, parked := [] }) cap _ hpin

/-- A full flush writes every memtable, oldest first, so the files are in order. -/
theorem flush_placed (hshape : s.Shaped) (hidle : s.flushing = .idle)
    (hapart : ∀ t ∈ s.imm.toList, ∀ u ∈ s.parked, apart t u = true) :
    Placed key snap s (s.flush cap) (([s.mem] ++ s.parked.reverse ++ s.imm.toList).filter fun t =>
      !t.isEmpty) := by
  have hpin := hshape.idle hidle
  have hflush := flush_eq cap hpin
  have hfiles : (s.flush cap).files.flatten =
      (([s.mem] ++ s.parked.reverse ++ s.imm.toList).filter fun t => !t.isEmpty) ++ s.files.flatten := by
    rw [hflush]
    refine (files_append { s with mem := [], imm := none, parked := [] } _).trans ?_
    rw [← filter_reverse]
    have himm : s.imm.toList.reverse = s.imm.toList := by cases s.imm <;> rfl
    simp only [reverse_append, reverse_singleton, himm, append_assoc]
    rfl
  have hmem : (s.flush cap).memLayers = [[]] := by simp [hflush, memLayers, hpin]
  have hbefore : s.tables = [s.mem] ++ s.imm.toList ++ (s.parked.reverse ++ s.files.flatten) := by
    simp [hpin]
  have hafter : (s.flush cap).tables =
      [] :: ((([s.mem] ++ s.parked.reverse ++ s.imm.toList).filter fun t => !t.isEmpty) ++
        s.files.flatten) := by
    rw [tables, hmem, hfiles, singleton_append]
  refine ⟨⟨hfiles, ?_, ?_, ?_⟩, fun h => ?_, fun v => ?_⟩
  · rw [hflush]
  · rw [hflush]
  · rw [hflush]
  · rw [hafter]
    refine pairwise_cons.mpr ⟨fun u _ => .nil_left u, ?_⟩
    have hmoved : ([s.mem] ++ s.parked.reverse ++ s.imm.toList ++ s.files.flatten).Pairwise
        (Tops key snap) := by
      rw [hbefore] at h
      cases himm : s.imm with
      | none => simpa [himm] using h
      | some t =>
        have h' : ([s.mem] ++ t :: s.parked.reverse ++ s.files.flatten).Pairwise
          (Tops key snap) := by simpa [himm] using h
        have := pairwise_move h' fun u hu =>
          (apart_tops (hapart t (by simp [himm]) u (mem_reverse.mp hu))).2
        simpa using this
    exact hmoved.sublist (filter_sublist.append (.refl _))
  · rw [stored, stored, hbefore, hafter, flatten_cons, nil_append, flatten_append,
      flatten_filter_not_isEmpty]
    simp only [flatten_append, mem_append]
    tauto

/-! ### Every move -/

theorem fresh_mono {older newer newer' : List WriteOp} (h : fresh older newer = true)
    (hsub : ∀ w ∈ newer', w ∈ newer) :
    fresh older newer' = true :=
  all_eq_true.mpr fun w hw => all_eq_true.mp h w (hsub w hw)

/-- A cache that is fresh against a table is so against a part of it. -/
theorem cachesFresh_mono {t' : Table} (h : s.cachesFresh t = true) (hsub : ∀ w ∈ t', w ∈ t) :
    s.cachesFresh t' = true := by
  simp only [cachesFresh, foldsFresh, Bool.and_eq_true, all_eq_true] at h ⊢
  obtain ⟨hpile, hfold, hbuilt⟩ := h
  refine ⟨fun c hc => fresh_mono (hpile c hc) hsub, fresh_mono hfold hsub, ?_⟩
  cases hf : s.folding with
  | none => rfl
  | some built =>
    simp only [hf] at hbuilt
    exact fresh_mono hbuilt hsub

/-- What a move that keeps the order does. -/
inductive Switched (key : Key) (snap : Nat) (s s' : Tables) : Prop where
  | moved (h : Moved key snap s s')
  | retired {s₁ : Tables} {t : Table} {cap : Nat} (h : Placed key snap s s₁ [t]) (hne : t ≠ [])
      (hfresh : s.retiresFresh t cap = true) (heq : s' = s₁.retireMemAsL0Cache t cap)
  | uncached {ts : List Table} (h : Placed key snap s s' ts) (hfresh : s.cachesFresh ts.flatten = true)
  | taken (hfolding : s.folding = none) (hfresh : fresh s.retiredFold s.retiredPending.flatten = true)
      (heq : s' = { s with retiredPending := [], folding := some s.retiredPending.flatten })
  | folded {built : Table} {cap : Nat} (hfolding : s.folding = some built)
      (heq : s' = { s with retiredFold := fittingFold cap (s.retiredFold ++ built), folding := none })

/-- Every move is one of the kinds above. -/
theorem switch_cases (key : Key) (snap : Nat)
    (hshape : s.Shaped) (hok : s.inOrder sw = true) (hs : s.switch sw = some s') :
    Switched key snap s s' := by
  cases sw with
  | stage => exact .moved (stage_moved hs)
  | prepare => exact .moved (prepare_moved hshape hs)
  | restore => exact .moved (restore_moved hshape hok hs)
  | parkActive =>
    cases hs
    exact .moved (parkActive_moved hok)
  | parkImm => exact .moved (parkImm_moved hshape hs)
  | materialize => exact .moved (materialize_moved hs)
  | install cap =>
    simp only [switch, installL0] at hs
    split at hs
    next t hflush =>
      cases hs
      simp only [inOrder, hflush, Bool.and_eq_true] at hok
      have hpin := hshape.writing t hflush
      refine .retired (install_placed hshape hflush hok.1) hpin.2 hok.2 ?_
      simp [retireFlushPin, hpin.1]
    · cases hs
  | materialized keep cap =>
    simp only [switch, materialized] at hs
    split at hs
    next t hflush =>
      have hhead := (hshape.materializing t hflush).2
      have hne : t ≠ [] := hshape.parked t (mem_of_mem_head? hhead)
      rw [if_pos hhead] at hs
      simp only [inOrder, hflush] at hok
      cases keep with
      | true =>
        rw [if_pos rfl] at hs hok
        cases hs
        exact .retired (materialized_placed hshape hflush) hne hok rfl
      | false =>
        rw [if_neg (by simp)] at hs hok
        cases hs
        exact .uncached (materialized_placed hshape hflush) (by simpa using hok)
    · cases hs
  | flush cap =>
    cases hs
    simp only [inOrder, Bool.and_eq_true, decide_eq_true_eq, all_eq_true] at hok
    obtain ⟨⟨hidle, hapart⟩, hfresh⟩ := hok
    refine .uncached (flush_placed hshape hidle hapart) (cachesFresh_mono hfresh fun w hw => ?_)
    simp only [mem_flatten, mem_filter, mem_append, mem_reverse] at hw ⊢
    obtain ⟨t, ⟨ht, _⟩, hwt⟩ := hw
    exact ⟨t, by tauto, hwt⟩
  | takeRetired =>
    simp only [switch, takeRetiredPending] at hs
    split at hs
    · cases hs
    next hfolding =>
      cases hs
      exact .taken hfolding hok rfl
  | installFold cap =>
    simp only [switch, installRetiredFold] at hs
    split at hs
    · cases hs
    next built hfolding =>
      cases hs
      exact .folded hfolding rfl

/-- What was pending mirrors the files on its own when a fold takes it. -/
theorem mirrors_taken (h : Ordered key snap s) :
    Mirrors key snap ([] ++ [s.retiredPending.flatten]) s.filed := by
  refine (Layered.Mirrors.nil s.filed).concat fun ⟨v, hv, hvsees⟩ w hw hsees => ?_
  obtain ⟨t, ht, hvt⟩ := mem_flatten.mp hv
  obtain ⟨pre, post, heq⟩ := append_of_mem (mem_reverse.mpr ht)
  obtain ⟨x, hx, hrest⟩ := h.caches.left pre t post heq ⟨v, hvt, hvsees⟩ w hw hsees
  refine ⟨x, ?_, hrest⟩
  have hsub : x ∈ s.retiredPending.reverse.flatten := by
    rw [heq, flatten_append, flatten_cons]
    rcases mem_append.mp hx with hx | hx
    · exact mem_append_left _ hx
    · exact mem_append_right _ (mem_append_left _ hx)
  simpa using hsub

theorem folded_copies {built : Table} (hfolding : s.folding = some built) :
    ∀ v ∈ ({ s with retiredFold := fittingFold cap (s.retiredFold ++ built), folding := none } :
      Tables).copies,
      v ∈ s.copies := by
  intro v hv
  simp only [copies, caches, hfolding, flatten_append, mem_append, Option.toList_none,
    Option.toList_some, flatten_nil, flatten_singleton, append_nil] at hv ⊢
  rcases hv with hv | hv
  · exact .inl (.inl hv)
  · rcases fittingFold_cases cap (s.retiredFold ++ built) with hf | hf
    · rw [hf, mem_append] at hv
      tauto
    · rw [hf] at hv
      cases hv

theorem taken_copies (hfolding : s.folding = none) :
    ∀ v ∈ ({ s with retiredPending := [], folding := some s.retiredPending.flatten } :
      Tables).copies, v ∈ s.copies := by
  intro v hv
  simp only [copies, caches, hfolding, flatten_append, mem_append, Option.toList_none,
    Option.toList_some, reverse_nil, flatten_nil, flatten_singleton] at hv ⊢
  rcases hv with (hv | hv) | hv
  · cases hv
  · exact .inl (.inr hv)
  · exact .inl (.inl (by simpa using hv))

/-- **A move that meets the condition keeps the order**, for every key and snapshot. -/
theorem Ordered.switch (h : Ordered key snap s) (hshape : s.Shaped) (hok : s.inOrder sw = true)
    (hs : s.switch sw = some s') : Ordered key snap s' := by
  rcases switch_cases key snap hshape hok hs with hm | ⟨hp, hne, hfresh, rfl⟩ | ⟨hp, hfresh⟩ |
    ⟨hfolding, hfresh, rfl⟩ |
    ⟨hfolding, rfl⟩
  · exact hm.ordered h
  · exact h.retire hp.filed (hp.tables h.tables) hne hfresh
  · exact h.uncached hp.filed (hp.tables h.tables) hfresh
  · refine ⟨h.tables, ?_, ?_, ?_⟩
    · -- the fold is asked alone while the pile is away
      refine (Layered.Mirrors.nil s.filed).concat fun hseen w hw hsees => ?_
      obtain ⟨v, hv, hvsees, hle⟩ := h.caches.last hseen hw hsees
      rcases mem_append.mp hv with hv | hv
      · obtain ⟨x, hx, hxsees, hle'⟩ := fresh_tops hfresh v (by simpa using hv) hvsees hseen
        exact ⟨x, mem_append_right _ hx, hxsees, Nat.le_trans hle hle'⟩
      · exact ⟨v, mem_append_right _ hv, hvsees, hle⟩
    · intro built hbuilt
      obtain rfl : s.retiredPending.flatten = built := by simpa using hbuilt
      exact mirrors_taken h
    · exact fun v hv => h.cached v (taken_copies hfolding v hv)
  · refine ⟨h.tables, ?_, by simp, ?_⟩
    · refine mirrors_fittingFold _ h.caches.left fun _ => h.caches.left.concat
        fun ⟨v, hv, hvsees⟩ w hw hsees => ?_
      rcases mem_append.mp hv with hv | hv
      · obtain ⟨x, hx, hrest⟩ := h.caches.last ⟨v, hv, hvsees⟩ hw hsees
        exact ⟨x, by simp only [mem_append] at hx ⊢; tauto, hrest⟩
      · obtain ⟨x, hx, hrest⟩ := (h.folding _ hfolding).last ⟨v, hv, hvsees⟩ hw hsees
        exact ⟨x, by simp only [mem_append] at hx ⊢; tauto, hrest⟩
    · exact fun v hv => h.cached v (folded_copies hfolding v hv)

theorem retireMemAsL0Cache_stored (s : Tables) (t : Table) (cap : Nat) :
    (s.retireMemAsL0Cache t cap).stored = s.stored := by
  rw [retireMemAsL0Cache]
  split <;> rfl

section
variable (hshape : s.Shaped) (hok : s.inOrder sw = true) (hs : s.switch sw = some s')
include hshape hok hs

/-- No move loses or makes a version. -/
theorem switch_stored (v : WriteOp) : v ∈ s'.stored ↔ v ∈ s.stored := by
  rcases switch_cases [] 0 hshape hok hs with hm | ⟨hp, _, _, rfl⟩ | ⟨hp, _⟩ | ⟨_, _, rfl⟩ | ⟨_, rfl⟩
  · exact hm.stored v
  · rw [retireMemAsL0Cache_stored]
    exact hp.stored v
  · exact hp.stored v
  · exact Iff.rfl
  · exact Iff.rfl

/-- A copy is an old one or of what is stored. -/
theorem switch_copies : ∀ v ∈ s'.copies, v ∈ s.copies ∨ v ∈ s'.stored := by
  intro v hv
  rcases switch_cases [] 0 hshape hok hs with hm | ⟨hp, _, _, rfl⟩ | ⟨hp, _⟩ | ⟨hfolding, _, rfl⟩ |
    ⟨hfolding, rfl⟩
  · rw [hm.copies] at hv
    exact .inl hv
  · rw [retireMemAsL0Cache_stored]
    rcases retireMemAsL0Cache_copies _ _ _ v hv with hv | hv
    · rw [copies, caches, hp.filed.pending, hp.filed.fold, hp.filed.folding] at hv
      exact .inl hv
    · refine .inr ?_
      rw [stored, tables, flatten_append, hp.filed.files]
      simp [hv]
  · rw [copies, caches, hp.filed.pending, hp.filed.fold, hp.filed.folding] at hv
    exact .inl hv
  · exact .inl (taken_copies hfolding v hv)
  · exact .inl (folded_copies hfolding v hv)

end

theorem pushParkedUnflushed_parked (s : Tables) (t : Table) (h : ∀ t ∈ s.parked, t ≠ []) :
    ∀ u ∈ (s.pushParkedUnflushed t).parked, u ≠ [] := by
  rw [pushParkedUnflushed]
  split
  · exact h
  next hempty =>
    exact forall_mem_append.mpr ⟨h, forall_mem_singleton.mpr (by simpa using hempty)⟩

theorem pushParkedUnflushed_head {u : Table} (h : s.parked.head? = some u) :
    (s.pushParkedUnflushed t).parked.head? = some u := by
  rw [pushParkedUnflushed]
  split
  · exact h
  · simp [h]

theorem pushParkedUnflushed_eq (s : Tables) (t : Table) :
    s.pushParkedUnflushed t = { s with parked := (s.pushParkedUnflushed t).parked } := by
  rw [pushParkedUnflushed]
  split <;> rfl

theorem retireMemAsL0Cache_shaped (h : s.Shaped) : (s.retireMemAsL0Cache t cap).Shaped := by
  rw [retireMemAsL0Cache]
  split
  · exact h
  · exact { h with }

/-- The slots are filled as the flush phase says, after every move. -/
theorem Shaped.switch (hshape : s.Shaped) (hok : s.inOrder sw = true) (hs : s.switch sw = some s') :
    s'.Shaped := by
  cases sw with
  | stage =>
    simp only [switch, stageFlushImm] at hs
    split at hs <;> cases hs
    next hno =>
    simp only [Bool.or_eq_true, not_or] at hno
    exact { hshape with imm := by simpa using hno.2 }
  | prepare =>
    simp only [switch, prepareFlushImm] at hs
    split at hs
    · split at hs
      next t himm =>
        cases hs
        exact ⟨by simp, hshape.parked, by simp, by simpa using hshape.imm t himm, by simp⟩
      next himm =>
        split at hs <;> cases hs
        next hmem => exact ⟨hshape.imm, hshape.parked, by simp, by simpa using hmem, by simp⟩
    · cases hs
  | install cap =>
    simp only [switch, installL0] at hs
    split at hs
    next t hflush =>
      cases hs
      have hpin := (hshape.writing t hflush).1
      rw [retireFlushPin]
      simp only [hpin]
      exact retireMemAsL0Cache_shaped ⟨hshape.imm, hshape.parked, by simp, by simp, by simp⟩
    · cases hs
  | restore =>
    simp only [switch, restoreImm] at hs
    split at hs
    next t hflush =>
      split at hs <;> cases hs
      · exact ⟨hshape.imm, hshape.parked, by simp, by simp, by simp⟩
      · exact ⟨by simpa using (hshape.writing t hflush).2, hshape.parked, by simp, by simp, by simp⟩
    · cases hs
  | parkActive =>
    cases hs
    rw [parkActiveMem, pushParkedUnflushed_eq]
    exact ⟨hshape.imm, pushParkedUnflushed_parked _ _ hshape.parked,
      hshape.idle, hshape.writing, fun t ht =>
      ⟨(hshape.materializing t ht).1, pushParkedUnflushed_head (hshape.materializing t ht).2⟩⟩
  | parkImm =>
    simp only [switch, parkImm] at hs
    split at hs
    next t hflush himm =>
      cases hs
      rw [pushParkedUnflushed_eq]
      exact ⟨by simp, pushParkedUnflushed_parked _ _ hshape.parked, hshape.idle, hshape.writing,
        fun t ht => ⟨(hshape.materializing t ht).1, pushParkedUnflushed_head (hshape.materializing t ht).2⟩⟩
    · cases hs
  | materialize =>
    simp only [switch, materializeParked] at hs
    split at hs
    next t rest hflush hparked =>
      cases hs
      exact ⟨hshape.imm, hshape.parked, by simp, by simp, by simp [hshape.idle hflush, hparked]⟩
    · cases hs
  | materialized keep cap =>
    simp only [switch, materialized] at hs
    split at hs
    next t hflush =>
      obtain ⟨hpin, hhead⟩ := hshape.materializing t hflush
      rw [if_pos hhead] at hs
      have hbase :
        Tables.Shaped { s with
          ssts := s.ssts ++ [⟨0, t⟩], flushing := .idle, parked := s.parked.tail } :=
        ⟨hshape.imm, fun u hu => hshape.parked u (mem_of_mem_tail hu), fun _ => hpin, by simp, by simp⟩
      split at hs <;> cases hs
      · exact retireMemAsL0Cache_shaped hbase
      · exact hbase
    · cases hs
  | flush cap =>
    cases hs
    simp only [inOrder, Bool.and_eq_true, decide_eq_true_eq] at hok
    have hidle := hok.1.1
    have hpin := hshape.idle hidle
    rw [flush, foldl_flushImmToL0 (s := { s with mem := [], imm := none, parked := [] }) cap _ hpin]
    exact ⟨by simp, by simp, fun _ => hpin, by simp [hidle], by simp [hidle]⟩
  | takeRetired =>
    simp only [switch, takeRetiredPending] at hs
    split at hs <;> cases hs
    exact { hshape with }
  | installFold cap =>
    simp only [switch, installRetiredFold] at hs
    split at hs <;> cases hs
    exact { hshape with }

end Switches

end PedraDb.Layers
