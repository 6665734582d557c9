import PedraDb.Layers.State

/-! Tables in order of recency.

A read asks the memtables and the files in a fixed order and takes the first point, so a
version must not come to stand behind an older one of its key. The moves of the flush
pipeline keep that order only where the tables they move past one another share no key,
and a cache keeps it only where no newer version of its keys has reached the files past
it: `inOrder`. Where a move meets that, the order is kept (`Ordered.switch`), for every key
and every snapshot alike. -/
namespace PedraDb.Layers
open List Tables
variable {s₁ : Tables} {t : Table} {cap : Nat} {ops : List WriteOp} {ts cs : List Table}

/-! ### When a move keeps the order -/

def meets (v w : WriteOp) : Bool :=
  match v.kind, w.kind with
  | .rangeDeletion, .rangeDeletion => decide (v.key < w.value) && decide (w.key < v.value)
  | .rangeDeletion, _ => v.covers w.key
  | _, _ => w.covers v.key

def apart (t u : Table) : Bool := t.all fun v => u.all fun w => !meets v w

/-- What is newer in `newer` is in `older` too, or `older` holds nothing of its key. -/
def fresh (older newer : List WriteOp) : Bool :=
  newer.all fun w => older.contains w || older.all fun v => !meets v w || decide (w.sequence ≤ v.sequence)

namespace Tables

/-- What of a pile does not fit. -/
def overflow (cap : Nat) (pile : List Table) : Table :=
  (pile.take (pile.length - (fitting cap pile).length)).flatten

/-- The fold that stays, and the one being built, lack no newer version of their keys. -/
def foldsFresh (s : Tables) (fold newer : Table) : Bool :=
  fresh fold newer &&
    match s.folding with
    | none => true
    | some built => fresh built newer

/-- A table that is retired pushes out of the pile nothing newer than what the folds hold. -/
def retiresFresh (s : Tables) (t : Table) (cap : Nat) : Bool :=
  s.foldsFresh (fittingFold cap s.retiredFold) (overflow cap (s.retiredPending ++ [t]))

/-- A table that reaches the files without being cached is not newer than a cache. -/
def cachesFresh (s : Tables) (t : Table) : Bool :=
  s.retiredPending.all (fun c => fresh c t) && s.foldsFresh s.retiredFold t

/-- The move passes no version behind an older one of its key. -/
def inOrder (s : Tables) : Switch → Bool
  | .install cap =>
    match s.flushing with
    | .writing t => s.parked.all (apart t) && s.retiresFresh t cap
    | _ => true
  | .restore =>
    match s.flushing, s.imm with
    | .writing t, some u => apart t u
    | _, _ => true
  | .parkActive => (s.imm.toList ++ s.pin.toList).all (apart s.mem)
  | .materialized keep cap =>
    match s.flushing with
    | .materializing t => if keep then s.retiresFresh t cap else s.cachesFresh t
    | _ => true
  | .flush _ =>
    decide (s.flushing = .idle) && s.imm.toList.all (fun t => s.parked.all (apart t)) &&
      s.cachesFresh (s.imm.toList ++ s.parked ++ [s.mem]).flatten
  | .takeRetired => fresh s.retiredFold s.retiredPending.flatten
  | _ => true

end Tables

abbrev Tops (key : Key) (snap : Nat) : Table → Table → Prop :=
  Layered.Tops (Sees key snap) WriteOp.sequence

abbrev Mirrors (key : Key) (snap : Nat) : List Table → List WriteOp → Prop :=
  Layered.Mirrors (Sees key snap) WriteOp.sequence

section Apart
variable {key : Key} {snap : Nat}

theorem meets_of_covers {v w : WriteOp} (hv : v.covers key = true) (hw : w.covers key = true) :
    meets v w = true := by
  have hrange : ∀ {o : WriteOp}, o.kind = .rangeDeletion → o.covers key = true → o.key ≤ key ∧
      key < o.value := by
    intro o hk ho
    rw [covers_range hk] at ho
    simpa [rangeTombstoneCovers] using ho
  by_cases hvk : v.kind = .rangeDeletion
  · by_cases hwk : w.kind = .rangeDeletion
    · obtain ⟨hv1, hv2⟩ := hrange hvk hv
      obtain ⟨hw1, hw2⟩ := hrange hwk hw
      simp [meets, hvk, hwk, List.lt_of_le_of_lt hv1 hw2, List.lt_of_le_of_lt hw1 hv2]
    · have hwkey := (covers_point hwk).mp hw
      cases hwk' : w.kind <;> simp_all [meets]
  · have hvkey := (covers_point hvk).mp hv
    cases hvk' : v.kind <;> simp_all [meets]

theorem apart_unseen {u : Table} (h : apart t u = true) :
    ¬ ((∃ v ∈ t, Sees key snap v) ∧ ∃ w ∈ u, Sees key snap w) := by
  rintro ⟨⟨v, hv, hvsees⟩, w, hw, hwsees⟩
  have hno := all_eq_true.mp (all_eq_true.mp h v hv) w hw
  rw [meets_of_covers hvsees.1 hwsees.1] at hno
  cases hno

theorem apart_tops {u : Table} (h : apart t u = true) : Tops key snap t u ∧ Tops key snap u t :=
  ⟨.of_unseen (apart_unseen h), .of_unseen fun ⟨hu, ht⟩ => apart_unseen h ⟨ht, hu⟩⟩

theorem fresh_tops {older newer : List WriteOp} (h : fresh older newer = true) :
    Tops key snap older newer := by
  rintro w hw hsees ⟨v, hv, hvsees⟩
  have hw' := all_eq_true.mp h w hw
  simp only [Bool.or_eq_true, contains_iff_mem, all_eq_true, Bool.not_eq_true', decide_eq_true_eq] at hw'
  rcases hw' with hmem | hle
  · exact ⟨w, hmem, hsees, le_rfl⟩
  · rcases hle v hv with hmeets | hle
    · rw [meets_of_covers hvsees.1 hsees.1] at hmeets
      cases hmeets
    · exact ⟨v, hv, hvsees, hle⟩

end Apart

/-! ### The order of a store -/

namespace Tables

/-- The tables that hold the store's operations, as they are asked. -/
def tables (s : Tables) : List Table := s.memLayers ++ s.files.flatten

def stored (s : Tables) : List WriteOp := s.tables.flatten

def filed (s : Tables) : List WriteOp := s.files.flatten.flatten

/-- The operations of the caches, those the fold has taken included. -/
def copies (s : Tables) : List WriteOp := s.caches.flatten ++ s.folding.toList.flatten

/-- What a flush has taken is pinned, what is being materialized is the oldest parked
table, and no table waits empty. -/
structure Shaped (s : Tables) : Prop where
  imm : ∀ t ∈ s.imm, t ≠ []
  parked : ∀ t ∈ s.parked, t ≠ []
  idle : s.flushing = .idle → s.pin = none
  writing : ∀ t, s.flushing = .writing t → s.pin = some t ∧ t ≠ []
  materializing : ∀ t, s.flushing = .materializing t → s.pin = none ∧ s.parked.head? = some t

end Tables

/-- The order, for one key and one snapshot. -/
structure Ordered (key : Key) (snap : Nat) (s : Tables) : Prop where
  tables : s.tables.Pairwise (Tops key snap)
  caches : Mirrors key snap s.caches s.filed
  folding : ∀ built, s.folding = some built → Mirrors key snap
    (s.retiredPending.reverse ++ [built]) s.filed
  cached : ∀ v ∈ s.copies, Sees key snap v → ∃ w ∈ s.filed, Sees key snap w ∧ v.sequence ≤ w.sequence

section Reads
variable {key : Key} {snap : Nat} {s : Tables}

section
variable (h : Ordered key snap s)
include h

theorem Ordered.fronts_cached : Fronts key snap [] (s.memLayers ++ s.caches ++ s.files.flatten) := by
  obtain ⟨hmem, hfiles, hcross⟩ := pairwise_append.mp h.tables
  have hwithin : ∀ v ∈ s.caches.flatten, Sees key snap v → ∃ w ∈ s.filed, Sees key snap w ∧
    v.sequence ≤ w.sequence :=
    fun v hv => h.cached v (mem_append_left _ hv)
  rw [append_assoc]
  refine Layered.fronts_append (Layered.fronts_of_pairwise hmem _)
    (Layered.fronts_append (h.caches.fronts hwithin _)
    (Layered.fronts_of_pairwise hfiles _) fun pre c post heq hc w hw hsees => ?_)
    fun pre t post heq ht w hw hsees => ?_
  · obtain ⟨v, hv, hrest⟩ := h.caches pre c post heq hc w hw hsees
    refine ⟨v, ?_, hrest⟩
    rw [append_assoc]
    exact mem_append_right _ hv
  · -- an operation of a cache is not above one of a file
    obtain ⟨w', hw', hsees', hle'⟩ : ∃ w' ∈ s.filed, Sees key snap w' ∧ w.sequence ≤ w'.sequence := by
      rw [flatten_append] at hw
      rcases mem_append.mp hw with hw | hw
      · exact hwithin w hw hsees
      · exact ⟨w, hw, hsees, le_rfl⟩
    obtain ⟨u, hu, hwu⟩ := mem_flatten.mp hw'
    obtain ⟨v, hv, hvsees, hle⟩ := hcross t (by simp [heq]) u hu w' hwu hsees' ht
    exact ⟨v, mem_append_right _ hv, hvsees, Nat.le_trans hle' hle⟩

/-- **A read gives the newest operation over the key.** -/
theorem Ordered.lookup (hdistinct : Distinct (s.stored ++ s.caches.flatten))
    (hformed : ∀ v ∈ s.stored ++ s.caches.flatten, Formed v) :
    Answers key snap (s.memLayers ++ s.caches ++ s.files.flatten).flatten (s.lookup key snap) := by
  have hsub : ∀ v ∈ (s.memLayers ++ s.caches ++ s.files.flatten).flatten,
      v ∈ s.stored ++ s.caches.flatten := by
    intro v hv
    simp only [flatten_append, mem_append] at hv
    simp only [Tables.stored, Tables.tables, flatten_append, mem_append]
    tauto
  exact lookup_answers h.fronts_cached (fun v hv w hw => hdistinct v (hsub v hv) w (hsub w hw))
    (fun v hv => hformed v (hsub v hv)) fun _ => rfl

end

end Reads

/-! ### Moves of tables -/

section Moves
variable {key : Key} {snap : Nat} {s : Tables}

theorem files_eq (s : Tables) : s.files = [s.level 0, s.level 1, s.level 2, s.level 3] := rfl

theorem Tables.empty_stored : empty.stored = [] := rfl

theorem Tables.empty_copies : empty.copies = [] := rfl

theorem Tables.Shaped.empty : Tables.empty.Shaped :=
  ⟨by simp [Tables.empty], by simp [Tables.empty], fun _ => rfl, by simp [Tables.empty], by
    simp [Tables.empty]⟩

theorem Ordered.empty (key : Key) (snap : Nat) : Ordered key snap .empty := by
  refine ⟨?_, ?_, by simp [Tables.empty], by simp [Tables.empty_copies]⟩
  · simp [Tables.empty, Tables.tables, Tables.memLayers, files_eq, Tables.level]
  · intro pre c post _ _ w hw
    simp [Tables.empty, Tables.filed, files_eq, Tables.level] at hw

theorem level_install (s : Tables) (t : Table) (l : Nat) :
    ({ s with ssts := s.ssts ++ [⟨0, t⟩] } : Tables).level l =
    (if l = 0 then [t] else []) ++ s.level l := by
  by_cases hl : l = 0
  · subst hl
    simp [level]
  · have : ¬ 0 = l := fun h => hl h.symm
    simp [level, hl, this]

theorem files_install (s : Tables) (t : Table) :
    ({ s with ssts := s.ssts ++ [⟨0, t⟩] } : Tables).files.flatten = t :: s.files.flatten := by
  simp [files_eq, level_install]

theorem pairwise_move {R : Table → Table → Prop} {a b c : List Table} (h : (a ++ t :: b ++ c).Pairwise R)
    (hb : ∀ u ∈ b, R u t) : (a ++ b ++ t :: c).Pairwise R := by
  simp only [append_assoc, cons_append, pairwise_append, pairwise_cons, mem_append, mem_cons] at h ⊢
  obtain ⟨ha, ⟨ht, hbb, hcc, hbc⟩, hcross⟩ := h
  refine ⟨ha, ⟨hbb, ⟨fun u hu => ht u (.inr hu), hcc⟩, ?_⟩, ?_⟩
  · rintro u hu v (rfl | hv)
    · exact hb u hu
    · exact hbc u hu v hv
  · rintro u hu v (hv | rfl | hv)
    · exact hcross u hu v (.inr (.inl hv))
    · exact hcross u hu v (.inl rfl)
    · exact hcross u hu v (.inr (.inr hv))

theorem Ordered.of_memory (h : Ordered key snap s) {s' : Tables} (hssts : s'.ssts = s.ssts)
    (hpending : s'.retiredPending = s.retiredPending) (hfold : s'.retiredFold = s.retiredFold)
    (hfolding : s'.folding = s.folding) (htables : s'.tables.Pairwise (Tops key snap)) :
    Ordered key snap s' := by
  cases s'
  subst hssts hpending hfold hfolding
  exact { h with tables := htables }

end Moves

/-! ### Caches of files -/

section Caches
variable {key : Key} {snap : Nat} {s : Tables}

theorem dropOldest_eq_drop (cap total : Nat) (pile : List Table) :
    ∃ n ≤ pile.length, dropOldest cap total pile = pile.drop n := by
  induction pile generalizing total with
  | nil => exact ⟨0, le_rfl, rfl⟩
  | cons t pile ih =>
    rw [dropOldest]
    split
    · obtain ⟨n, hn, heq⟩ := ih (total - approxMemoryUsage t)
      exact ⟨n + 1, Nat.succ_le_succ hn, heq⟩
    · exact ⟨0, Nat.zero_le _, rfl⟩

theorem fitting_cases (cap : Nat) (pile : List Table) :
    ∃ n, fitting cap pile = pile.drop n ∧ overflow cap pile = (pile.take n).flatten := by
  obtain ⟨n, hn, heq⟩ := dropOldest_eq_drop cap (pile.map approxMemoryUsage).sum pile
  refine ⟨n, heq, ?_⟩
  rw [overflow, fitting, heq, length_drop, Nat.sub_sub_self hn]

theorem fittingFold_cases (cap : Nat) (fold : Table) :
    fittingFold cap fold = fold ∨ fittingFold cap fold = [] := by
  rw [fittingFold]
  split
  · exact .inr rfl
  · exact .inl rfl

theorem mirrors_fitting {pile : List Table} {fold : Table}
    (h : Mirrors key snap (pile.reverse ++ [fold]) ops) (hfresh : fresh fold (overflow cap pile) = true) :
    Mirrors key snap ((fitting cap pile).reverse ++ [fold]) ops := by
  obtain ⟨n, hfit, hover⟩ := fitting_cases cap pile
  rw [hover] at hfresh
  rw [hfit]
  have hpile : pile.reverse = (pile.drop n).reverse ++ (pile.take n).reverse := by
    rw [← reverse_append, take_append_drop]
  refine Layered.Mirrors.concat ?_ fun hseen w hw hsees => ?_
  · rw [hpile, append_assoc] at h
    exact h.left
  obtain ⟨v, hv, hvsees, hle⟩ := h.last hseen hw hsees
  rw [hpile, flatten_append] at hv
  simp only [mem_append] at hv
  rcases hv with (hv | hv) | hv
  · exact ⟨v, mem_append_left _ hv, hvsees, hle⟩
  · have hv' : v ∈ (pile.take n).flatten := by simpa using hv
    obtain ⟨u, hu, husees, hle'⟩ := fresh_tops hfresh v hv' hvsees hseen
    exact ⟨u, mem_append_right _ hu, husees, Nat.le_trans hle hle'⟩
  · exact ⟨v, mem_append_right _ hv, hvsees, hle⟩

theorem mirrors_fittingFold (fold : Table) (h : Mirrors key snap cs ops)
    (hlast : fittingFold cap fold = fold → Mirrors key snap (cs ++ [fold]) ops) :
    Mirrors key snap (cs ++ [fittingFold cap fold]) ops := by
  rcases fittingFold_cases cap fold with hfold | hfold
  · rw [hfold]
    exact hlast hfold
  · rw [hfold]
    exact h.concat fun hseen => by simp at hseen

/-- A table reaches the files past copies that hold nothing older. -/
theorem mirrors_uncached {t : List WriteOp} (h : Mirrors key snap cs ops)
    (hfresh : ∀ c ∈ cs, fresh c t = true) : Mirrors key snap cs (t ++ ops) := by
  intro pre c post heq hseen w hw hsees
  rcases mem_append.mp hw with hw | hw
  · obtain ⟨v, hv, hrest⟩ := fresh_tops (hfresh c (by simp [heq])) w hw hsees hseen
    exact ⟨v, mem_append_right _ hv, hrest⟩
  · exact h pre c post heq hseen w hw hsees

theorem tops_flatten {ls : List Table} (h : ∀ u ∈ ls, Tops key snap t u) :
    Tops key snap t ls.flatten := by
  intro w hw
  obtain ⟨u, hu, hwu⟩ := mem_flatten.mp hw
  exact h u hu w hwu

/-- Tables went to the files and nothing else changed around the caches. -/
structure Filed (s s₁ : Tables) (ts : List Table) : Prop where
  files : s₁.files.flatten = ts ++ s.files.flatten
  pending : s₁.retiredPending = s.retiredPending
  fold : s₁.retiredFold = s.retiredFold
  folding : s₁.folding = s.folding

theorem Filed.filed (h : Filed s s₁ ts) : s₁.filed = ts.flatten ++ s.filed := by
  rw [Tables.filed, h.files, flatten_append]
  rfl

theorem Filed.tops (h : Filed s s₁ [t]) (htables : s₁.tables.Pairwise (Tops key snap)) :
    Tops key snap t s.filed := by
  rw [tables, h.files] at htables
  exact tops_flatten (pairwise_cons.mp (pairwise_append.mp htables).2.1).1

theorem trimRetiredCache_copies (s : Tables) (cap : Nat) :
    ∀ v ∈ (s.trimRetiredCache cap).copies, v ∈ s.copies := by
  intro v hv
  obtain ⟨n, hfit, _⟩ := fitting_cases cap s.retiredPending
  simp only [copies, caches, trimRetiredCache, hfit, flatten_append, mem_append] at hv ⊢
  rcases hv with (hv | hv) | hv
  · refine .inl (.inl ?_)
    simp only [mem_flatten, mem_reverse] at hv ⊢
    obtain ⟨t, ht, hvt⟩ := hv
    exact ⟨t, mem_of_mem_drop ht, hvt⟩
  · rcases fittingFold_cases cap s.retiredFold with hfold | hfold
    · exact .inl (.inr (by simpa [hfold] using hv))
    · simp [hfold] at hv
  · exact .inr hv

theorem retireMemAsL0Cache_copies (s : Tables) (t : Table) (cap : Nat) :
    ∀ v ∈ (s.retireMemAsL0Cache t cap).copies, v ∈ s.copies ∨ v ∈ t := by
  intro v hv
  rw [retireMemAsL0Cache] at hv
  split at hv
  · exact .inl hv
  · have hv := trimRetiredCache_copies _ _ v hv
    simp only [copies, caches, reverse_append, reverse_singleton, flatten_append,
      flatten_cons, flatten_nil, append_nil, singleton_append, mem_append] at hv ⊢
    tauto

theorem Ordered.retire (h : Ordered key snap s) (hfiled : Filed s s₁ [t])
    (htables : s₁.tables.Pairwise (Tops key snap)) (hne : t ≠ []) (hfresh : s.retiresFresh t cap = true) :
    Ordered key snap (s₁.retireMemAsL0Cache t cap) := by
  have htop := hfiled.tops htables
  simp only [retiresFresh, foldsFresh, Bool.and_eq_true] at hfresh
  have hempty : t.isEmpty = false := by simpa using hne
  have hretire : s₁.retireMemAsL0Cache t cap =
      { s₁ with
        retiredPending := fitting cap (s.retiredPending ++ [t])
        retiredFold := fittingFold cap s.retiredFold } := by
    simp [retireMemAsL0Cache, hempty, trimRetiredCache, hfiled.pending, hfiled.fold]
  have hgrow : ∀ fold, Mirrors key snap (s.retiredPending.reverse ++ [fold]) s.filed →
      fresh fold (overflow cap (s.retiredPending ++ [t])) = true →
      Mirrors key snap ((fitting cap (s.retiredPending ++ [t])).reverse ++ [fold]) s₁.filed := by
    intro fold hfold hfr
    refine mirrors_fitting ?_ hfr
    rw [hfiled.filed, reverse_append, flatten_singleton]
    exact hfold.cons htop
  have hfile' : (s₁.retireMemAsL0Cache t cap).filed = s₁.filed := by rw [hretire]; rfl
  have hgrow' : ∀ v ∈ s.filed ++ t, v ∈ s₁.filed := fun v hv => by
    rw [hfiled.filed]
    simpa [or_comm] using hv
  refine ⟨?_, ?_, ?_, ?_⟩
  · rw [hretire]
    exact htables
  · rw [hfile', hretire]
    refine mirrors_fittingFold s.retiredFold ?_ fun hfold => hgrow _ h.caches (hfold ▸ hfresh.1)
    exact (hgrow [] (h.caches.left.concat fun hseen => by simp at hseen) (by simp [fresh])).left
  · rw [hfile', hretire]
    intro built hbuilt
    have hbuilt' : s.folding = some built := by rw [← hfiled.folding]; exact hbuilt
    refine hgrow built (h.folding built hbuilt') ?_
    simpa [hbuilt'] using hfresh.2
  · intro v hv hsees
    rw [hfile']
    rcases retireMemAsL0Cache_copies s₁ t cap v hv with hv | hv
    · have hv' : v ∈ s.copies := by
        simpa [Tables.copies, Tables.caches, hfiled.pending, hfiled.fold, hfiled.folding] using hv
      obtain ⟨w, hw, hrest⟩ := h.cached v hv' hsees
      exact ⟨w, hgrow' w (mem_append_left _ hw), hrest⟩
    · exact ⟨v, hgrow' v (mem_append_right _ hv), hsees, le_rfl⟩

theorem Ordered.uncached (h : Ordered key snap s) (hfiled : Filed s s₁ ts)
    (htables : s₁.tables.Pairwise (Tops key snap)) (hfresh : s.cachesFresh ts.flatten = true) :
    Ordered key snap s₁ := by
  simp only [cachesFresh, foldsFresh, Bool.and_eq_true, all_eq_true] at hfresh
  obtain ⟨hpile, hfold, hbuilt⟩ := hfresh
  have hcs : ∀ fold, fresh fold ts.flatten = true →
      ∀ c ∈ s.retiredPending.reverse ++ [fold], fresh c ts.flatten = true := fun fold hf =>
    forall_mem_append.mpr ⟨fun c hc => hpile c (mem_reverse.mp hc), forall_mem_singleton.mpr hf⟩
  refine ⟨htables, ?_, ?_, ?_⟩
  · rw [hfiled.filed, Tables.caches, hfiled.pending, hfiled.fold]
    exact mirrors_uncached h.caches (hcs _ hfold)
  · rw [hfiled.filed, hfiled.pending, hfiled.folding]
    intro built hb
    exact mirrors_uncached (h.folding built hb) (hcs _ (by simpa [hb] using hbuilt))
  · intro v hv hsees
    rw [Tables.copies, Tables.caches, hfiled.pending, hfiled.fold, hfiled.folding] at hv
    obtain ⟨w, hw, hrest⟩ := h.cached v hv hsees
    refine ⟨w, ?_, hrest⟩
    rw [hfiled.filed]
    exact mem_append_right _ hw

end Caches

end PedraDb.Layers
