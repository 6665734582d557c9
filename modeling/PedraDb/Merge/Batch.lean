import PedraDb.Merge.Internal

/-! Compaction in one batch, and the views it keeps.

`gcCompactEntries` collects the points of its input in a map and the range deletions in a
list, walks the map one user key at a time and sorts the two together again. With an oldest
snapshot it drops only what no snapshot from there on finds first, with `keepOnlyLatest`
everything but the newest live version.

What is outside the input does not matter to that (`compaction_keeps_views`), as long as a
rewrite that calls itself bottommost is above nothing that the input still hides. For a
latest-only rewrite this has to be said of the keys a range deletion covers, not only of
the entries with its own key (`range_delete_let_go`). -/
namespace PedraDb
open List
variable {bottommost : Bool} {v : WriteOp} {gc : CompactGcOptions}

/-- What is kept of the versions of a user key, the newest first. -/
def keptVersions (oldest : Nat) (bottommost : Bool) (versions : Table) : Table :=
  let keep := retain oldest none versions
  match loneTombstoneFate bottommost (loneDeletion keep) with
  | .drop => []
  | .keep => keep

/-- Retention of points with all range deletions passed through. -/
def gcSnapshotSafe (map rangeDels : Table) (oldest : Nat) (bottommost : Bool) : Table :=
  sortInternal ((userKeyRuns map).flatMap (keptVersions oldest bottommost) ++ rangeDels)

/-- Whether the newest version of a key stays. -/
def latestStays (gc : CompactGcOptions) (tombs : Table) (v : WriteOp) : Bool :=
  match v.kind with
  | .value => !rangeDeleted v.key v.sequence tombs
  | .deletion => !gc.bottommost
  | .rangeDeletion => false

def gcCompactEntries (entries : Table) (gc : CompactGcOptions) : Table :=
  let live := entries.filter fun v => decide (gc.minSequence ≤ v.sequence)
  let map := mapOf (live.filter fun v => v.kind != .rangeDeletion)
  let rangeDels := live.filter fun v => v.kind == .rangeDeletion
  match gc.oldestSnapshot with
  | some oldest => gcSnapshotSafe map rangeDels oldest gc.bottommost
  | none =>
    if !gc.keepOnlyLatest then sortInternal (map ++ rangeDels)
    else
      let out := (firstPerKey none map).filter (latestStays gc rangeDels)
      if gc.bottommost then out else sortInternal (out ++ rangeDels)

/-! ### What is in the output -/

theorem flatMap_sublist {f : Table → Table} (hf : ∀ run, (f run).Sublist run) (runs : List Table) :
    (runs.flatMap f).Sublist runs.flatten := by
  induction runs with
  | nil => exact .slnil
  | cons run runs ih => exact (hf run).append ih

theorem keptVersions_sublist (oldest : Nat) (bottommost : Bool) (versions : Table) :
    (keptVersions oldest bottommost versions).Sublist versions := by
  simp only [keptVersions]
  split
  · exact nil_sublist _
  · exact retain_sublist oldest none versions

theorem points_ranges_perm (t : Table) : (pointsOf t ++ deletionsOf t).Perm t := by
  have hsplit : deletionsOf t = t.filter fun v => !(v.kind != .rangeDeletion) :=
    filter_congr fun v _ => by simp [bne]
  rw [hsplit]
  exact filter_append_perm _ t

theorem mem_sorted_points {t : Table} : v ∈ sortInternal (pointsOf t) ↔ v ∈ t ∧
    v.kind ≠ .rangeDeletion := by
  rw [mem_sortInternal]
  simp

section
variable {inside : Table}

theorem gcCompactEntries_subperm (hdistinct : InternallyDistinct inside) (gc : CompactGcOptions) :
    (gcCompactEntries inside gc).Subperm inside := by
  have hlive : (inside.filter fun v => decide (gc.minSequence ≤ v.sequence)).Sublist inside :=
    filter_sublist
  simp only [gcCompactEntries]
  generalize (inside.filter fun v => decide (gc.minSequence ≤ v.sequence)) = live at hlive
  have hpoints : InternallyDistinct (pointsOf live) :=
    hdistinct.sublist (filter_sublist.trans hlive)
  rw [mapOf_eq hpoints]
  have hmap := sortInternal_perm (pointsOf live)
  generalize sortInternal (pointsOf live) = map at hmap ⊢
  have hall : (map ++ deletionsOf live).Subperm inside :=
    ((hmap.append_right _).trans (points_ranges_perm live)).subperm.trans hlive.subperm
  -- a part of the map with the range deletions is a part of the whole
  have part {kept : Table} (hkept : kept.Sublist map) :
      (kept ++ deletionsOf live).Subperm inside :=
    (hkept.append (List.Sublist.refl _)).subperm.trans hall
  have sorted {t : Table} (ht : t.Subperm inside) : (sortInternal t).Subperm inside :=
    (sortInternal_perm t).subperm.trans ht
  have hfirst : ((firstPerKey none map).filter (latestStays gc (deletionsOf live))).Sublist map :=
    filter_sublist.trans (firstPerKey_sublist none map)
  split
  · rename_i oldest _
    refine sorted (part ?_)
    have := flatMap_sublist (keptVersions_sublist oldest gc.bottommost) (userKeyRuns map)
    rwa [flatten_userKeyRuns] at this
  · split
    · exact sorted hall
    · split
      · exact (hfirst.trans (sublist_append_left _ _)).subperm.trans hall
      · exact sorted (part hfirst)

theorem gcCompactEntries_strict (hdistinct : InternallyDistinct inside) (gc : CompactGcOptions) :
    (gcCompactEntries inside gc).Pairwise InternalBefore := by
  have hsubperm := hdistinct.subperm (gcCompactEntries_subperm hdistinct gc)
  have hpoints : InternallyDistinct ((inside.filter fun v => decide (gc.minSequence ≤ v.sequence)).filter
      fun v => v.kind != .rangeDeletion) := hdistinct.sublist (filter_sublist.trans filter_sublist)
  have sorted {t : Table} (ht : InternallyDistinct (sortInternal t)) :
    (sortInternal t).Pairwise InternalBefore :=
    sortInternal_strict (ht.perm (sortInternal_perm t))
  simp only [gcCompactEntries, gcSnapshotSafe] at *
  split
  · rename_i holdest
    rw [holdest] at hsubperm
    exact sorted hsubperm
  rename_i hnone
  rw [hnone] at hsubperm
  simp only at hsubperm
  split
  · rename_i hall
    rw [if_pos hall] at hsubperm
    exact sorted hsubperm
  rename_i hlatest
  rw [if_neg hlatest] at hsubperm
  split
  · rw [mapOf_eq hpoints]
    exact (sortInternal_strict hpoints).sublist (filter_sublist.trans (firstPerKey_sublist none _))
  · rename_i hbottom
    rw [if_neg hbottom] at hsubperm
    exact sorted hsubperm

end

variable {start stop : Bound} {oldest : Nat}

section Views
open Layers Bytes
variable {inside outside : Table} {snap : Nat}

theorem hidden_iff {entries : Table} : hidden entries snap v = true ↔
      ∃ t ∈ entries, t.kind = .rangeDeletion ∧ t.sequence ≤ snap ∧ t.covers v.key = true ∧
      v.sequence < t.sequence := by
  rw [hidden, rangeDeleted_iff]
  constructor
  · rintro ⟨t, ht, hcovers, hlt⟩
    obtain ⟨hmem, hkind, hseen⟩ := mem_collectRangeTombstones.mp ht
    exact ⟨t, hmem, hkind, hseen, (covers_range hkind).trans hcovers, hlt⟩
  · rintro ⟨t, hmem, hkind, hseen, hcovers, hlt⟩
    exact ⟨t, mem_collectRangeTombstones.mpr ⟨hmem, hkind, hseen⟩,
      (covers_range hkind).symm.trans hcovers, hlt⟩

theorem hidden_congr {entries entries' : Table}
    (h : ∀ t, t.kind = .rangeDeletion → t.covers v.key = true → v.sequence < t.sequence →
      (t ∈ entries' ↔ t ∈ entries)) :
    hidden entries' snap v = hidden entries snap v := by
  rw [Bool.eq_iff_iff, hidden_iff, hidden_iff]
  constructor
  · rintro ⟨t, ht, hkind, hseen, hcovers, hlt⟩
    exact ⟨t, (h t hkind hcovers hlt).mp ht, hkind, hseen, hcovers, hlt⟩
  · rintro ⟨t, ht, hkind, hseen, hcovers, hlt⟩
    exact ⟨t, (h t hkind hcovers hlt).mpr ht, hkind, hseen, hcovers, hlt⟩

theorem InternalBefore.sequence_le {a b : WriteOp} (h : InternalBefore a b) (hkey : a.key = b.key) :
    b.sequence ≤ a.sequence := by
  rcases h with hlt | ⟨-, hver⟩
  · exact absurd (hkey ▸ hlt) (List.lt_irrefl _)
  · rw [versionNewer_iff] at hver
    omega

/-- What is kept of a user key's versions: the one a snapshot finds first, or nothing if that
is a deletion at the bottom. -/
theorem keptVersions_first {run : Table} (hstrict : run.Pairwise InternalBefore)
    (hle : oldest ≤ snap) {c : WriteOp} (hc : c ∈ run)
    (hfirst : ∀ w ∈ run, w.sequence ≤ snap → w = c ∨ InternalBefore c w) :
    c ∈ keptVersions oldest bottommost run ∨
      bottommost = true ∧ c.kind = .deletion ∧ keptVersions oldest bottommost run = [] := by
  have hretained : c ∈ retain oldest none run := by
    rcases retain_cases oldest none hstrict hc with h | ⟨w, hw, hseen, hbefore⟩ | ⟨_, h, _⟩
    · exact h
    · rcases hfirst w ((retain_sublist _ _ _).subset hw) (le_trans hseen hle) with rfl | hafter
      · exact hw
      · exact absurd hafter hbefore.asymm
    · cases h
  simp only [keptVersions]
  cases hfate : loneTombstoneFate bottommost (loneDeletion (retain oldest none run)) with
  | keep => exact .inl hretained
  | drop =>
    refine .inr ?_
    simp only [loneTombstoneFate] at hfate
    split at hfate
    swap
    · cases hfate
    rename_i hlone
    rw [Bool.and_eq_true] at hlone
    refine ⟨hlone.1, ?_, rfl⟩
    generalize retain oldest none run = kept at hretained hlone
    rcases kept with _ | ⟨d, _ | ⟨e, rest⟩⟩
    · cases hretained
    · obtain rfl := mem_singleton.mp hretained
      simpa [loneDeletion] using hlone.2
    · simp [loneDeletion] at hlone

theorem userKeyRuns_filter {l run : Table} (hl : l.Pairwise InternalBefore)
    (hrun : run ∈ userKeyRuns l) (hv : v ∈ run) :
    run = l.filter fun w => w.key == v.key := by
  have hsub : run.Sublist l := by
    conv => rhs; rw [← flatten_userKeyRuns l]
    exact sublist_flatten_of_mem hrun
  refine eq_of_strict (hl.sublist hsub) (hl.sublist filter_sublist) fun w => ?_
  rw [mem_filter]
  constructor
  · exact fun hw => ⟨hsub.subset hw, by simpa using userKeyRuns_key hrun w hw v hv⟩
  · rintro ⟨hw, hkey⟩
    rw [← flatten_userKeyRuns l] at hw
    obtain ⟨run', hrun', hw⟩ := mem_flatten.mp hw
    rw [userKeyRuns_eq (hl.imp InternalBefore.le) hrun hrun' hv hw
      (by simpa using (beq_iff_eq.mp hkey).symm)]
    exact hw

theorem exists_userKeyRuns {l : Table} (hv : v ∈ l) : ∃ run ∈ userKeyRuns l, v ∈ run := by
  rw [← flatten_userKeyRuns l] at hv
  exact mem_flatten.mp hv

theorem mem_flatMap_userKeyRuns {l : Table} {f : Table → Table} (hf : ∀ run, (f run).Sublist run)
    (hl : l.Pairwise InternalBefore) :
    v ∈ (userKeyRuns l).flatMap f ↔ v ∈ f (l.filter fun w => w.key == v.key) := by
  rw [mem_flatMap]
  constructor
  · rintro ⟨run, hrun, hv⟩
    rwa [← userKeyRuns_filter hl hrun ((hf run).subset hv)]
  · intro hv
    obtain ⟨run, hrun, hvrun⟩ := exists_userKeyRuns (mem_filter.mp ((hf _).subset hv)).1
    refine ⟨run, hrun, ?_⟩
    rwa [userKeyRuns_filter hl hrun hvrun]

theorem snapshotSafe_keeps_views {keepOnlyLatest : Bool}
    (hdistinct : InternallyDistinct (outside ++ inside)) (hle : oldest ≤ snap)
    (hbottom : bottommost = true → ∀ o ∈ outside, ∀ e ∈ inside, e.key = o.key → e.sequence < o.sequence) :
    visibleRange (outside ++ gcCompactEntries inside ⟨0, keepOnlyLatest, some oldest,
      bottommost⟩) snap start stop =
      visibleRange (outside ++ inside) snap start stop := by
  have hinside : InternallyDistinct inside := hdistinct.sublist (sublist_append_right _ _)
  have hpoints : InternallyDistinct (pointsOf inside) := hinside.sublist filter_sublist
  have hsubperm := gcCompactEntries_subperm hinside ⟨0, keepOnlyLatest, some oldest, bottommost⟩
  have hout : gcCompactEntries inside ⟨0, keepOnlyLatest, some oldest, bottommost⟩ =
      gcSnapshotSafe (sortInternal (pointsOf inside))
        (deletionsOf inside) oldest bottommost := by
    simp [gcCompactEntries, mapOf_eq hpoints]
  have hstrict := sortInternal_strict hpoints
  have hmap := fun v => mem_sorted_points (t := inside) (v := v)
  generalize sortInternal (pointsOf inside) = map at hout hstrict hmap
  have hmem : ∀ v, v ∈ gcCompactEntries inside ⟨0, keepOnlyLatest, some oldest, bottommost⟩ ↔
      v ∈ keptVersions oldest bottommost (map.filter fun w => w.key == v.key) ∨ v ∈ inside ∧
      v.kind = .rangeDeletion := by
    intro v
    rw [hout, gcSnapshotSafe, mem_sortInternal, mem_append,
      mem_flatMap_userKeyRuns (keptVersions_sublist oldest bottommost) hstrict]
    simp
  generalize gcCompactEntries inside ⟨0, keepOnlyLatest, some oldest, bottommost⟩ = out at hsubperm hmem
  have hkept {v : WriteOp} (hv : v ∈ keptVersions oldest bottommost
    (map.filter fun w => w.key == v.key)) :
      v.kind ≠ .rangeDeletion :=
    ((hmap v).mp (mem_filter.mp ((keptVersions_sublist _ _ _).subset hv)).1).2
  refine visibleRange_eq hdistinct (hdistinct.subperm ((subperm_append_left outside).mpr hsubperm))
    (fun v hv => ?_) (fun v _ _ _ => hidden_congr fun t hkind _ _ => ?_) fun key c hc => ?_
  · exact (mem_append.mp hv).elim (mem_append_left _) fun h => mem_append_right _ (hsubperm.subset h)
  · rw [mem_append, mem_append, hmem]
    constructor
    · rintro (h | hv | h)
      · exact .inl h
      · exact absurd hkind (hkept hv)
      · exact .inr h.1
    · rintro (h | h)
      · exact .inl h
      · exact .inr (.inr ⟨h, hkind⟩)
  · rcases mem_append.mp hc.mem with hcout | hcin
    · exact .inl (mem_append_left _ hcout)
    have hcmap : c ∈ map.filter fun w => w.key == c.key :=
      mem_filter.mpr ⟨(hmap c).mpr ⟨hcin, hc.point⟩, beq_self_eq_true _⟩
    have hfirst : ∀ w ∈ map.filter fun w => w.key == c.key,
        w.sequence ≤ snap → w = c ∨ InternalBefore c w := fun w hw hseen => by
      obtain ⟨hw, hkey⟩ := mem_filter.mp hw
      obtain ⟨hwin, hwpoint⟩ := (hmap w).mp hw
      exact hc.first w (mem_append_right _ hwin) hwpoint ((beq_iff_eq.mp hkey).trans hc.under) hseen
    rcases keptVersions_first (hstrict.sublist filter_sublist) hle hcmap hfirst with h |
      ⟨hb, hdeleted, hnil⟩
    · exact .inl (mem_append_right _ ((hmem c).mpr (.inl h)))
    refine .inr ⟨fun hkind => (nomatch hdeleted.symm.trans hkind), fun c' hc' _ => ?_⟩
    rcases mem_append.mp hc'.mem with h | h
    · -- what is outside is newer, and then it would come first
      have hlt := hbottom hb c' h c hcin (hc.under.trans hc'.under.symm)
      rcases hc.first c' (mem_append_left _ h) hc'.point hc'.under hc'.seen with rfl | hafter
      · omega
      · have := hafter.sequence_le (hc.under.trans hc'.under.symm)
        omega
    · rcases (hmem c').mp h with hv | ⟨-, hkind⟩
      · rw [hc'.under.trans hc.under.symm, hnil] at hv
        cases hv
      · exact absurd hkind hc'.point

/-- A latest-only output: the newest version of each key if it stays, and above the bottom the
range deletions. -/
theorem mem_latestOnly (hinside : InternallyDistinct inside) (bottommost : Bool) (v : WriteOp) :
    v ∈ gcCompactEntries inside ⟨0, true, none, bottommost⟩ ↔ (v ∈ inside ∧ v.kind ≠ .rangeDeletion ∧
        (∀ u ∈ inside, u.kind ≠ .rangeDeletion → u.key = v.key → u = v ∨ InternalBefore v u) ∧
        latestStays ⟨0, true, none, bottommost⟩ (deletionsOf inside) v = true) ∨
      bottommost = false ∧ v ∈ inside ∧ v.kind = .rangeDeletion := by
  have hpoints : InternallyDistinct (pointsOf inside) := hinside.sublist filter_sublist
  have hstrict := sortInternal_strict hpoints
  have hmap := fun v => mem_sorted_points (t := inside) (v := v)
  have hfirst := mem_firstPerKey_iff hstrict none (by simp) (w := v)
  have hout : gcCompactEntries inside ⟨0, true, none, bottommost⟩ =
      if bottommost then (firstPerKey none (sortInternal (pointsOf inside))).filter
        (latestStays ⟨0, true, none, bottommost⟩ (deletionsOf inside))
      else sortInternal ((firstPerKey none (sortInternal (pointsOf inside))).filter
        (latestStays ⟨0, true, none, bottommost⟩ (deletionsOf inside)) ++
          deletionsOf inside) := by
    simp [gcCompactEntries, mapOf_eq hpoints]
  rw [hout]
  generalize sortInternal (pointsOf inside) = map at hmap hfirst
  cases bottommost <;> simp [mem_sortInternal, hfirst, hmap, and_assoc]

theorem latestStays_bottommost {t : WriteOp} (hb : gc.bottommost = true)
    (hstays : latestStays gc (deletionsOf inside) v = true)
    (ht : t ∈ inside) (hkind : t.kind = .rangeDeletion) (hcovers : t.covers v.key = true) :
    ¬ v.sequence < t.sequence := by
  intro hlt
  simp only [latestStays] at hstays
  split at hstays
  · rw [Bool.not_eq_true', ← Bool.not_eq_true, rangeDeleted_iff] at hstays
    exact hstays ⟨t, by simp [ht, hkind], (covers_range hkind).symm.trans hcovers, hlt⟩
  · simp [hb] at hstays
  · cases hstays

/-- The newest version goes when a range deletion of the input covers it, or as a deletion at
the bottom. -/
theorem latestStays_gone (hpoint : v.kind ≠ .rangeDeletion)
    (hgone : ¬ latestStays gc (deletionsOf inside) v = true) :
    (∃ t ∈ inside, t.kind = .rangeDeletion ∧ t.covers v.key = true ∧ v.sequence < t.sequence) ∨
      v.kind = .deletion ∧ gc.bottommost = true := by
  simp only [latestStays] at hgone
  split at hgone
  · simp only [Bool.not_eq_true', Bool.not_eq_false] at hgone
    obtain ⟨t, ht, hcovers, hlt⟩ := rangeDeleted_iff.mp hgone
    obtain ⟨hmem, hkind⟩ : t ∈ inside ∧ t.kind = .rangeDeletion := by simpa using ht
    exact .inl ⟨t, hmem, hkind, (covers_range hkind).trans hcovers, hlt⟩
  · exact .inr ⟨by assumption, by simpa using hgone⟩
  · exact absurd (by assumption) hpoint

theorem latestOnly_keeps_views (hdistinct : InternallyDistinct (outside ++ inside))
    (hmax : ∀ e ∈ inside, e.sequence ≤ snap)
    (hbottom : bottommost = true →
      ∀ o ∈ outside, o.kind ≠ .rangeDeletion → ∀ e ∈ inside,
      e.covers o.key = true → e.sequence < o.sequence) :
    visibleRange (outside ++ gcCompactEntries inside ⟨0, true, none, bottommost⟩) snap start stop =
      visibleRange (outside ++ inside) snap start stop := by
  have hinside : InternallyDistinct inside := hdistinct.sublist (sublist_append_right _ _)
  have hsubperm := gcCompactEntries_subperm hinside ⟨0, true, none, bottommost⟩
  have hmem := mem_latestOnly hinside bottommost
  generalize gcCompactEntries inside ⟨0, true, none, bottommost⟩ = out at hsubperm hmem
  refine visibleRange_eq hdistinct (hdistinct.subperm ((subperm_append_left outside).mpr hsubperm))
    (fun v hv => ?_) (fun v hv hpoint _ => hidden_congr fun t hkind hcovers hlt => ?_) fun key c hc => ?_
  · exact (mem_append.mp hv).elim (mem_append_left _) fun h => mem_append_right _ (hsubperm.subset h)
  · rw [mem_append, mem_append]
    refine or_congr_right ⟨fun h => hsubperm.subset h, fun ht => (hmem t).mpr (.inr ⟨?_, ht, hkind⟩)⟩
    -- at the bottom a range deletion goes, and hides nothing that is left
    rw [← Bool.not_eq_true]
    intro hb
    rcases mem_append.mp hv with h | h
    · have := hbottom hb v h hpoint t ht hcovers
      omega
    · rcases (hmem v).mp h with ⟨-, -, -, hstays⟩ | ⟨-, -, hrange⟩
      · exact latestStays_bottommost hb hstays ht hkind hcovers hlt
      · exact hpoint hrange
  · rcases mem_append.mp hc.mem with hcout | hcin
    · exact .inl (mem_append_left _ hcout)
    have hnewest : ∀ u ∈ inside, u.kind ≠ .rangeDeletion → u.key = c.key → u = c ∨ InternalBefore c u :=
      fun u hu hpoint hkey => hc.first u (mem_append_right _ hu) hpoint (hkey.trans hc.under) (hmax u hu)
    by_cases hstays : latestStays ⟨0, true, none, bottommost⟩ (deletionsOf inside) c = true
    · exact .inl (mem_append_right _ ((hmem c).mpr (.inl ⟨hcin, hc.point, hnewest, hstays⟩)))
    refine .inr ?_
    -- with the newest version gone no other of the input is left, and those outside are older
    have holder {c' : WriteOp} (hc' : FirstSeen key snap (outside ++ out) c') :
        c' ∈ outside ∧ c'.sequence ≤ c.sequence := by
      have hsame := hc'.under.trans hc.under.symm
      have hmem' : c' ∈ outside := by
        refine (mem_append.mp hc'.mem).resolve_right fun h => ?_
        rcases (hmem c').mp h with ⟨hin, hpoint, hfirst, hstays'⟩ | ⟨-, -, hrange⟩
        · rcases hnewest c' hin hpoint hsame with rfl | hafter
          · exact hstays hstays'
          · rcases hfirst c hcin hc.point hsame.symm with rfl | hbefore
            · exact hstays hstays'
            · exact hafter.asymm hbefore
        · exact hc'.point hrange
      refine ⟨hmem', ?_⟩
      rcases hc.first c' (mem_append_left _ hmem') hc'.point hc'.under hc'.seen with rfl | hafter
      · exact le_rfl
      · exact hafter.sequence_le hsame.symm
    rcases latestStays_gone hc.point hstays with ⟨t, ht, hkind, hcovers, hlt⟩ | ⟨hdeleted, hb⟩
    · refine ⟨fun _ => hidden_iff.mpr ⟨t, mem_append_right _ ht, hkind, hmax t ht, hcovers, hlt⟩,
        fun c' hc' _ => ?_⟩
      obtain ⟨hmem', hle⟩ := holder hc'
      have hcovers' : t.covers c'.key = true := by rwa [hc'.under, ← hc.under]
      refine hidden_iff.mpr ⟨t, mem_append_right _ ((hmem t).mpr (.inr ⟨?_, ht, hkind⟩)), hkind,
        hmax t ht, hcovers', by omega⟩
      rw [← Bool.not_eq_true]
      intro hb
      have := hbottom hb c' hmem' hc'.point t ht hcovers'
      omega
    · refine ⟨fun hkind => (nomatch hdeleted.symm.trans hkind), fun c' hc' _ => ?_⟩
      obtain ⟨hmem', hle⟩ := holder hc'
      have := hbottom hb c' hmem' hc'.point c hcin (by rw [covers_point hc.point, hc.under, hc'.under])
      omega

/-- A compaction keeps what is read over the files it leaves alone. With an oldest snapshot this
holds of every view from there on, for a latest-only compaction of the newest one. -/
theorem compaction_keeps_views (hdistinct : InternallyDistinct (outside ++ inside)) (start stop : Bound) :
    (∀ keepOnlyLatest oldest bottommost snap, oldest ≤ snap →
      (bottommost = true → ∀ o ∈ outside, ∀ e ∈ inside, e.key = o.key → e.sequence < o.sequence) →
      visibleRange (outside ++ gcCompactEntries inside ⟨0, keepOnlyLatest, some oldest,
        bottommost⟩) snap start stop =
        visibleRange (outside ++ inside) snap start stop) ∧
        ∀ bottommost, (∀ e ∈ inside, e.sequence ≤ maxSequenceNumber) →
      (bottommost = true →
        ∀ o ∈ outside, o.kind ≠ .rangeDeletion → ∀ e ∈ inside,
        e.covers o.key = true → e.sequence < o.sequence) →
      visibleRange (outside ++ gcCompactEntries inside ⟨0, true, none,
        bottommost⟩) maxSequenceNumber start stop =
        visibleRange (outside ++ inside) maxSequenceNumber start stop :=
  ⟨fun _ _ _ _ hle hbottom => snapshotSafe_keeps_views hdistinct hle hbottom,
    fun _ hmax hbottom => latestOnly_keeps_views hdistinct hmax hbottom⟩

/-- A key put, deleted and put again below another. -/
def rewritten : Table := [.put 4 [5] [7], .delete 2 [5], .put 1 [5] [6], .put 3 [6] [8]]

theorem compaction_keeps_views_rewritten : InternallyDistinct ([.put 9 [6] [9]] ++ rewritten) ∧
      visibleRange ([.put 9 [6] [9]] ++ gcCompactEntries rewritten
        ⟨0, true, some 3, true⟩) 3 .unbounded .unbounded =
        visibleRange ([.put 9 [6] [9]] ++ rewritten) 3 .unbounded .unbounded ∧
      visibleRange ([.put 9 [6] [9]] ++ gcCompactEntries rewritten
        ⟨0, true, none, true⟩) maxSequenceNumber
          .unbounded .unbounded = visibleRange
          ([.put 9 [6] [9]] ++ rewritten) maxSequenceNumber .unbounded .unbounded := by
  have hdistinct : InternallyDistinct ([.put 9 [6] [9]] ++ rewritten) := by
    unfold InternallyDistinct; decide
  exact ⟨hdistinct, (compaction_keeps_views hdistinct .unbounded .unbounded).1 true 3 true
    3 (by decide) (by decide),
    (compaction_keeps_views hdistinct .unbounded .unbounded).2 true (by decide) (by decide)⟩

/-- At the bottom a latest-only compaction lets a range deletion go. No entry of its own key is
outside, and an older value under it comes back. -/
theorem range_delete_let_go : ∃ inside outside : Table, InternallyDistinct (outside ++ inside) ∧
      (∀ v ∈ outside ++ inside, v.sequence ≤ maxSequenceNumber) ∧
      (∀ o ∈ outside, ∀ e ∈ inside, e.key = o.key → e.sequence < o.sequence) ∧
      visibleRange (outside ++ gcCompactEntries inside ⟨0, true, none, true⟩) maxSequenceNumber
      .unbounded .unbounded = [([6], [8])] ∧
      visibleRange (outside ++ inside) maxSequenceNumber .unbounded .unbounded = [] := by
  refine ⟨[.deleteRange 7 [5] [9]], [.put 3 [6] [8]], by unfold InternallyDistinct; decide, ?_⟩
  decide +kernel

end Views

end PedraDb
