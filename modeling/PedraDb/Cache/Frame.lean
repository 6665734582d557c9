import PedraDb.Bulk
import Mathlib.Data.List.Forall2

/-! What a read of a key depends on.

A read depends on the versions that touch its key and that its snapshot sees, and on
nothing else: `lookupLayers_congr`. So writes of other keys, and a snapshot that moves past
no version of the key, leave it as it was. -/
namespace PedraDb
open List
variable {tombs tombs' : List WriteOp} {t : Table}

/-- The operation is stored under the key or covers it. -/
def WriteOp.touches (op : WriteOp) (key : Key) : Bool := op.key == key || op.covers key

/-- What of a table a read of the key can see. -/
def visibleOver (key : Key) (snap : Nat) (t : Table) : Table :=
  t.filter fun v => v.touches key && decide (v.sequence ≤ snap)

def tombsOver (key : Key) (tombs : List WriteOp) : List WriteOp :=
  tombs.filter fun t => rangeTombstoneCovers t.key t.value key

section Congr
variable {key : Key} {snap snap' : Nat}

theorem newestVersion_visibleOver (t : Table) :
    newestVersion key snap t = newestVersion key snap (visibleOver key snap t) := by
  induction t with
  | nil => rfl
  | cons v t ih =>
    by_cases hv : (v.key == key && decide (v.sequence ≤ snap)) = true
    · have hsees : (v.touches key && decide (v.sequence ≤ snap)) = true := by
        simp only [Bool.and_eq_true] at hv ⊢
        exact ⟨by simp [WriteOp.touches, hv.1], hv.2⟩
      simp only [visibleOver, filter_cons, hsees, if_true, newestVersion, hv] at ih ⊢
      rw [ih]
    · rw [newestVersion, if_neg hv, ih, visibleOver, visibleOver, filter_cons]
      split
      · rw [newestVersion, if_neg hv]
      · rfl

theorem newestVersion_snap (h : ∀ v ∈ t, v.sequence ≤ snap) (h' : ∀ v ∈ t, v.sequence ≤ snap') :
    newestVersion key snap t = newestVersion key snap' t := by
  induction t with
  | nil => rfl
  | cons v t ih =>
    rw [newestVersion, newestVersion, ih (fun w hw => h w (by simp [hw])) fun w hw => h' w (by simp [hw])]
    simp [h v (by simp), h' v (by simp)]

theorem mem_visibleOver {v : WriteOp} (hv : v ∈ visibleOver key snap t) : v.sequence ≤ snap := by
  simp only [visibleOver, mem_filter, Bool.and_eq_true, decide_eq_true_eq] at hv
  exact hv.2.2

/-- The newest version depends on what is over the key. -/
theorem newestVersion_congr {t' : Table} (h : visibleOver key snap t = visibleOver key snap' t') :
    newestVersion key snap t = newestVersion key snap' t' := by
  rw [newestVersion_visibleOver t, newestVersion_visibleOver t', ← h]
  exact newestVersion_snap (fun v hv => mem_visibleOver hv) fun v hv => mem_visibleOver (h ▸ hv)

theorem rangeDeleted_over (seq : Nat) (tombs : List WriteOp) :
    rangeDeleted key seq tombs = rangeDeleted key seq (tombsOver key tombs) := by
  rw [rangeDeleted, rangeDeleted, tombsOver, any_filter]
  congr 1
  funext t
  cases rangeTombstoneCovers t.key t.value key <;> rfl

/-- The tombstones over a key are among what is over it. -/
theorem over_collect (t : Table) : tombsOver key (collectRangeTombstones snap t) =
      (visibleOver key snap t).filter fun v => v.kind == .rangeDeletion &&
      rangeTombstoneCovers v.key v.value key := by
  rw [tombsOver, collectRangeTombstones, visibleOver, filter_filter, filter_filter]
  refine filter_congr fun v _ => ?_
  by_cases hk : v.kind = .rangeDeletion
  · cases hc : rangeTombstoneCovers v.key v.value key <;>
      simp [WriteOp.touches, WriteOp.covers, writeOpCoversKey, hk, hc]
  · have hb : (v.kind == .rangeDeletion) = false := beq_false_of_ne hk
    simp [hb]

theorem over_append (tombs tombs' : List WriteOp) :
    tombsOver key (tombs ++ tombs') = tombsOver key tombs ++ tombsOver key tombs' :=
  filter_append ..

/-- So does the answer of one table. -/
theorem getEntry_congr {t' : Table} (h : visibleOver key snap t = visibleOver key snap' t') :
    getEntry t key snap = getEntry t' key snap' := by
  have htombs : tombsOver key (collectRangeTombstones snap t) =
      tombsOver key (collectRangeTombstones snap' t') := by
    rw [over_collect, over_collect, h]
  simp only [getEntry, newestVersion_congr h]
  cases newestVersion key snap' t' with
  | none => rfl
  | some v =>
    have hdel : rangeDeleted key v.sequence (collectRangeTombstones snap t) =
        rangeDeleted key v.sequence (collectRangeTombstones snap' t') := by
      rw [rangeDeleted_over, htombs, ← rangeDeleted_over]
    cases v.kind <;> simp [hdel]

theorem shadowed_congr {seq : Nat} {look : Lookup} (h : tombsOver key tombs = tombsOver key tombs') :
    shadowed key seq tombs look = shadowed key seq tombs' look := by
  cases look with
  | found v => simp only [shadowed]; rw [rangeDeleted_over, h, ← rangeDeleted_over]
  | deleted => rfl
  | notFound => rfl

/-- So does a walk down the tables. -/
theorem walk_congr {ts ts' : List Table}
    (h : List.Forall₂ (fun t t' => visibleOver key snap t = visibleOver key snap' t') ts ts')
    (htombs : tombsOver key tombs = tombsOver key tombs') :
    (walk key snap ts tombs).1 = (walk key snap' ts' tombs').1 ∧
      tombsOver key (walk key snap ts tombs).2 = tombsOver key (walk key snap' ts' tombs').2 := by
  induction h generalizing tombs tombs' with
  | nil => exact ⟨rfl, htombs⟩
  | @cons t t' ts ts' ht _ ih =>
    have hnext : tombsOver key (tombs ++ collectRangeTombstones snap t) =
        tombsOver key (tombs' ++ collectRangeTombstones snap' t') := by
      rw [over_append, over_append, htombs, over_collect, over_collect, ht]
    simp only [walk, getEntry_congr ht]
    cases getEntry t' key snap' with
    | none => exact ih hnext
    | some e => exact ⟨congrArg some (shadowed_congr hnext), hnext⟩

/-- A table with nothing over the key is walked past. -/
theorem walk_unseen (h : visibleOver key snap t = []) (ts : List Table) (tombs : List WriteOp) :
    (walk key snap (t :: ts) tombs).1 = (walk key snap ts tombs).1 ∧
      tombsOver key (walk key snap (t :: ts) tombs).2 = tombsOver key (walk key snap ts tombs).2 := by
  have hnone : getEntry t key snap = none := by
    rw [getEntry, newestVersion_visibleOver, h]
    rfl
  have htombs : tombsOver key (tombs ++ collectRangeTombstones snap t) = tombsOver key tombs := by
    rw [over_append, over_collect, h]
    simp
  simp only [walk, hnone]
  exact walk_congr (forall₂_same.mpr fun _ _ => rfl) htombs

theorem lookupRuns_tombs {family : Key} {runs : List BulkRun}
    (h : tombsOver key tombs = tombsOver key tombs') :
    lookupRuns key snap family tombs runs = lookupRuns key snap family tombs' runs := by
  induction runs with
  | nil => rfl
  | cons run runs ih =>
    have hdel : rangeDeleted key 0 tombs = rangeDeleted key 0 tombs' := by
      rw [rangeDeleted_over, h, ← rangeDeleted_over]
    simp [lookupRuns, ih, hdel]

/-- **What a read depends on.** -/
theorem lookupLayers_congr {ts ts' files files' : List Table} {runs runs' : List BulkRun} {family : Key}
    (hts : List.Forall₂ (fun t t' => visibleOver key snap t = visibleOver key snap' t') ts ts')
    (hruns : ∀ tombs, lookupRuns key snap family tombs runs = lookupRuns key snap' family tombs runs')
    (hfiles : ∀ tombs, (walk key snap files tombs).1 = (walk key snap' files' tombs).1 ∧
      tombsOver key (walk key snap files tombs).2 = tombsOver key (walk key snap' files' tombs).2) :
    lookupLayers ts runs family files key snap = lookupLayers ts' runs' family files' key snap' := by
  obtain ⟨hlook, htombs⟩ := walk_congr hts (Eq.refl (tombsOver key []))
  rcases hw : walk key snap ts [] with ⟨look, tombs⟩
  rcases hw' : walk key snap' ts' [] with ⟨look', tombs'⟩
  rw [hw, hw'] at hlook htombs
  obtain rfl : look = look' := hlook
  simp only [lookupLayers, hw, hw']
  cases look with
  | some l => rfl
  | none =>
    have htombs : tombsOver key tombs = tombsOver key tombs' := htombs
    dsimp only
    rw [lookupRuns_tombs htombs, hruns]
    cases lookupRuns key snap' family tombs' runs' with
    | some l => rfl
    | none =>
      have hsame : (walk key snap files tombs).1 = (walk key snap files tombs').1 ∧
          tombsOver key (walk key snap files tombs).2 = tombsOver key (walk key snap files tombs').2 :=
        walk_congr (forall₂_same.mpr fun _ _ => rfl) htombs
      obtain ⟨hlook₂, htombs₂⟩ := hfiles tombs'
      rw [← hsame.1] at hlook₂
      rw [← hsame.2] at htombs₂
      rcases hf : walk key snap files tombs with ⟨l, ts₂⟩
      rcases hf' : walk key snap' files' tombs' with ⟨l', ts₂'⟩
      rw [hf, hf'] at hlook₂ htombs₂
      obtain rfl : l = l' := hlook₂
      cases l with
      | some l => rfl
      | none =>
        have hdel : rangeDeleted key 0 ts₂ = rangeDeleted key 0 ts₂' := by
          rw [rangeDeleted_over, htombs₂, ← rangeDeleted_over]
        simp [hdel]

end Congr
end PedraDb
