import PedraDb.Layers.Read

/-! What a flush does to a read.

A memtable hides its points behind a range deletion that is stored under their key, and is
asked with its own range deletions only. Its files pass over range deletions, and are asked
with those of all files. So a flush leaves a read as it was (`lookup_flush`) only where a range
deletion that hides a point of its start also covers it (`shows`), where the files before are
older, and where the new files take every key. -/
namespace PedraDb.Layers
open List
variable {t : Table} {key : Key} {snap : Nat} {v : WriteOp} {files : List Table}

/-- A range deletion is newer than the points it is stored with and covers its start, unless
the points are newer. -/
def shows (t : Table) : Bool :=
  t.all fun r => r.kind != .rangeDeletion || t.all fun v =>
    v.kind == .rangeDeletion || v.key != r.key || decide (r.sequence < v.sequence) ||
      decide (r.key < r.value) && decide (v.sequence < r.sequence)

theorem shows_hidden {r : WriteOp} (h : shows t = true) (hr : r ∈ t) (hrkind : r.kind = .rangeDeletion)
    (hv : v ∈ t) (hkind : v.kind ≠ .rangeDeletion) (hkey : v.key = r.key)
    (hle : v.sequence ≤ r.sequence) : r.covers r.key = true ∧ v.sequence < r.sequence := by
  rw [shows, all_eq_true] at h
  have h := h r hr
  simp only [hrkind, bne_self_eq_false, Bool.false_or, all_eq_true] at h
  have h := h v hv
  simp only [hkind, hkey, beq_iff_eq, bne_self_eq_false, Bool.or_eq_true, Bool.false_eq_true,
    false_or, or_false, decide_eq_true_eq, Bool.and_eq_true, Nat.not_lt.mpr hle] at h
  exact ⟨by simp [covers_range hrkind, rangeTombstoneCovers, h.1], h.2⟩

/-! ### Parts of a table -/

theorem newestVersion_keys (q : Key → Bool) (t : Table) :
    newestVersion key snap (t.filter fun v => q v.key) =
      if q key then newestVersion key snap t else none := by
  induction t with
  | nil => simp [newestVersion]
  | cons w t ih =>
    by_cases hkey : w.key = key
    · subst hkey
      rw [filter_cons]
      split
      · simp_all [newestVersion]
      · simp_all
    · have hskip : ∀ u, newestVersion key snap (w :: u) = newestVersion key snap u := by
        intro u
        simp [newestVersion, hkey]
      rw [filter_cons, hskip]
      split
      · rw [hskip, ih]
      · exact ih

theorem pointAt_keys (q : Key → Bool) (t : Table) :
    pointAt (t.filter fun v => q v.key) key snap = if q key then pointAt t key snap else none := by
  rw [pointAt, filter_comm, newestVersion_keys, pointAt]
  split <;> rfl

/-- The newest version stays the newest in a part of the table that has it. -/
theorem newestVersion_filter {p : WriteOp → Bool} (h : newestVersion key snap t = some v)
    (hp : p v = true) : newestVersion key snap (t.filter p) = some v := by
  induction t generalizing v with
  | nil => cases h
  | cons w t ih =>
    simp only [newestVersion] at h
    by_cases hw : (w.key == key && decide (w.sequence ≤ snap)) = true
    swap
    · rw [if_neg hw] at h
      rw [filter_cons]
      split
      · rw [newestVersion, if_neg hw]
        exact ih h hp
      · exact ih h hp
    rw [if_pos hw] at h
    cases hbest : newestVersion key snap t with
    | none =>
      simp only [hbest, Option.some.injEq] at h
      subst h
      have hnone : newestVersion key snap (t.filter p) = none := by
        by_contra hsome
        obtain ⟨u, hu⟩ := Option.ne_none_iff_exists'.mp hsome
        obtain ⟨hmem, hkey, hseq⟩ := newestVersion_mem hu
        obtain ⟨b, hb, _⟩ := newestVersion_ge (mem_filter.mp hmem).1 hkey hseq
        simp [hbest] at hb
      rw [filter_cons_of_pos hp, newestVersion, if_pos hw, hnone]
    | some b =>
      simp only [hbest] at h
      split at h
      · rename_i hnew
        cases h
        rw [filter_cons_of_pos hp, newestVersion, if_pos hw]
        cases hrest : newestVersion key snap (t.filter p) with
        | none => rfl
        | some u =>
          obtain ⟨hmem, hkey, hseq⟩ := newestVersion_mem hrest
          have htop := newestVersion_top hbest (mem_filter.mp hmem).1 hkey hseq
          refine if_pos ?_
          simp only [versionNewer, Bool.or_eq_true, Bool.or_eq_false_iff, Bool.and_eq_true,
            Bool.and_eq_false_iff, decide_eq_true_eq, decide_eq_false_iff_not, beq_iff_eq,
            beq_eq_false_iff_ne] at hnew htop ⊢
          omega
      · rename_i hold
        cases h
        rw [filter_cons]
        split
        · rw [newestVersion, if_pos hw, ih hbest hp]
          exact if_neg hold
        · exact ih hbest hp

theorem pointAt_newest (h : newestVersion key snap t = some v) (hkind : v.kind ≠ .rangeDeletion) :
    pointAt t key snap = some (v.sequence, shown v) := by
  rw [pointAt, newestVersion_filter h (by simpa using hkind)]
  rfl

/-- Files that are parts of a table by key, and together have all of it. -/
structure Parts (parts : List Table) (t : Table) : Prop where
  keys : ∀ u ∈ parts, ∃ q : Key → Bool, u = t.filter fun v => q v.key
  all : ∀ v ∈ t, ∃ u ∈ parts, v ∈ u

namespace Parts
variable {parts : List Table} (h : Parts parts t)
include h

/-- The parts answer like the table. -/
theorem probeRun (rest : List Table) :
    probeRun key snap (parts ++ rest) = (pointAt t key snap).or (probeRun key snap rest) := by
  have hpart : ∀ u ∈ parts, pointAt u key snap = none ∨ pointAt u key snap = pointAt t key snap := by
    intro u hu
    obtain ⟨q, rfl⟩ := h.keys u hu
    rw [pointAt_keys]
    split
    · exact .inr rfl
    · exact .inl rfl
  cases hpoint : pointAt t key snap with
  | none =>
    rw [hpoint] at hpart
    rw [Option.none_or]
    clear h
    induction parts with
    | nil => rfl
    | cons u parts ih =>
      obtain ⟨hu, hparts⟩ := forall_mem_cons.mp hpart
      rw [cons_append, Layers.probeRun, or_self_iff.mp hu]
      exact ih hparts
  | some p =>
    -- the part that has the point answers with it
    obtain ⟨v, hv, _, _⟩ := pointAt_some (hpoint : _ = some (p.1, p.2))
    obtain ⟨u, hu, hvu⟩ := h.all v hv.mem
    have hsome : pointAt u key snap = some p := by
      obtain ⟨q, rfl⟩ := h.keys u hu
      have hq : q key = true := (covers_point hv.kind).mp hv.seen.1 ▸ (mem_filter.mp hvu).2
      rw [pointAt_keys, if_pos hq, hpoint]
    rw [hpoint] at hpart
    clear h
    induction parts with
    | nil => cases hu
    | cons w parts ih =>
      obtain ⟨hw, hparts⟩ := forall_mem_cons.mp hpart
      rw [cons_append, Layers.probeRun]
      rcases hw with hw | hw
      · rw [hw]
        refine ih hparts ((mem_cons.mp hu).resolve_left fun heq => ?_)
        rw [heq, hw] at hsome
        cases hsome
      · rw [hw]
        rfl

theorem mem_tombstones {r : WriteOp} :
    r ∈ (parts ++ files).flatMap (collectRangeTombstones snap) ↔
      r ∈ collectRangeTombstones snap t ++ files.flatMap (collectRangeTombstones snap) := by
  rw [flatMap_append, mem_append, mem_append]
  refine or_congr_left ?_
  simp only [mem_flatMap, mem_collectRangeTombstones]
  constructor
  · intro ⟨u, hu, hr, hrest⟩
    obtain ⟨q, rfl⟩ := h.keys u hu
    exact ⟨(mem_filter.mp hr).1, hrest⟩
  · intro ⟨hr, hrest⟩
    obtain ⟨u, hu, hru⟩ := h.all r hr
    exact ⟨u, hu, hru, hrest⟩

end Parts

theorem rangeDeleted_congr {tombs tombs' : List WriteOp} (h : ∀ r, r ∈ tombs ↔ r ∈ tombs') (seq : Nat) :
    rangeDeleted key seq tombs = rangeDeleted key seq tombs' := by
  rw [Bool.eq_iff_iff, rangeDeleted_iff, rangeDeleted_iff]
  exact exists_congr fun r => and_congr_left fun _ => h r

/-! ### Reads -/

/-- The answer of the files: their point, unless it is deleted by what was collected. -/
def settled (key : Key) (tombs : List WriteOp) : Option (Nat × Lookup) → Lookup
  | some (seq, look) => shadowed key seq tombs look
  | none => if rangeDeleted key 0 tombs then .deleted else .notFound

theorem settled_congr {tombs tombs' : List WriteOp} (h : ∀ r, r ∈ tombs ↔ r ∈ tombs')
    (point : Option (Nat × Lookup)) : settled key tombs point = settled key tombs' point := by
  have hdel := @rangeDeleted_congr key _ _ h
  cases point with
  | none => rw [settled, settled, hdel]
  | some p =>
    obtain ⟨seq, look⟩ := p
    cases look <;> simp only [settled, shadowed, hdel]

/-- A range deletion over the key that is newer than the point leaves no value. -/
theorem settled_none {r : WriteOp} {tombs : List WriteOp} {point : Option (Nat × Lookup)}
    (hr : r ∈ tombs) (hcovers : rangeTombstoneCovers r.key r.value key = true)
    (hnewer : ∀ p, point = some p → p.1 < r.sequence) : (settled key tombs point).value = none := by
  cases point with
  | none =>
    rw [settled]
    split <;> rfl
  | some p =>
    have hdel : rangeDeleted key p.1 tombs = true := rangeDeleted_iff.mpr ⟨r, hr, hcovers, hnewer p rfl⟩
    obtain ⟨seq, look⟩ := p
    cases look with
    | found v => simp only [settled, shadowed, hdel, if_true, Lookup.value]
    | deleted => rfl
    | notFound => rfl

theorem lookup_one (t : Table) (family : Key) (files : List Table) (key : Key) (snap : Nat) :
    lookup [t] [] family [files] key snap =
      match getEntry t key snap with
      | some (seq, look) => shadowed key seq (collectRangeTombstones snap t) look
      | none => settled key (collectRangeTombstones snap t ++
          files.flatMap (collectRangeTombstones snap)) (probeRun key snap files) := by
  simp only [lookup, walk, lookupRuns, walkRuns, nil_append]
  cases getEntry t key snap with
  | some p => rfl
  | none =>
    simp only
    cases probeRun key snap files <;> rfl

theorem probeRun_mem {seq : Nat} {look : Lookup} (h : probeRun key snap files = some (seq, look)) :
    ∃ u ∈ files, ∃ v ∈ u, v.sequence = seq ∧ v.covers key = true := by
  induction files with
  | nil => cases h
  | cons u files ih =>
    rw [probeRun] at h
    split at h
    · rename_i hpoint
      cases h
      obtain ⟨v, hv, hseq, _⟩ := pointAt_some hpoint
      exact ⟨u, mem_cons_self, v, hv.mem, hseq, hv.seen.1⟩
    · obtain ⟨w, hw, hrest⟩ := ih h
      exact ⟨w, mem_cons_of_mem _ hw, hrest⟩

/-! ### What a snapshot does not see -/

section Above
variable {ops : List WriteOp} (hops : ∀ op ∈ ops, snap < op.sequence) (family : Key)
include hops

theorem lookup_above (t : Table) :
    lookup [t ++ ops] [] family [files] key snap = lookup [t] [] family [files] key snap := by
  rw [lookup_one, lookup_one, getEntry, getEntry, newestVersion_above hops,
    collectRangeTombstones_above hops]

theorem lookup_skip (t : Table) :
    lookup [t] [] family [ops :: files] key snap = lookup [t] [] family [files] key snap := by
  have hpoint : pointAt ops key snap = none := by
    rw [pointAt, newestVersion_none fun op hop => hops op (mem_filter.mp hop).1]
    rfl
  rw [lookup_one, lookup_one, probeRun, hpoint, flatMap_cons, collectRangeTombstones_nil hops,
    nil_append]

end Above

/-! ### A flush -/

theorem parts_flushFiles {lossy : Lossy} {physicalCfs : List Key}
    (h : flushTakesAll lossy physicalCfs t = true) :
    Parts ((flushFiles lossy physicalCfs t).map Prod.snd) t := by
  refine ⟨fun u hu => ?_, fun v hv => ?_⟩
  · obtain ⟨f, hf, rfl⟩ := mem_map.mp hu
    rcases flushFiles_cases hf with rfl | ⟨_, hfilter⟩
    · exact ⟨fun _ => true, by simp⟩
    · exact ⟨fun key => keyInCfFamily key f.1, hfilter⟩
  · obtain ⟨f, hf, hvf⟩ := mem_flatMap.mp ((mem_flushFiles.mpr h v).mpr hv)
    exact ⟨f.2, mem_map_of_mem hf, hvf⟩

/-- **A flush leaves a read as it was**, where the files before are older than the memtable
as far as they are about the same key. -/
theorem lookup_flush {parts : List Table} (hparts : Parts parts t) (hshows : shows t = true)
    (holder : ∀ o ∈ t, ∀ u ∈ files, ∀ w ∈ u, o.covers key = true → w.covers key = true →
      w.sequence < o.sequence) (family : Key) :
    (lookup [[]] [] family [parts ++ files] key snap).value =
      (lookup [t] [] family [files] key snap).value := by
  rw [lookup_one, lookup_one]
  show (settled key ((parts ++ files).flatMap (collectRangeTombstones snap)) _).value = _
  rw [hparts.probeRun, settled_congr fun r => hparts.mem_tombstones]
  cases hn : newestVersion key snap t with
  | none =>
    -- the memtable has no version of the key
    have hpoint : pointAt t key snap = none := by
      by_contra hsome
      obtain ⟨p, hp⟩ := Option.ne_none_iff_exists'.mp hsome
      obtain ⟨v, hv, _, _⟩ := pointAt_some (hp : _ = some (p.1, p.2))
      obtain ⟨u, hu, _⟩ := newestVersion_ge hv.mem ((covers_point hv.kind).mp hv.seen.1) hv.seen.2
      simp [hn] at hu
    rw [getEntry, hn, hpoint, Option.none_or]
  | some v =>
    obtain ⟨hmem, hkey, hseq⟩ := newestVersion_mem hn
    by_cases hkind : v.kind = .rangeDeletion
    · -- its newest version is a range deletion: a point under it is deleted in either case
      have hentry : getEntry t key snap = none := by simp only [getEntry, hn, hkind]
      rw [hentry]
      cases hpoint : pointAt t key snap with
      | none => rw [Option.none_or]
      | some p =>
        obtain ⟨w, hw, hwseq, _⟩ := pointAt_some (hpoint : _ = some (p.1, p.2))
        have hwkey := (covers_point hw.kind).mp hw.seen.1
        have hle : w.sequence ≤ v.sequence := by
          have := newestVersion_top hn hw.mem hwkey hw.seen.2
          simp only [versionNewer, Bool.or_eq_false_iff, decide_eq_false_iff_not] at this
          omega
        obtain ⟨hcovers, hlt⟩ := shows_hidden hshows hmem hkind hw.mem hw.kind (hwkey.trans hkey.symm) hle
        rw [hkey] at hcovers
        have htomb : v ∈ collectRangeTombstones snap t ++ files.flatMap (collectRangeTombstones snap) :=
          mem_append_left _ (mem_collectRangeTombstones.mpr ⟨hmem, hkind, hseq⟩)
        have hover := covers_range hkind ▸ hcovers
        show (settled key _ (some p)).value = _
        rw [settled_none htomb hover, settled_none htomb hover]
        · intro q hq
          obtain ⟨u, hu, x, hx, hxseq, hxcovers⟩ := probeRun_mem (hq : _ = some (q.1, q.2))
          exact hxseq ▸ holder v hmem u hu x hx hcovers hxcovers
        · intro q hq
          cases hq
          omega
    · -- its newest version is a point, and no range deletion of the files before is newer
      have hcovers : v.covers key = true := (covers_point hkind).mpr hkey
      have hfiles : ∀ look, shadowed key v.sequence (collectRangeTombstones snap t ++
          files.flatMap (collectRangeTombstones snap)) look =
            shadowed key v.sequence (collectRangeTombstones snap t) look := by
        have hdel : rangeDeleted key v.sequence (collectRangeTombstones snap t ++
            files.flatMap (collectRangeTombstones snap)) =
              rangeDeleted key v.sequence (collectRangeTombstones snap t) := by
          rw [rangeDeleted, any_append, rangeDeleted, Bool.or_eq_left_iff_imp]
          intro h
          obtain ⟨r, hr, hrest⟩ := any_eq_true.mp h
          obtain ⟨u, hu, hr⟩ := mem_flatMap.mp hr
          obtain ⟨hr, hrkind, _⟩ := mem_collectRangeTombstones.mp hr
          simp only [Bool.and_eq_true, decide_eq_true_eq] at hrest
          have := holder v hmem u hu r hr hcovers (covers_range hrkind ▸ hrest.1)
          omega
        intro look
        cases look <;> simp only [shadowed, hdel]
      rw [pointAt_newest hn hkind]
      show (shadowed key v.sequence _ (shown v)).value = _
      rw [hfiles]
      cases hk : v.kind with
      | rangeDeletion => exact absurd hk hkind
      | deletion => simp [getEntry, hn, hk, shown]
      | value =>
        simp only [getEntry, hn, hk, shown, if_true]
        by_cases hdel : rangeDeleted key v.sequence (collectRangeTombstones snap t) = true
        · simp [shadowed, hdel]
        · simp [hdel]

end PedraDb.Layers
