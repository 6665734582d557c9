import Mathlib.Data.List.Sort

/-! Changes laid over sorted rows.

A change sets the value of a key or removes the key. `overlay` applies changes one after
the other. The changes can also be collected first, the last one of each key, in the order
of keys; a walk over both sorted lists at once then gives the same rows
(`merge_collect`). -/
namespace PedraDb.Overlay
open List

section Rows
variable {κ ν : Type} [LT κ] [DecidableLT κ]

def Sorted (rows : List (κ × ν)) : Prop := rows.Pairwise fun a b => a.1 < b.1

/-- One row set, or removed. -/
def change (rows : List (κ × ν)) (k : κ) (v : Option ν) : List (κ × ν) :=
  rows.filter (fun r => decide (r.1 < k)) ++ v.toList.map (k, ·) ++ rows.filter fun r => decide (k < r.1)

/-- Changes made one after the other. -/
def overlay (rows : List (κ × ν)) (changes : List (κ × Option ν)) : List (κ × ν) :=
  changes.foldl (fun rows ch => change rows ch.1 ch.2) rows

/-- The last change of each key. -/
def collect (changes : List (κ × Option ν)) : List (κ × Option ν) :=
  changes.foldl (fun st ch => change st ch.1 (some ch.2)) []

/-- Both lists from their smallest keys on; a change stands before a row of its key. -/
def merge : List (κ × ν) → List (κ × Option ν) → List (κ × ν)
  | rows, [] => rows
  | [], (k, v) :: st => v.toList.map (k, ·) ++ merge [] st
  | r :: rows, (k, v) :: st =>
    if k < r.1 then v.toList.map (k, ·) ++ merge (r :: rows) st
    else if r.1 < k then r :: merge rows ((k, v) :: st)
    else v.toList.map (k, ·) ++ merge rows st
  termination_by rows st => rows.length + st.length

theorem merge_nil_left (k : κ) (v : Option ν) (st : List (κ × Option ν)) :
    merge [] ((k, v) :: st) = v.toList.map (k, ·) ++ merge [] st := by
  rw [merge]

@[simp] theorem merge_nil_right (rows : List (κ × ν)) : merge rows [] = rows := by
  cases rows <;> rw [merge]

theorem merge_length (rows : List (κ × ν)) (st : List (κ × Option ν)) :
    (merge rows st).length ≤ rows.length + st.length := by
  have hput : ∀ (k : κ) (v : Option ν), (v.toList.map (k, ·)).length ≤ 1 := by
    intro k v
    cases v <;> simp
  fun_induction merge rows st with
  | case1 rows => simp
  | case2 k v st ih =>
    have := hput k v
    simp only [length_append, length_cons, length_nil] at ih ⊢
    omega
  | case3 r rows k v st _ ih =>
    have := hput k v
    simp only [length_append, length_cons] at ih ⊢
    omega
  | case4 r rows k v st _ _ ih =>
    simp only [length_cons] at ih ⊢
    omega
  | case5 r rows k v st _ _ ih =>
    have := hput k v
    simp only [length_append, length_cons] at ih ⊢
    omega

end Rows

section Changes
variable {κ ν : Type} {k : κ} {v : Option ν} {st : List (κ × Option ν)}

theorem mem_put {p : κ × ν} : p ∈ v.toList.map (k, ·) ↔ p.1 = k ∧ v = some p.2 := by
  cases v with
  | none => simp
  | some v => simp [Prod.ext_iff, eq_comm]

theorem silent_cons {a : κ} : (∀ o, (a, o) ∉ (k, v) :: st) ↔ a ≠ k ∧ ∀ o, (a, o) ∉ st := by
  constructor
  · intro h
    refine ⟨fun hak => h v (by simp [hak]), fun o ho => h o (mem_cons_of_mem _ ho)⟩
  · rintro ⟨hak, h⟩ o ho
    rcases mem_cons.mp ho with heq | ho
    · exact hak (Prod.ext_iff.mp heq).1
    · exact h o ho

theorem sets_cons {p : κ × ν} : (p.1, some p.2) ∈ (k, v) :: st ↔ p.1 = k ∧ v = some p.2 ∨
    (p.1, some p.2) ∈ st := by
  rw [mem_cons, Prod.ext_iff, eq_comm (a := some p.2)]

theorem Sorted.put_append [LT κ] {rows : List (κ × ν)} (v : Option ν) (h : Sorted rows)
    (habove : ∀ r ∈ rows, k < r.1) :
    Sorted (v.toList.map (k, ·) ++ rows) := by
  refine pairwise_append.mpr ⟨by cases v <;> simp, h, fun a ha b hb => ?_⟩
  rw [(mem_put.mp ha).1]
  exact habove b hb

end Changes

section Order
variable {κ ν : Type} [LT κ] [LE κ] [Std.IsLinearOrder κ] [Std.LawfulOrderLT κ]
variable {rows : List (κ × ν)} {st : List (κ × Option ν)}

/-- Sorted rows are determined by their members. -/
theorem sorted_ext {rows' : List (κ × ν)} (h : Sorted rows) (h' : Sorted rows')
    (hmem : ∀ p, p ∈ rows ↔ p ∈ rows') :
    rows = rows' := by
  have : Std.Asymm fun a b : κ × ν => a.1 < b.1 :=
    ⟨fun _ _ hab hba => Std.lt_irrefl (Std.lt_trans hab hba)⟩
  exact Pairwise.eq_of_mem_iff h h' hmem

variable [DecidableLT κ]

theorem mem_change {k : κ} {v : Option ν} {p : κ × ν} :
    p ∈ change rows k v ↔ p.1 = k ∧ v = some p.2 ∨ p.1 ≠ k ∧ p ∈ rows := by
  have hne : p.1 ≠ k ↔ p.1 < k ∨ k < p.1 := by
    constructor
    · intro h
      rcases Std.lt_trichotomy p.1 k with hlt | heq | hgt
      · exact .inl hlt
      · exact absurd heq h
      · exact .inr hgt
    · rintro (h | h) heq
      · exact Std.lt_irrefl (heq ▸ h)
      · exact Std.lt_irrefl (heq ▸ h)
  simp only [change, mem_append, mem_filter, decide_eq_true_eq, mem_put, hne]
  constructor
  · rintro ((⟨hp, h⟩ | h) | ⟨hp, h⟩)
    · exact .inr ⟨.inl h, hp⟩
    · exact .inl h
    · exact .inr ⟨.inr h, hp⟩
  · rintro (h | ⟨h | h, hp⟩)
    · exact .inl (.inr h)
    · exact .inl (.inl ⟨hp, h⟩)
    · exact .inr ⟨hp, h⟩

theorem Sorted.change (h : Sorted rows) (k : κ) (v : Option ν) : Sorted (change rows k v) := by
  have hput : Sorted (v.toList.map (k, ·)) := by
    cases v <;> simp [Sorted]
  have hkey : ∀ p ∈ v.toList.map (k, ·), p.1 = k := by
    exact fun p hp => (mem_put.mp hp).1
  refine pairwise_append.mpr ⟨pairwise_append.mpr ⟨h.filter _, hput, ?_⟩, h.filter _, ?_⟩
  · intro a ha b hb
    rw [hkey b hb]
    exact of_decide_eq_true (mem_filter.mp ha).2
  · intro a ha b hb
    have hkb : k < b.1 := of_decide_eq_true (mem_filter.mp hb).2
    rcases mem_append.mp ha with ha | ha
    · exact Std.lt_trans (of_decide_eq_true (mem_filter.mp ha).2) hkb
    · rw [hkey a ha]
      exact hkb

section
variable (hrows : Sorted rows)
include hrows

section
variable (hst : Sorted st)
include hst

/-- What a merge shows: the changes that set a value, and the rows no change is about. -/
theorem mem_merge (p : κ × ν) : p ∈ merge rows st ↔ (p.1, some p.2) ∈ st ∨ p ∈ rows ∧
    ∀ v, (p.1, v) ∉ st := by
  fun_induction merge rows st with
  | case1 rows => simp
  | case2 k v st ih =>
    rw [mem_append, mem_put, ih hrows (pairwise_cons.mp hst).2, sets_cons]
    simp
  | case3 r rows k v st hlt ih =>
    obtain ⟨hfirst, hst⟩ := pairwise_cons.mp hst
    rw [mem_append, mem_put, ih hrows hst, sets_cons, silent_cons, or_assoc]
    -- the rows are all above the change
    have hne : p ∈ r :: rows → p.1 ≠ k := by
      intro hp heq
      rcases mem_cons.mp hp with rfl | hp
      · exact Std.lt_irrefl (heq ▸ hlt)
      · exact Std.lt_irrefl (Std.lt_trans hlt (heq ▸ (pairwise_cons.mp hrows).1 p hp))
    exact or_congr_right (or_congr_right ⟨fun h => ⟨h.1, hne h.1, h.2⟩, fun h => ⟨h.1, h.2.2⟩⟩)
  | case4 r rows k v st hnlt hlt ih =>
    obtain ⟨hfirst, hrows⟩ := pairwise_cons.mp hrows
    rw [mem_cons, ih hrows hst, mem_cons (b := r)]
    -- the changes are all above the row
    have hr : ∀ o, (r.1, o) ∉ (k, v) :: st := by
      intro o ho
      rcases mem_cons.mp ho with heq | ho
      · exact Std.lt_irrefl ((Prod.ext_iff.mp heq).1 ▸ hlt)
      · exact Std.lt_irrefl (Std.lt_trans hlt ((pairwise_cons.mp hst).1 _ ho))
    constructor
    · rintro (rfl | h | ⟨h, h'⟩)
      · exact .inr ⟨.inl rfl, hr⟩
      · exact .inl h
      · exact .inr ⟨.inr h, h'⟩
    · rintro (h | ⟨rfl | h, h'⟩)
      · exact .inr (.inl h)
      · exact .inl rfl
      · exact .inr (.inr ⟨h, h'⟩)
  | case5 r rows k v st hnlt hnlt' ih =>
    obtain ⟨hfirst, hrows⟩ := pairwise_cons.mp hrows
    obtain rfl : k = r.1 := by
      rcases Std.lt_trichotomy k r.1 with h | h | h
      · exact absurd h hnlt
      · exact h
      · exact absurd h hnlt'
    rw [mem_append, mem_put, ih hrows (pairwise_cons.mp hst).2, sets_cons, silent_cons, or_assoc,
      mem_cons]
    refine or_congr_right (or_congr_right ⟨fun h => ⟨.inr h.1, ?_, h.2⟩,
      fun h => ⟨h.1.resolve_left ?_, h.2.2⟩⟩)
    · intro heq
      exact Std.lt_irrefl (heq ▸ hfirst p h.1)
    · rintro rfl
      exact h.2.1 rfl

theorem merge_above {k : κ} (habove : ∀ r ∈ rows, k < r.1) (habove' : ∀ e ∈ st, k < e.1) :
    ∀ p ∈ merge rows st, k < p.1 := by
  intro p hp
  rcases (mem_merge hrows hst p).mp hp with h | ⟨h, -⟩
  · exact habove' _ h
  · exact habove p h

/-- Merging sorted rows gives sorted rows. -/
theorem Sorted.merge : Sorted (merge rows st) := by
  fun_induction Overlay.merge rows st with
  | case1 rows => exact hrows
  | case2 k v st ih =>
    obtain ⟨hfirst, hst⟩ := pairwise_cons.mp hst
    exact (ih hrows hst).put_append v (merge_above hrows hst (by simp) hfirst)
  | case3 r rows k v st hlt ih =>
    obtain ⟨hfirst, hst⟩ := pairwise_cons.mp hst
    refine (ih hrows hst).put_append v (merge_above hrows hst ?_ hfirst)
    exact forall_mem_cons.mpr ⟨hlt, fun a ha => Std.lt_trans hlt ((pairwise_cons.mp hrows).1 a ha)⟩
  | case4 r rows k v st hnlt hlt ih =>
    obtain ⟨hfirst, hrows⟩ := pairwise_cons.mp hrows
    refine pairwise_cons.mpr ⟨merge_above hrows hst hfirst ?_, ih hrows hst⟩
    exact forall_mem_cons.mpr ⟨hlt, fun e he => Std.lt_trans hlt ((pairwise_cons.mp hst).1 e he)⟩
  | case5 r rows k v st hnlt hnlt' ih =>
    obtain ⟨hfirst, hrows⟩ := pairwise_cons.mp hrows
    obtain ⟨hfirst', hst⟩ := pairwise_cons.mp hst
    refine (ih hrows hst).put_append v (merge_above hrows hst (fun a ha => ?_) hfirst')
    exact Std.lt_of_le_of_lt (Std.not_lt.mp hnlt') (hfirst a ha)

/-- **A merge with one more change.** -/
theorem merge_change (k : κ) (v : Option ν) :
    merge rows (change st k (some v)) = change (merge rows st) k v := by
  refine sorted_ext (hrows.merge (hst.change k (some v))) ((hrows.merge hst).change k v) fun p => ?_
  simp only [mem_merge hrows (hst.change k (some v)), mem_change, mem_merge hrows hst, Option.some.injEq]
  by_cases hk : p.1 = k
  · simp [hk]
  · simp [hk]

end

/-- **Collecting the changes first makes no difference.** -/
theorem merge_collect (changes : List (κ × Option ν)) :
    merge rows (collect changes) = overlay rows changes := by
  have hfold : ∀ st : List (κ × Option ν), Sorted st →
      merge rows (changes.foldl (fun st ch => change st ch.1 (some ch.2)) st) =
        changes.foldl (fun rows ch => change rows ch.1 ch.2) (merge rows st) := by
    induction changes with
    | nil => exact fun _ _ => rfl
    | cons ch changes ih =>
      intro st hst
      simp only [foldl_cons]
      rw [ih _ (hst.change _ _), merge_change hrows hst]
  rw [collect, hfold [] List.Pairwise.nil, merge_nil_right]
  rfl

/-- The part of a merge in a window, from a part of the rows and a part of the changes. -/
theorem merge_filter (hst : Sorted st) {a b w : κ → Bool} (hab : ∀ k, a k = true → b k = true)
    (hw : ∀ k, w k = true → b k = true → a k = true) :
    (merge (rows.filter fun r => a r.1) (st.filter fun e => b e.1)).filter (fun r => w r.1) =
      ((merge rows st).filter fun r => w r.1).filter fun r => b r.1 := by
  have hrows' : Sorted (rows.filter fun r => a r.1) := hrows.filter _
  have hst' : Sorted (st.filter fun e => b e.1) := hst.filter _
  refine sorted_ext ((hrows'.merge hst').filter _) (((hrows.merge hst).filter _).filter _) fun p => ?_
  simp only [mem_filter, mem_merge hrows' hst', mem_merge hrows hst]
  constructor
  · rintro ⟨⟨h, hb⟩ | ⟨⟨h, ha⟩, hsilent⟩, hp⟩
    · exact ⟨⟨.inl h, hp⟩, hb⟩
    · exact ⟨⟨.inr ⟨h, fun v hv => hsilent v ⟨hv, hab _ ha⟩⟩, hp⟩, hab _ ha⟩
  · rintro ⟨⟨h | ⟨h, hsilent⟩, hp⟩, hb⟩
    · exact ⟨.inl ⟨h, hb⟩, hp⟩
    · exact ⟨.inr ⟨⟨h, hw _ hp hb⟩, fun v hv => hsilent v hv.1⟩, hp⟩

end

theorem collect_sorted (changes : List (κ × Option ν)) : Sorted (collect changes) := by
  have hfold : ∀ st : List (κ × Option ν),
      Sorted st → Sorted (changes.foldl (fun st ch => change st ch.1 (some ch.2)) st) := by
    induction changes with
    | nil => exact fun _ h => h
    | cons ch changes ih => exact fun st hst => ih _ (hst.change _ _)
  exact hfold [] List.Pairwise.nil

end Order
end PedraDb.Overlay
