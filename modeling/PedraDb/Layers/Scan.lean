import PedraDb.Library.Bytes
import PedraDb.Library.Overlay
import PedraDb.Merge

/-! Range scans.

A scan merges all versions it is given, of memtables and files alike, and shows of each
user key in its bounds the newest version, unless that is a deletion or a newer range
deletion covers it. Unlike a point read it does not depend on the order of the tables:
what it shows is what the newest operation over each key says (`mem_visibleRange`), in the
order of keys (`visibleRange_sorted`), so stores that agree on that give the same scan. -/
namespace PedraDb.Layers
open List

open Bytes (Bound)

def userKeyInRange (key : Key) (start stop : Bound) : Bool := Bytes.inBounds start stop key

/-- The visible puts of a range, in the order of user keys. -/
def visibleRange (entries : List WriteOp) (snap : Nat) (start stop : Bound) : List (Key × Value) :=
  let rangeDels := collectRangeTombstones snap entries
  let points := sortInternal
    (entries.filter fun v => v.kind != .rangeDeletion && decide (v.sequence ≤ snap) &&
      userKeyInRange v.key start stop)
  (firstPerKey none points).filterMap fun v =>
    if v.kind == .value && !rangeDeleted v.key v.sequence rangeDels then some (v.key, v.value) else none

/-- The scan ends after `limit` keys. -/
def visibleRangeLimited (entries : List WriteOp) (snap : Nat) (start stop : Bound)
    (limit : Option Nat) : List (Key × Value) :=
  match limit with
  | none => visibleRange entries snap start stop
  | some n => (visibleRange entries snap start stop).take n

section First
variable {l : Table}

/-- In a table in an order that goes by keys, the first version of a key comes before the
others. -/
theorem firstPerKey_spec {R : WriteOp → WriteOp → Prop} (hR : ∀ {a b}, R a b → a.key ≤ b.key)
    (last : Option Key)
    (hl : l.Pairwise R) (hlast : ∀ k, last = some k → ∀ v ∈ l, k ≤ v.key) :
    (∀ w ∈ firstPerKey last l, (∀ k, last = some k → k < w.key) ∧ ∀ u ∈ l, u.key = w.key → u = w ∨
      R w u) ∧
      (firstPerKey last l).Pairwise fun a b => a.key < b.key := by
  induction l generalizing last with
  | nil => exact ⟨by simp [firstPerKey], .nil⟩
  | cons v l ih =>
    obtain ⟨hv, hl⟩ := pairwise_cons.mp hl
    -- a version after those of the key `k` is of another key
    have hpast {k : Key} {w : WriteOp} (hlt : k < w.key) (hk : v.key = k)
      (hfirst : ∀ u ∈ l, u.key = w.key → u = w ∨ R w u) :
        ∀ u ∈ v :: l, u.key = w.key → u = w ∨ R w u := by
      intro u hu heq
      rcases mem_cons.mp hu with rfl | hu
      · rw [← heq, hk] at hlt
        exact absurd hlt (List.lt_irrefl _)
      · exact hfirst u hu heq
    rw [firstPerKey]
    split
    · rename_i hsame
      obtain ⟨hall, hpair⟩ := ih last hl fun k hk u hu => hlast k hk u (mem_cons_of_mem _ hu)
      exact ⟨fun w hw => ⟨(hall w hw).1, hpast ((hall w hw).1 _ hsame) rfl (hall w hw).2⟩, hpair⟩
    · rename_i hnew
      obtain ⟨hall, hpair⟩ := ih (some v.key) hl fun k hk u hu => by
        obtain rfl : v.key = k := by simpa using hk
        exact hR (hv u hu)
      refine ⟨fun w hw => ?_, pairwise_cons.mpr ⟨fun w hw => (hall w hw).1 _ rfl, hpair⟩⟩
      rcases mem_cons.mp hw with rfl | hw
      · refine ⟨fun k hk => ?_, fun u hu _ => ?_⟩
        · rcases List.le_iff_lt_or_eq.mp (hlast k hk w mem_cons_self) with hlt | rfl
          · exact hlt
          · exact absurd hk hnew
        · exact (mem_cons.mp hu).imp_right (hv u)
      · have hlt := (hall w hw).1 _ rfl
        exact ⟨fun k hk => List.lt_of_le_of_lt (hlast k hk v mem_cons_self) hlt,
          hpast hlt rfl (hall w hw).2⟩

theorem firstPerKey_newest (hl : l.Pairwise InternalLe) {w : WriteOp} (hw : w ∈ firstPerKey none l)
    {u : WriteOp} (hu : u ∈ l)
    (hkey : u.key = w.key) : u.sequence ≤ w.sequence := by
  rcases ((firstPerKey_spec InternalLe.key_le none hl (by simp)).1 w hw).2 u hu hkey with rfl |
    hlt | ⟨_, hle⟩
  · exact le_rfl
  · rw [hkey] at hlt
    exact absurd hlt (List.lt_irrefl _)
  · exact hle

theorem firstPerKey_of_mem (last : Option Key) {v : WriteOp} (hv : v ∈ l) (hlast : last ≠ some v.key) :
    ∃ w ∈ firstPerKey last l, w.key = v.key := by
  induction l generalizing last with
  | nil => cases hv
  | cons u l ih =>
    rw [firstPerKey]
    split
    · rename_i hsame
      rcases mem_cons.mp hv with rfl | hv
      · exact absurd hsame hlast
      · exact ih last hv hlast
    · rcases mem_cons.mp hv with rfl | hv
      · exact ⟨v, mem_cons_self, rfl⟩
      · by_cases heq : u.key = v.key
        · exact ⟨u, mem_cons_self, heq⟩
        · obtain ⟨w, hw, hkey⟩ := ih (some u.key) hv (by simpa using heq)
          exact ⟨w, mem_cons_of_mem _ hw, hkey⟩

end First

section Scan
variable {entries : List WriteOp} {snap : Nat} {start stop : Bound}

theorem mem_sortInternal_seen (v : WriteOp) : v ∈ sortInternal (entries.filter fun v =>
      v.kind != .rangeDeletion && decide (v.sequence ≤ snap) && userKeyInRange v.key start stop) ↔
    v ∈ entries ∧ v.kind ≠ .rangeDeletion ∧ v.sequence ≤ snap ∧
    userKeyInRange v.key start stop = true := by
  rw [mem_sortInternal]
  simp [and_assoc]

/-- **A scan shows the newest operation over each key.** -/
theorem mem_visibleRange (hdistinct : Distinct entries) {key : Key} {value : Value} :
    (key, value) ∈ visibleRange entries snap start stop ↔
      userKeyInRange key start stop = true ∧ ∃ c, Newest key snap entries c ∧ c.kind = .value ∧
      c.value = value := by
  simp only [visibleRange, mem_filterMap]
  constructor
  · rintro ⟨w, hw, hshown⟩
    split at hshown
    swap
    · cases hshown
    rename_i hlive
    rw [Bool.and_eq_true, beq_iff_eq, Bool.not_eq_true'] at hlive
    obtain ⟨hkind, hlive⟩ := hlive
    obtain ⟨rfl, rfl⟩ : w.key = key ∧ w.value = value := by simpa using hshown
    obtain ⟨hmem, hwpoint, hseq, hrange⟩ := (mem_sortInternal_seen w).mp (mem_firstPerKey hw)
    refine ⟨hrange, w, ⟨hmem, ⟨(covers_point hwpoint).mpr rfl, hseq⟩, fun u hu husees => ?_⟩, hkind, rfl⟩
    by_cases hukind : u.kind = .rangeDeletion
    · -- a newer range deletion would hide the version
      by_contra hlt
      have hdel : rangeDeleted w.key w.sequence (collectRangeTombstones snap entries) = true :=
        rangeDeleted_iff.mpr ⟨u, mem_collectRangeTombstones.mpr ⟨hu, hukind, husees.2⟩,
          covers_range hukind ▸ husees.1, not_le.mp hlt⟩
      rw [hlive] at hdel
      cases hdel
    · have hkey := (covers_point hukind).mp husees.1
      exact firstPerKey_newest (sortInternal_pairwise _) hw
        ((mem_sortInternal_seen u).mpr ⟨hu, hukind, husees.2, hkey ▸ hrange⟩) hkey
  · rintro ⟨hrange, c, hc, hkind, rfl⟩
    have hcpoint : c.kind ≠ .rangeDeletion := by simp [hkind]
    have hckey : c.key = key := (covers_point hcpoint).mp hc.seen.1
    have hcmem := (mem_sortInternal_seen c).mpr ⟨hc.mem, hcpoint, hc.seen.2, hckey ▸ hrange⟩
    obtain ⟨w, hw, hwkey⟩ := firstPerKey_of_mem none hcmem (by simp)
    obtain ⟨hwmem, hwpoint, hwseq, _⟩ := (mem_sortInternal_seen w).mp (mem_firstPerKey hw)
    have hwsees : Sees key snap w := ⟨(covers_point hwpoint).mpr (hwkey.trans hckey), hwseq⟩
    obtain rfl : w = c := hdistinct w hwmem c hc.mem
      (le_antisymm (hc.top w hwmem hwsees)
        (firstPerKey_newest (sortInternal_pairwise _) hw hcmem hwkey.symm))
    refine ⟨w, hw, ?_⟩
    have hlive : rangeDeleted w.key w.sequence (collectRangeTombstones snap entries) = false := by
      by_contra hdel
      obtain ⟨r, hr, hcovers, hlt⟩ := rangeDeleted_iff.mp (by simpa using hdel)
      obtain ⟨hrmem, hrkind, hrseq⟩ := mem_collectRangeTombstones.mp hr
      have := hc.top r hrmem ⟨(covers_range hrkind).trans (hckey ▸ hcovers), hrseq⟩
      omega
    simp [hkind, hlive, ← hckey]

theorem visibleRange_sorted : (visibleRange entries snap start stop).Pairwise fun a b => a.1 < b.1 := by
  obtain ⟨_, hpair⟩ :=
      firstPerKey_spec InternalLe.key_le none (sortInternal_pairwise (entries.filter fun v =>
    v.kind != .rangeDeletion && decide (v.sequence ≤ snap) && userKeyInRange v.key start stop)) (by simp)
  refine List.Pairwise.filterMap _ (fun v w hlt a ha b hb => ?_) hpair
  have hkey : ∀ {v : WriteOp} {a : Key × Value}, a ∈ (if v.kind == .value &&
      !rangeDeleted v.key v.sequence (collectRangeTombstones snap entries)
      then some (v.key, v.value) else none) →
      a.1 = v.key := by
    intro v a ha
    split at ha
    · obtain rfl : (v.key, v.value) = a := by simpa using ha
      rfl
    · cases ha
  rw [hkey ha, hkey hb]
  exact hlt

end Scan

end PedraDb.Layers
