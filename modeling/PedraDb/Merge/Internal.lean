import PedraDb.Layers.Scan

/-! The order of internal keys.

Keys ascend; of one key the larger sequence comes first, then the larger kind. The order is
total on internal keys, so a table in which no internal key occurs twice has one
arrangement in it (`eq_of_strict`), whichever way it was sorted or merged. -/
namespace PedraDb
open List
variable {a b : WriteOp} {t t' entries : Table} {c : WriteOp} {v : WriteOp}

/-- The first comes before the second in the order of internal keys. -/
def InternalBefore (a b : WriteOp) : Prop := a.key < b.key ∨ a.key = b.key ∧ versionNewer a b = true

instance (a b : WriteOp) : Decidable (InternalBefore a b) := inferInstanceAs (Decidable (_ ∨ _))

/-- No internal key occurs twice. -/
def InternallyDistinct (t : Table) : Prop := t.Pairwise fun a b => sameInternalKey a b = false

theorem versionNewer_iff :
    versionNewer a b = true ↔ b.sequence < a.sequence ∨ a.sequence = b.sequence ∧
    b.kind.rank < a.kind.rank := by
  simp [versionNewer]

theorem ValueType.rank_inj {a b : ValueType} (h : a.rank = b.rank) : a = b := by
  revert h
  cases a <;> cases b <;> decide

theorem sameInternalKey_iff : sameInternalKey a b = true ↔ a.key = b.key ∧ a.sequence = b.sequence ∧
    a.kind = b.kind := by
  simp [sameInternalKey, and_assoc]

theorem sameInternalKey_comm (a b : WriteOp) : sameInternalKey a b = sameInternalKey b a := by
  rw [Bool.eq_iff_iff, sameInternalKey_iff, sameInternalKey_iff]
  constructor <;> rintro ⟨h₁, h₂, h₃⟩ <;> exact ⟨h₁.symm, h₂.symm, h₃.symm⟩

theorem InternalBefore.irrefl (a : WriteOp) : ¬ InternalBefore a a := by
  rintro (h | ⟨-, h⟩)
  · exact List.lt_irrefl _ h
  · rw [versionNewer_iff] at h
    omega

section
variable (h : InternalBefore a b)
include h

theorem InternalBefore.trans (h' : InternalBefore b c) : InternalBefore a c := by
  rcases h with h | ⟨hk, hv⟩
  · rcases h' with h' | ⟨hk', -⟩
    · exact .inl (List.lt_trans h h')
    · exact .inl (hk' ▸ h)
  · rcases h' with h' | ⟨hk', hv'⟩
    · exact .inl (hk ▸ h')
    · refine .inr ⟨hk.trans hk', ?_⟩
      rw [versionNewer_iff] at *
      omega

theorem InternalBefore.asymm : ¬ InternalBefore b a :=
  fun h' => InternalBefore.irrefl a (h.trans h')

theorem InternalBefore.le : InternalLe a b := by
  rcases h with h | ⟨hk, hv⟩
  · exact .inl h
  · rw [versionNewer_iff] at hv
    exact .inr ⟨hk, by omega⟩

end

theorem InternalBefore.total (h : sameInternalKey a b = false) :
    InternalBefore a b ∨ InternalBefore b a := by
  by_cases hlt : a.key < b.key
  · exact .inl (.inl hlt)
  by_cases hgt : b.key < a.key
  · exact .inr (.inl hgt)
  have hk : a.key = b.key := List.le_antisymm (List.not_lt.mp hgt) (List.not_lt.mp hlt)
  have hne : ¬ (a.sequence = b.sequence ∧ a.kind.rank = b.kind.rank) := by
    rintro ⟨hs, hr⟩
    have := sameInternalKey_iff.mpr ⟨hk, hs, ValueType.rank_inj hr⟩
    rw [h] at this
    cases this
  have hor : versionNewer a b = true ∨ versionNewer b a = true := by
    rw [versionNewer_iff, versionNewer_iff]
    omega
  exact hor.imp (fun hv => .inr ⟨hk, hv⟩) fun hv => .inr ⟨hk.symm, hv⟩

theorem InternalBefore.not_same (h : InternalBefore a b) : sameInternalKey a b = false := by
  by_contra hsame
  obtain ⟨hk, hs, hkind⟩ := sameInternalKey_iff.mp (by simpa using hsame)
  rcases h with h | ⟨-, hv⟩
  · exact List.lt_irrefl _ (hk ▸ h)
  · rw [versionNewer_iff, hkind] at hv
    omega

theorem InternalBefore.congr_left (h : sameInternalKey a b = true) :
    InternalBefore a c ↔ InternalBefore b c := by
  obtain ⟨hk, hs, hkind⟩ := sameInternalKey_iff.mp h
  rw [InternalBefore, InternalBefore, versionNewer_iff, versionNewer_iff, hk, hs, hkind]

theorem InternalBefore.congr_right (h : sameInternalKey a b = true) :
    InternalBefore c a ↔ InternalBefore c b := by
  obtain ⟨hk, hs, hkind⟩ := sameInternalKey_iff.mp h
  rw [InternalBefore, InternalBefore, versionNewer_iff, versionNewer_iff, hk, hs, hkind]

/-- Between a first and a later entry a third one is after the first or before the later. -/
theorem InternalBefore.split (h : InternalBefore a b) (c : WriteOp) :
    InternalBefore a c ∨ InternalBefore c b := by
  cases hsame : sameInternalKey c b with
  | true => exact .inl ((InternalBefore.congr_right hsame).mpr h)
  | false =>
    rcases InternalBefore.total hsame with hcb | hbc
    · exact .inr hcb
    · exact .inl (h.trans hbc)

/-! ### Sorting -/

theorem insertInternal_strict (ht : t.Pairwise InternalBefore)
    (hv : ∀ w ∈ t, sameInternalKey v w = false) : (insertInternal v t).Pairwise InternalBefore := by
  refine insertInternal_ordered .trans ht fun w hw => ?_
  split
  · rename_i hbefore
    simpa [InternalBefore] using hbefore
  · rename_i hnot
    refine (InternalBefore.total (hv w hw)).resolve_right fun h => hnot ?_
    simpa [InternalBefore] using h

theorem sortInternal_strict (h : InternallyDistinct t) : (sortInternal t).Pairwise InternalBefore := by
  induction t with
  | nil => exact .nil
  | cons v t ih =>
    obtain ⟨hv, ht⟩ := pairwise_cons.mp h
    exact insertInternal_strict (ih ht) fun w hw => hv w (mem_sortInternal.mp hw)

instance : Std.Asymm InternalBefore := ⟨fun _ _ h => h.asymm⟩

/-- **One arrangement.** Two tables in internal order with the same entries are the same. -/
theorem eq_of_strict (ht : t.Pairwise InternalBefore) (ht' : t'.Pairwise InternalBefore)
    (h : ∀ v, v ∈ t ↔ v ∈ t') : t = t' :=
  ht.eq_of_mem_iff ht' h

section
variable (h : InternallyDistinct t)
include h

theorem InternallyDistinct.perm (hperm : t.Perm t') : InternallyDistinct t' :=
  (hperm.pairwise_iff fun {a b} hab => by rw [sameInternalKey_comm]; exact hab).mp h

theorem InternallyDistinct.sublist (hsub : t'.Sublist t) : InternallyDistinct t' :=
  List.Pairwise.sublist hsub h

theorem InternallyDistinct.subperm (hsub : t'.Subperm t) : InternallyDistinct t' := by
  obtain ⟨l, hperm, hl⟩ := hsub
  exact (h.sublist hl).perm hperm

end

/-- Insert into the map; an entry with the same internal key is replaced. -/
def mapInsert (v : WriteOp) : Table → Table
  | [] => [v]
  | w :: rest =>
    if sameInternalKey w v then v :: rest
    else if w.key < v.key || (w.key == v.key && versionNewer w v) then w :: mapInsert v rest
    else v :: w :: rest

def mapOf (entries : Table) : Table := entries.foldl (fun map v => mapInsert v map) []

theorem mapInsert_eq (hv : ∀ w ∈ t, sameInternalKey v w = false) :
    mapInsert v t = insertInternal v t := by
  induction t with
  | nil => rfl
  | cons w t ih =>
    have hw : sameInternalKey w v = false := by rw [sameInternalKey_comm]; exact hv w mem_cons_self
    rw [mapInsert, if_neg (by simp [hw]), insertInternal, ih fun u hu => hv u (mem_cons_of_mem _ hu)]

/-- A map of entries with different internal keys is those entries in order. -/
theorem mapOf_eq (h : InternallyDistinct entries) : mapOf entries = sortInternal entries := by
  suffices hfold : ∀ rest map, InternallyDistinct (map ++ rest) → map.Pairwise InternalBefore →
      (rest.foldl (fun map v => mapInsert v map) map).Pairwise InternalBefore ∧
        (rest.foldl (fun map v => mapInsert v map) map).Perm (map ++ rest) by
    obtain ⟨hstrict, hperm⟩ := hfold entries [] h .nil
    exact eq_of_strict hstrict (sortInternal_strict h) fun v => hperm.mem_iff.trans mem_sortInternal.symm
  intro rest
  induction rest with
  | nil =>
    intro map hdistinct hmap
    exact ⟨hmap, by simp⟩
  | cons v rest ih =>
    intro map hdistinct hmap
    have hv : ∀ w ∈ map, sameInternalKey v w = false := fun w hw => by
      rw [sameInternalKey_comm]
      exact (pairwise_append.mp hdistinct).2.2 w hw v mem_cons_self
    have hperm : (insertInternal v map ++ rest).Perm (map ++ v :: rest) :=
      ((insertInternal_perm v map).append_right rest).trans perm_middle.symm
    obtain ⟨hstrict, hall⟩ :=
      ih (insertInternal v map) (hdistinct.perm hperm.symm) (insertInternal_strict hmap hv)
    rw [foldl_cons, mapInsert_eq hv]
    exact ⟨hstrict, hall.trans hperm⟩

/-! ### The newest version of a key -/

/-- The version a reader at the snapshot finds first. -/
structure FirstSeen (key : Key) (snap : Nat) (entries : Table) (c : WriteOp) : Prop where
  mem : c ∈ entries
  point : c.kind ≠ .rangeDeletion
  under : c.key = key
  seen : c.sequence ≤ snap
  first : ∀ w ∈ entries, w.kind ≠ .rangeDeletion → w.key = key → w.sequence ≤ snap → w = c ∨
    InternalBefore c w

theorem FirstSeen.eq {key : Key} {snap : Nat} {c' : WriteOp} (h : FirstSeen key snap entries c)
    (h' : FirstSeen key snap entries c') : c = c' := by
  rcases h.first c' h'.mem h'.point h'.under h'.seen with rfl | hlt
  · rfl
  · rcases h'.first c h.mem h.point h.under h.seen with rfl | hlt'
    · rfl
    · exact absurd hlt' hlt.asymm

/-- A table in internal order starts each key with its newest version. -/
theorem mem_firstPerKey_iff {l : Table} (hl : l.Pairwise InternalBefore) (last : Option Key)
    (hlast : ∀ k, last = some k → ∀ v ∈ l, k ≤ v.key) {w : WriteOp} :
    w ∈ firstPerKey last l ↔ w ∈ l ∧ last ≠ some w.key ∧ ∀ u ∈ l, u.key = w.key → u = w ∨
    InternalBefore w u := by
  have hspec := (Layers.firstPerKey_spec (fun h => h.le.key_le) last hl hlast).1
  constructor
  · intro hw
    refine ⟨mem_firstPerKey hw, fun hk => ?_, (hspec w hw).2⟩
    exact List.lt_irrefl _ ((hspec w hw).1 _ hk)
  · rintro ⟨hw, hne, hfirst⟩
    obtain ⟨u, hu, hkey⟩ := Layers.firstPerKey_of_mem last hw hne
    rcases hfirst u (mem_firstPerKey hu) hkey with rfl | hlt
    · exact hu
    · rcases (hspec u hu).2 w hw hkey.symm with rfl | hgt
      · exact hu
      · exact absurd hgt hlt.asymm

section Visible
open Layers Bytes
variable {snap : Nat} {start stop : Bound}

/-- A version hides behind a newer range deletion the snapshot sees. -/
def hidden (entries : Table) (snap : Nat) (c : WriteOp) : Bool :=
  rangeDeleted c.key c.sequence (collectRangeTombstones snap entries)

section
variable (hdistinct : InternallyDistinct entries)
include hdistinct

theorem mem_visibleRange_iff {key : Key} {value : Value} :
    (key, value) ∈ visibleRange entries snap start stop ↔
      userKeyInRange key start stop = true ∧
        ∃ c, FirstSeen key snap entries c ∧ c.kind = .value ∧ hidden entries snap c = false ∧
        c.value = value := by
  have hstrict := sortInternal_strict (hdistinct.sublist (filter_sublist (l := entries) (p := fun v =>
      v.kind != .rangeDeletion && decide (v.sequence ≤ snap) && userKeyInRange v.key start stop)))
  simp only [visibleRange, mem_filterMap, mem_firstPerKey_iff hstrict none (by simp),
    mem_sortInternal_seen]
  constructor
  · rintro ⟨w, ⟨⟨hmem, hkind, hseen, hrange⟩, -, hfirst⟩, hshown⟩
    split at hshown
    swap
    · cases hshown
    rename_i hlive
    rw [Bool.and_eq_true, beq_iff_eq, Bool.not_eq_true'] at hlive
    obtain ⟨rfl, rfl⟩ : w.key = key ∧ w.value = value := by simpa using hshown
    exact ⟨hrange, w, ⟨hmem, hkind, rfl, hseen, fun u hu hupoint hukey huseen =>
      hfirst u ⟨hu, hupoint, huseen, hukey ▸ hrange⟩ hukey⟩, hlive.1, hlive.2, rfl⟩
  · rintro ⟨hrange, c, htop, hkind, hlive, rfl⟩
    refine ⟨c, ⟨⟨htop.mem, htop.point, htop.seen, htop.under ▸ hrange⟩, by simp, fun u hu heq => ?_⟩, ?_⟩
    · exact htop.first u hu.1 hu.2.1 (heq.trans htop.under) hu.2.2.1
    · rw [hidden, htop.under] at hlive
      simp [hkind, hlive, htop.under]

theorem exists_top (hv : v ∈ entries) (hpoint : v.kind ≠ .rangeDeletion)
    (hseen : v.sequence ≤ snap) : ∃ c, FirstSeen v.key snap entries c := by
  have hmem : ∀ u, u ∈ sortInternal (entries.filter fun v =>
    v.kind != .rangeDeletion && decide (v.sequence ≤ snap)) ↔
      u ∈ entries ∧ u.kind ≠ .rangeDeletion ∧ u.sequence ≤ snap := by
    intro u
    rw [mem_sortInternal]
    simp
  have hstrict := sortInternal_strict (hdistinct.sublist (filter_sublist (l := entries) (p := fun v =>
      v.kind != .rangeDeletion && decide (v.sequence ≤ snap))))
  obtain ⟨w, hw, hkey⟩ := firstPerKey_of_mem none ((hmem v).mpr ⟨hv, hpoint, hseen⟩) (by simp)
  obtain ⟨hwmem, -, hfirst⟩ := (mem_firstPerKey_iff hstrict none (by simp)).mp hw
  obtain ⟨hwmem, hwpoint, hwseen⟩ := (hmem w).mp hwmem
  exact ⟨w, hwmem, hwpoint, hkey, hwseen, fun u hu hupoint hukey huseen =>
    hfirst u ((hmem u).mpr ⟨hu, hupoint, huseen⟩) (hukey.trans hkey.symm)⟩

/-- **Tables with the same view.** The second has no more than the first. The first version of
a key is in it too, or it is not live and what comes first then is not live either; and a
version in both is hidden in both or in neither. -/
theorem visibleRange_eq {entries' : Table} (hdistinct' : InternallyDistinct entries')
    (hsub : ∀ v ∈ entries', v ∈ entries)
    (hhidden : ∀ v ∈ entries', v.kind ≠ .rangeDeletion → v.sequence ≤ snap →
      hidden entries' snap v = hidden entries snap v)
    (htop : ∀ key c, FirstSeen key snap entries c → c ∈ entries' ∨
      (c.kind = .value → hidden entries snap c = true) ∧
        ∀ c', FirstSeen key snap entries' c' → c'.kind = .value → hidden entries' snap c' = true) :
    visibleRange entries' snap start stop = visibleRange entries snap start stop := by
  refine Overlay.sorted_ext visibleRange_sorted visibleRange_sorted fun p => ?_
  obtain ⟨key, value⟩ := p
  rw [mem_visibleRange_iff hdistinct', mem_visibleRange_iff hdistinct]
  have hkept {key : Key} {c : WriteOp} (h : FirstSeen key snap entries c) (hc : c ∈ entries') :
    FirstSeen key snap entries' c :=
    ⟨hc, h.point, h.under, h.seen, fun w hw => h.first w (hsub w hw)⟩
  refine and_congr_right fun _ => ⟨?_, ?_⟩
  · rintro ⟨c', htop', hkind, hlive, rfl⟩
    obtain ⟨c, hc⟩ := exists_top hdistinct (hsub c' htop'.mem) htop'.point htop'.seen
    rw [htop'.under] at hc
    rcases htop key c hc with hmem | ⟨-, hgone⟩
    · obtain rfl := htop'.eq (hkept hc hmem)
      exact ⟨c', hc, hkind, hhidden c' hmem hc.point hc.seen ▸ hlive, rfl⟩
    · have := hgone c' htop' hkind
      rw [hlive] at this
      cases this
  · rintro ⟨c, hc, hkind, hlive, rfl⟩
    rcases htop key c hc with hmem | ⟨hgone, -⟩
    · exact ⟨c, hkept hc hmem, hkind, (hhidden c hmem hc.point hc.seen).trans hlive, rfl⟩
    · have := hgone hkind
      rw [hlive] at this
      cases this

end

end Visible

end PedraDb
