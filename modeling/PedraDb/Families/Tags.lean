import PedraDb.Files
import PedraDb.Library.Bytes

/-! The family a file is tagged with.

Only the smallest and the largest key of a file are looked at. The keys between two keys of
one named family start with its name too. Raw keys of `default` lie on both sides of the
names of other families: a file of `default` may hold their keys. -/
namespace PedraDb.Families
open List

/-- The first key from here on that is not of `default`. -/
def firstForeign (key : Key) : Key :=
  let name := key.takeWhile (· != 0)
  if name = [] ∨ name = defaultFamily then name ++ [1, 0] else name ++ [0]

/-- Both names are text, and a file that starts in `default` ends before the next family
begins. -/
def bindsFamily (smallest largest : Key) : Bool :=
  utf8 (cfPrefix smallest) && utf8 (cfPrefix largest) &&
    (!keyInCfFamily smallest defaultFamily || decide (largest < firstForeign smallest))

section Between
variable {smallest largest key : Key} (hlo : smallest ≤ key)
include hlo

theorem keyInCfFamily_default (hhi : key < firstForeign smallest) :
    keyInCfFamily key defaultFamily = true := by
  have hclean := zero_notMem_takeWhile smallest
  have hname := takeWhile_prefix (l := smallest) (· != 0)
  have hle := List.le_trans hname.le hlo
  rw [firstForeign] at hhi
  generalize smallest.takeWhile (· != 0) = name at hclean hle hhi
  have hraw {r : Key} (h : 0 ∉ r) : keyInCfFamily (name ++ r) defaultFamily = true := by
    simp [keyInCfFamily, hclean, h]
  have hstarts {q : Key} (h : key < name ++ q) : ∃ r, name ++ r = key ∧ r < q := by
    obtain ⟨r, rfl⟩ := Bytes.isPrefix_between (prefix_refl name) (prefix_append name q) hle
      (List.le_of_lt h)
    exact ⟨r, rfl, (Bytes.append_lt_append name).mp h⟩
  split at hhi
  · rename_i hname
    obtain ⟨r, rfl, hr⟩ := hstarts hhi
    cases r with
    | nil => exact hraw (by simp)
    | cons b t =>
      rcases cons_lt_cons_iff.mp hr with hb | ⟨rfl, ht⟩
      · obtain rfl : b = 0 := UInt8.lt_one_iff.mp hb
        simpa [keyInCfFamily, cfPrefix_zero hclean t] using hname
      · cases t with
        | nil => exact hraw (by simp)
        | cons c t => simp [cons_lt_cons_iff] at ht
  · obtain ⟨r, rfl, hr⟩ := hstarts hhi
    cases r with
    | nil => exact hraw (by simp)
    | cons c t => simp [cons_lt_cons_iff] at hr

theorem cfPrefix_between (hne : cfPrefix smallest ≠ [])
    (hsame : cfPrefix smallest = cfPrefix largest) (hhi : key ≤ largest) :
    cfPrefix key = cfPrefix smallest := by
  have hstarts {k : Key} (h : cfPrefix k ≠ []) : cfPrefix k ++ [0] <+: k := by
    obtain ⟨rest, hrest⟩ := cfPrefix_append (contains_of_cfPrefix h)
    exact ⟨rest, by simpa using hrest⟩
  obtain ⟨rest, rfl⟩ := Bytes.isPrefix_between (hstarts hne) (hsame ▸ hstarts (hsame ▸ hne)) hlo hhi
  rw [append_assoc]
  exact cfPrefix_zero (zero_notMem_cfPrefix smallest) rest

end Between

section Exact
variable {lossy : Lossy} {smallest largest : Key}

/-- A key that belongs to its tag has a name that is text. -/
theorem utf8_cfPrefix {key : Key} (h : keyInCfFamily key (cfFamilyOf lossy key) = true) :
    utf8 (cfPrefix key) = true := by
  by_cases hnil : cfPrefix key = []
  · rw [hnil]
    exact utf8_nil
  rw [cfFamilyOf, if_neg hnil] at h
  by_cases hdefault : lossy.text (cfPrefix key) = defaultFamily
  · rw [hdefault] at h
    rw [(cfPrefix_of_default h).resolve_left hnil]
    exact utf8_default
  · -- the tag and a zero begin the key, so the tag is the name
    rw [cfPrefix_of_keyInCfFamily (lossy.clean _ (zero_notMem_cfPrefix key)) hdefault h]
    exact lossy.valid _

/-- From a key of `default` on, the first key of another family is reached. -/
theorem firstForeign_spec (hin : keyInCfFamily smallest defaultFamily = true) :
    smallest ≤ firstForeign smallest ∧
      keyInCfFamily (firstForeign smallest) defaultFamily = false := by
  have hclean := zero_notMem_takeWhile smallest
  have hsplit := takeWhile_append_dropWhile (p := (· != 0)) (l := smallest)
  have hrest : smallest.dropWhile (· != 0) = [] ∨ ∃ t, smallest.dropWhile (· != 0) = 0 :: t := by
    cases h : smallest.dropWhile (· != 0) with
    | nil => exact .inl rfl
    | cons b t =>
      have hb := List.head?_dropWhile_not (· != 0) smallest
      rw [h] at hb
      exact .inr ⟨t, by simpa using hb⟩
  unfold firstForeign
  generalize smallest.takeWhile (· != 0) = name at hclean hsplit
  generalize smallest.dropWhile (· != 0) = rest at hrest hsplit
  subst hsplit
  show _ ≤ (if _ then _ else _) ∧ _
  split
  · rename_i hname
    refine ⟨(Bytes.append_le_append name).mpr ?_, ?_⟩
    · rcases hrest with rfl | ⟨t, rfl⟩
      · exact List.nil_le _
      · exact List.le_of_lt (cons_lt_cons_iff.mpr (.inl (by decide)))
    · rcases hname with rfl | rfl
      · decide
      · decide
  · rename_i hname
    rw [not_or] at hname
    have hnil : rest = [] := by
      rcases hrest with rfl | ⟨t, rfl⟩
      · rfl
      · simp [keyInCfFamily, cfPrefix_zero hclean t, hname.1, hname.2] at hin
    subst hnil
    refine ⟨(Bytes.append_le_append name).mpr (List.nil_le _), ?_⟩
    simp [keyInCfFamily, cfPrefix_zero hclean [], hname.1, hname.2]

/-- Where a tag is given the bounds agree on it. -/
theorem inferSstCf_tag (htag : inferSstCf lossy (some smallest) (some largest) ≠ []) :
    cfFamilyOf lossy smallest = cfFamilyOf lossy largest ∧
      inferSstCf lossy (some smallest) (some largest) = cfFamilyOf lossy smallest := by
  simp only [inferSstCf] at htag ⊢
  split at htag
  · rename_i hsame
    exact ⟨hsame, if_pos hsame⟩
  · cases htag rfl

theorem keyInCfFamily_bound (hok : bindsFamily smallest largest = true)
    (htag : inferSstCf lossy (some smallest) (some largest) ≠ []) {key : Key}
    (hlo : smallest ≤ key) (hhi : key ≤ largest) :
    keyInCfFamily key (inferSstCf lossy (some smallest) (some largest)) = true := by
  simp only [bindsFamily, Bool.and_eq_true, Bool.or_eq_true, Bool.not_eq_true', decide_eq_true_eq]
    at hok
  obtain ⟨⟨hs, hl⟩, hdefault⟩ := hok
  obtain ⟨hsame, hinfer⟩ := inferSstCf_tag htag
  rw [hinfer]
  by_cases hd : cfFamilyOf lossy smallest = defaultFamily
  · have hin := @keyInCfFamily_cfFamilyOf _ lossy hs
    rw [hd] at hin ⊢
    have hlast := hdefault.resolve_left (by simp [hin])
    exact keyInCfFamily_default hlo (List.lt_of_le_of_lt hhi hlast)
  · have hnamed : ∀ {k : Key}, cfFamilyOf lossy k ≠ defaultFamily → cfPrefix k ≠ [] :=
      fun h hnil => h (if_pos hnil)
    have hne := hnamed hd
    have hpre : cfPrefix smallest = cfPrefix largest := by
      rw [cfFamilyOf_text hs, if_neg hne] at hsame
      rw [hsame, cfFamilyOf_text hl, if_neg (hnamed fun h => hd ?_)]
      rw [cfFamilyOf_text hs, if_neg hne, hsame, h]
    have hkey := cfPrefix_between hlo hne hpre hhi
    have hfam : cfFamilyOf lossy key = cfFamilyOf lossy smallest := by
      rw [cfFamilyOf, hkey, cfFamilyOf]
    exact hfam ▸ keyInCfFamily_cfFamilyOf (hkey ▸ hs)

/-- **All keys between the bounds of a tagged file belong to its family exactly if** both names
are text and a file of `default` ends before the next family begins. -/
theorem inferred_family_holds (hle : smallest ≤ largest)
    (htag : inferSstCf lossy (some smallest) (some largest) ≠ []) :
    (∀ key, smallest ≤ key → key ≤ largest →
        keyInCfFamily key (inferSstCf lossy (some smallest) (some largest)) = true) ↔
      bindsFamily smallest largest = true := by
  refine ⟨fun h => ?_, fun hok _ => keyInCfFamily_bound hok htag⟩
  have hsmallest := h smallest (List.le_refl _) hle
  have hlargest := h largest hle (List.le_refl _)
  obtain ⟨hsame, hinfer⟩ := inferSstCf_tag htag
  rw [hinfer] at h hsmallest hlargest
  simp only [bindsFamily, Bool.and_eq_true, Bool.or_eq_true, Bool.not_eq_true', decide_eq_true_eq]
  refine ⟨⟨utf8_cfPrefix hsmallest, utf8_cfPrefix (hsame ▸ hlargest)⟩, ?_⟩
  by_contra! hlast
  have hin : keyInCfFamily smallest defaultFamily = true := by simpa using hlast.1
  -- the first key of another family is then one of those between the bounds
  obtain ⟨hfrom, hforeign⟩ := firstForeign_spec hin
  have htag : cfFamilyOf lossy smallest = defaultFamily := by
    rw [cfFamilyOf_text (utf8_cfPrefix hsmallest)]
    rcases cfPrefix_of_default hin with hpre | hpre
    · rw [if_pos hpre]
    · rw [hpre, if_neg (by decide)]
  have hbetween := h _ hfrom (Std.not_lt.mp hlast.2)
  rw [htag, hforeign] at hbetween
  cases hbetween

end Exact

/-- A file of two keys of `lock`. -/
theorem inferred_family_holds_lock :
    inferSstCf .replacement (some [108, 111, 99, 107, 0, 1]) (some [108, 111, 99, 107, 0, 9]) =
        [108, 111, 99, 107] ∧
      keyInCfFamily [108, 111, 99, 107, 0, 5] (inferSstCf .replacement
        (some [108, 111, 99, 107, 0, 1]) (some [108, 111, 99, 107, 0, 9])) = true :=
  ⟨by decide +kernel,
    (inferred_family_holds (by decide) (by decide +kernel)).mpr (by decide +kernel) _ (by decide)
      (by decide)⟩

/-- The raw keys `a` and `z` have the keys of `lock` between them. -/
theorem default_spans_lock : inferSstCf .replacement (some [97]) (some [122]) = defaultFamily ∧
      ([97] : Key) ≤ [108, 111, 99, 107, 0, 120] ∧ ([108, 111, 99, 107, 0, 120] : Key) ≤ [122] ∧
      keyInCfFamily [108, 111, 99, 107, 0, 120] defaultFamily = false :=
  ⟨rfl, by decide, by decide, rfl⟩

end PedraDb.Families
