import PedraDb.Bulk

/-! Files: what a flush writes, and how a file is asked.

A file knows its smallest and its largest key. The writer counts the ends of range deletions
among them; a file that is opened from disk takes the largest key from its last entry. A file
answers for a key with its newest point and passes over range deletions.

The name of a key's family stands before the key's first zero. It is used as text, and bytes
that are no text are replaced on the way (`Lossy`). Once families are registered a flush
writes a file for each family its memtable has keys of, and a file takes the keys that belong
to its family. The two do not always agree: a name whose one slash is its last byte counts as
`default`, which does not own its keys. What no file takes is lost (`mem_flushFiles`). -/
namespace PedraDb
open List
variable {t : Table} {key : Key} {v : WriteOp}

/-! ### Bounds -/

/-- A file. One that was opened from disk takes its largest key from its last entry. -/
structure SstFile where
  entries : Table
  reopened : Bool
  deriving DecidableEq

def smallestUserKey (t : Table) : Option Key := (sortInternal t).head?.map WriteOp.key

/-- The last key, or the end of a range deletion if that is larger. -/
def largestUserKey (t : Table) : Option Key :=
  t.foldl (fun largest v =>
      if v.kind == .rangeDeletion && largest.all fun hi => decide (hi < v.value) then some v.value
      else largest)
    ((sortInternal t).getLast?.map WriteOp.key)

/-- The largest key as it is found on opening: each entry sets it anew. -/
def openedLargestUserKey (t : Table) : Option Key :=
  (sortInternal t).getLast?.map fun v =>
    if v.kind = .rangeDeletion ∧ v.key < v.value then v.value else v.key

def SstFile.largest (f : SstFile) : Option Key :=
  if f.reopened then openedLargestUserKey f.entries else largestUserKey f.entries

/-- Whether the bounds of a file meet `[start, stop)`. -/
def SstFile.overlapsUserRange (f : SstFile) (start stop : Key) : Bool :=
  match smallestUserKey f.entries, f.largest with
  | some lo, some hi => decide (lo < stop) && decide (start ≤ hi)
  | _, _ => true

theorem insertInternal_keys {w : WriteOp} (h : t.Pairwise fun a b => a.key ≤ b.key) :
    (insertInternal w t).Pairwise fun a b => a.key ≤ b.key := by
  induction t with
  | nil => exact pairwise_singleton _ _
  | cons u t ih =>
    obtain ⟨hu, ht⟩ := pairwise_cons.mp h
    rw [insertInternal]
    split
    · rename_i hbefore
      refine pairwise_cons.mpr ⟨fun x hx => ?_, ih ht⟩
      rcases mem_insertInternal.mp hx with rfl | hx
      · simp only [Bool.or_eq_true, decide_eq_true_eq, Bool.and_eq_true, beq_iff_eq] at hbefore
        rcases hbefore with hlt | ⟨heq, _⟩
        · exact List.le_of_lt hlt
        · exact heq ▸ List.le_refl _
      · exact hu x hx
    · rename_i hafter
      have hle : w.key ≤ u.key := by
        refine List.not_lt.mp fun hlt => hafter ?_
        simp [hlt]
      refine pairwise_cons.mpr ⟨fun x hx => ?_, h⟩
      rcases mem_cons.mp hx with rfl | hx
      · exact hle
      · exact List.le_trans hle (hu x hx)

theorem sortInternal_keys (t : Table) : (sortInternal t).Pairwise fun a b => a.key ≤ b.key := by
  induction t with
  | nil => exact .nil
  | cons v t ih => exact insertInternal_keys ih

theorem smallestUserKey_le (hv : v ∈ t) : ∃ lo, smallestUserKey t = some lo ∧ lo ≤ v.key := by
  have hsorted := sortInternal_keys t
  have hmem := mem_sortInternal.mpr hv
  rw [smallestUserKey]
  cases hs : sortInternal t with
  | nil => simp [hs] at hmem
  | cons a rest =>
    rw [hs] at hsorted hmem
    refine ⟨a.key, rfl, ?_⟩
    rcases mem_cons.mp hmem with rfl | hmem
    · exact List.le_refl _
    · exact (pairwise_cons.mp hsorted).1 v hmem

theorem getLast_sortInternal (hv : v ∈ t) :
    ∃ last, (sortInternal t).getLast? = some last ∧ v.key ≤ last.key := by
  have hsorted := sortInternal_keys t
  have hmem := mem_sortInternal.mpr hv
  rcases eq_nil_or_concat (sortInternal t) with hnil | ⟨front, last, hconcat⟩
  · simp [hnil] at hmem
  · rw [hconcat, concat_eq_append] at hsorted hmem ⊢
    refine ⟨last, by simp, ?_⟩
    rcases mem_append.mp hmem with hmem | hmem
    · exact (pairwise_append.mp hsorted).2.2 v hmem last (by simp)
    · exact mem_singleton.mp hmem ▸ List.le_refl _

theorem le_largestUserKey (hv : v ∈ t) : ∃ hi, largestUserKey t = some hi ∧ v.key ≤ hi := by
  obtain ⟨last, hlast, hle⟩ := getLast_sortInternal hv
  rw [largestUserKey, hlast, Option.map_some]
  -- each step of the fold keeps the largest key or replaces it by a larger end
  have hfold : ∀ (ops : Table) (hi : Key), v.key ≤ hi → ∃ hi', ops.foldl (fun largest v =>
      if v.kind == .rangeDeletion && largest.all fun hi => decide (hi < v.value) then some v.value
      else largest) (some hi) = some hi' ∧ v.key ≤ hi' := by
    intro ops
    induction ops with
    | nil => exact fun hi hhi => ⟨hi, rfl, hhi⟩
    | cons u ops ih =>
      intro hi hhi
      rw [foldl_cons]
      split
      · rename_i hu
        refine ih u.value (List.le_trans hhi (List.le_of_lt ?_))
        simpa using (Bool.and_eq_true_iff.mp hu).2
      · exact ih hi hhi
  exact hfold t last.key hle

/-- A file meets every range that one of its keys lies in. -/
theorem SstFile.overlaps_of_mem {f : SstFile} {start stop : Key} (hv : v ∈ f.entries)
    (hstart : start ≤ v.key) (hstop : v.key < stop) : f.overlapsUserRange start stop = true := by
  obtain ⟨lo, hlo, hle⟩ := smallestUserKey_le hv
  obtain ⟨hi, hhi, hge⟩ : ∃ hi, f.largest = some hi ∧ v.key ≤ hi := by
    rw [SstFile.largest]
    split
    · obtain ⟨last, hlast, hle⟩ := getLast_sortInternal hv
      rw [openedLargestUserKey, hlast]
      refine ⟨_, rfl, List.le_trans hle ?_⟩
      show last.key ≤ if last.kind = .rangeDeletion ∧ last.key < last.value then _ else _
      split
      · rename_i hend
        exact List.le_of_lt hend.2
      · exact List.le_refl _
    · exact le_largestUserKey hv
  rw [overlapsUserRange, hlo, hhi]
  simp [List.lt_of_le_of_lt hle hstop, List.le_trans hstart hge]

/-! ### Probes -/

/-- The newest point version of a file. -/
def pointAt (t : Table) (key : Key) (snap : Nat) : Option (Nat × Lookup) :=
  (newestVersion key snap (t.filter fun v => v.kind != .rangeDeletion)).map fun v =>
    (v.sequence, if v.kind = .value then .found v.value else .deleted)

/-- Whether some range deletion over the key came after `snap`. -/
def tombstoneAfter (t : Table) (key : Key) (snap : Nat) : Bool :=
  (collectRangeTombstones maxSequenceNumber t).any fun v =>
    decide (snap < v.sequence) && writeOpCoversKey .rangeDeletion v.key v.value key

/-- Whether a memtable holds a write of `key` after `snap`: its newest entry, if that is a
point, or a range deletion over the key. -/
def tableHasWriteAfter (t : Table) (key : Key) (snap : Nat) : Bool :=
  ((getEntry t key maxSequenceNumber).any fun p => decide (snap < p.1)) || tombstoneAfter t key snap

/-- The same of a file, which is asked for its newest point. -/
def fileHasWriteAfter (t : Table) (key : Key) (snap : Nat) : Bool :=
  ((pointAt t key maxSequenceNumber).any fun p => decide (snap < p.1)) || tombstoneAfter t key snap

/-- Whether some range deletion after `snap` meets `[start, stop)`, as far as its ends go. -/
def tombstoneMeets (t : Table) (start stop : Key) (snap : Nat) : Bool :=
  (collectRangeTombstones maxSequenceNumber t).any fun v =>
    decide (snap < v.sequence) && decide (v.key < stop) && decide (start < v.value)

/-- Whether a memtable holds a write of a key of `[start, stop)` after `snap`. -/
def tableRangeHasWriteAfter (t : Table) (start stop : Key) (snap : Nat) : Bool :=
  tombstoneMeets t start stop snap ||
    t.any fun v => decide (start ≤ v.key) && decide (v.key < stop) && decide (snap < v.sequence)

/-- The points of `[start, stop)` and all range deletions. -/
def entriesInUserRange (t : Table) (start stop : Key) : Table :=
  t.filter fun v => v.kind == .rangeDeletion || decide (start ≤ v.key) && decide (v.key < stop)

/-- The same of a file, which is pruned by its bounds and its largest sequence first. -/
def SstFile.rangeHasWriteAfter (f : SstFile) (start stop : Key) (snap : Nat) : Bool :=
  tombstoneMeets f.entries start stop snap ||
    f.overlapsUserRange start stop && (f.entries.any fun v => decide (snap < v.sequence)) &&
      (entriesInUserRange f.entries start stop).any fun v => decide (snap < v.sequence)

/-! ### Names -/

/-- The bytes are the encoding of some text. -/
def utf8 (bytes : List UInt8) : Bool := bytes.toByteArray.validateUTF8

@[simp] theorem utf8_nil : utf8 [] = true := by decide +kernel

/-- Bytes as text: text stays as it is, and of anything else some of it is replaced. -/
structure Lossy where
  text : Key → Key
  valid : ∀ name, utf8 (text name) = true
  same : ∀ name, utf8 name = true → text name = name
  clean : ∀ name, 0 ∉ name → 0 ∉ text name
  nonempty : ∀ name, name ≠ [] → text name ≠ []

/-- Anything that is no text becomes one replacement character. -/
def Lossy.replacement : Lossy where
  text name := if utf8 name then name else [239, 191, 189]
  valid name := by
    split
    · assumption
    · decide +kernel
  same _ h := if_pos h
  clean name h := by
    split
    · exact h
    · decide
  nonempty name h := by
    split
    · exact h
    · simp

def slash : UInt8 := 0x2f

def insertFamily (family : Key) : List Key → List Key
  | [] => [family]
  | f :: rest =>
    if f < family then f :: insertFamily family rest
    else if f = family then f :: rest else family :: f :: rest

section Names
variable (lossy : Lossy)

def cfFamilyOf (key : Key) : Key :=
  if cfPrefix key = [] then defaultFamily else lossy.text (cfPrefix key)

/-- The family a memtable counts a name under. A name with one slash, at its end, is taken
for a shard of `default`. -/
def familyFromPrefix (name : Key) : Key :=
  if name = [] then defaultFamily
  else if name.count slash = 1 ∧ name.getLast? = some slash then defaultFamily
  else lossy.text name

/-- The families of a memtable in order. The index of the newest entries also has prefixes of
raw keys, up to their one slash; these count as `default`, as the raw keys themselves do. -/
def cfFamilies (t : Table) : List Key :=
  (t.map fun v => familyFromPrefix lossy (cfPrefix v.key)).foldr insertFamily []

/-- The family of a file by its bounds; none if they are of two. -/
def inferSstCf (smallest largest : Option Key) : Key :=
  match smallest, largest with
  | some s, some l => if cfFamilyOf lossy s = cfFamilyOf lossy l then cfFamilyOf lossy s else []
  | some s, none | none, some s => cfFamilyOf lossy s
  | none, none => []

/-- A file for each family; a family that takes no key gets none. -/
def familyFiles (t : Table) : List (Key × Table) :=
  ((cfFamilies lossy t).map fun f => (f, t.filter fun v => keyInCfFamily v.key f)).filter
    fun f => !f.2.isEmpty

/-- The files of a flushed memtable with their families. Families are told apart once some
are registered and the memtable has more than one. -/
def flushFiles (physicalCfs : List Key) (t : Table) : List (Key × Table) :=
  if physicalCfs = [] || decide ((cfFamilies lossy t).length ≤ 1) || (familyFiles lossy t).isEmpty
  then [(inferSstCf lossy (smallestUserKey t) (largestUserKey t), t)]
  else familyFiles lossy t

/-- Some family of the memtable takes the key. -/
def taken (t : Table) (key : Key) : Bool := (cfFamilies lossy t).any (keyInCfFamily key)

/-- The files of a flush take every key: there is one for all, or each key has its own. -/
def flushTakesAll (physicalCfs : List Key) (t : Table) : Bool :=
  physicalCfs = [] || decide ((cfFamilies lossy t).length ≤ 1) ||
    (t.all fun v => taken lossy t v.key) || t.all fun v => !taken lossy t v.key

end Names

/-! ### A set of names in order -/

theorem mem_insertFamily {f g : Key} {l : List Key} : g ∈ insertFamily f l ↔ g = f ∨ g ∈ l := by
  induction l with
  | nil => simp [insertFamily]
  | cons h l ih =>
    rw [insertFamily]
    split
    · rw [mem_cons, ih, mem_cons]
      tauto
    · split
      · rename_i heq
        rw [heq, mem_cons]
        tauto
      · rw [mem_cons]

theorem mem_families {l : List Key} {f : Key} : f ∈ l.foldr insertFamily [] ↔ f ∈ l := by
  induction l with
  | nil => simp
  | cons g l ih => rw [foldr_cons, mem_insertFamily, ih, mem_cons]

theorem insertFamily_sorted {f : Key} {l : List Key} (h : l.Pairwise (· < ·)) :
    (insertFamily f l).Pairwise (· < ·) := by
  induction l with
  | nil => simp [insertFamily]
  | cons g l ih =>
    obtain ⟨hg, hl⟩ := pairwise_cons.mp h
    rw [insertFamily]
    split
    · rename_i hlt
      refine pairwise_cons.mpr ⟨fun x hx => ?_, ih hl⟩
      rcases mem_insertFamily.mp hx with rfl | hx
      · exact hlt
      · exact hg x hx
    · rename_i hnot
      split
      · exact h
      · rename_i hne
        have hlt : f < g := Std.lt_of_le_of_ne (List.not_lt.mp hnot) (Ne.symm hne)
        refine pairwise_cons.mpr ⟨fun x hx => ?_, h⟩
        rcases mem_cons.mp hx with rfl | hx
        · exact hlt
        · exact List.lt_trans hlt (hg x hx)

theorem families_sorted (l : List Key) : (l.foldr insertFamily []).Pairwise (· < ·) := by
  induction l with
  | nil => exact .nil
  | cons f l ih => exact insertFamily_sorted ih

/-! ### The family of a key -/

/-- A name in front of a key ends in a zero. -/
theorem contains_of_cfPrefix (h : cfPrefix key ≠ []) : key.contains 0 = true := by
  by_contra hnone
  exact h (if_neg hnone)

theorem cfPrefix_append (hzero : key.contains 0 = true) :
    ∃ rest, cfPrefix key ++ 0 :: rest = key := by
  rw [cfPrefix, if_pos hzero]
  induction key with
  | nil => cases hzero
  | cons b key ih =>
    by_cases hb : b = 0
    · exact ⟨key, by simp [hb]⟩
    · obtain ⟨rest, hrest⟩ := ih (by simpa [hb, Ne.symm hb] using hzero)
      exact ⟨rest, by simp [hb, hrest]⟩

theorem zero_notMem_takeWhile (key : Key) : 0 ∉ key.takeWhile (· != 0) := fun h => by
  simpa using all_eq_true.mp all_takeWhile 0 h

theorem zero_notMem_cfPrefix (key : Key) : 0 ∉ cfPrefix key := by
  rw [cfPrefix]
  split
  · exact zero_notMem_takeWhile key
  · exact not_mem_nil

theorem cfPrefix_zero {name : Key} (hclean : 0 ∉ name) (rest : Key) :
    cfPrefix (name ++ 0 :: rest) = name := by
  rw [cfPrefix, if_pos (by simp), takeWhile_append_of_pos]
  · simp
  · intro b hb
    simpa using ne_of_mem_of_not_mem hb hclean

/-- A key that belongs to a named family has the family's name in front of it. -/
theorem cfPrefix_of_keyInCfFamily {family : Key} (hclean : 0 ∉ family)
    (hnamed : family ≠ defaultFamily) (h : keyInCfFamily key family = true) :
    cfPrefix key = family := by
  rw [keyInCfFamily, if_neg hnamed, Bool.and_eq_true, beq_iff_eq] at h
  obtain ⟨rest, rfl⟩ := isPrefixOf_iff_prefix.mp h.1
  have hzero := h.2
  rw [drop_left] at hzero
  obtain ⟨tail, rfl⟩ : ∃ tail, rest = 0 :: tail := by
    cases rest with
    | nil => cases hzero
    | cons b tail => exact ⟨tail, by simpa using hzero⟩
  exact cfPrefix_zero hclean tail

theorem cfPrefix_of_default (h : keyInCfFamily key defaultFamily = true) :
    cfPrefix key = [] ∨ cfPrefix key = defaultFamily := by
  rw [keyInCfFamily, if_pos rfl] at h
  split at h
  · simpa using h
  · rename_i hzero
    exact .inl (if_neg hzero)

theorem utf8_default : utf8 defaultFamily = true := by decide +kernel

section Family
variable {lossy : Lossy}

theorem cfFamilyOf_text (h : utf8 (cfPrefix key) = true) :
    cfFamilyOf lossy key = if cfPrefix key = [] then defaultFamily else cfPrefix key := by
  rw [cfFamilyOf, lossy.same _ h]

theorem cfFamilyOf_ne (key : Key) : cfFamilyOf lossy key ≠ [] := by
  rw [cfFamilyOf]
  split
  · decide
  · exact lossy.nonempty _ (by assumption)

theorem keyInCfFamily_cfFamilyOf (h : utf8 (cfPrefix key) = true) :
    keyInCfFamily key (cfFamilyOf lossy key) = true := by
  rw [cfFamilyOf_text h]
  by_cases hpre : cfPrefix key = []
  · rw [if_pos hpre, keyInCfFamily, if_pos rfl]
    split
    · simp [hpre]
    · rfl
  · obtain ⟨rest, hrest⟩ := cfPrefix_append (contains_of_cfPrefix hpre)
    rw [if_neg hpre, keyInCfFamily]
    split
    · rename_i hdef
      simp [hdef]
    have hdrop : key.drop (cfPrefix key).length = 0 :: rest := by
      have h := congrArg (List.drop (cfPrefix key).length) hrest
      rw [drop_left] at h
      exact h.symm
    have hprefix : (cfPrefix key).isPrefixOf key = true := isPrefixOf_iff_prefix.mpr ⟨_, hrest⟩
    simp [hdrop, hprefix]

/-- The name of a family is text without a zero, and it is not empty. -/
theorem familyFromPrefix_spec (key : Key) : 0 ∉ familyFromPrefix lossy (cfPrefix key) ∧
    utf8 (familyFromPrefix lossy (cfPrefix key)) = true ∧
      familyFromPrefix lossy (cfPrefix key) ≠ [] := by
  have hdefault : 0 ∉ defaultFamily ∧ utf8 defaultFamily = true ∧ defaultFamily ≠ [] :=
    ⟨by decide, utf8_default, by decide⟩
  rw [familyFromPrefix]
  split
  · exact hdefault
  · split
    · exact hdefault
    · exact ⟨lossy.clean _ (zero_notMem_cfPrefix key), lossy.valid _,
        lossy.nonempty _ (by assumption)⟩

theorem mem_cfFamilies {f : Key} :
    f ∈ cfFamilies lossy t ↔ ∃ v ∈ t, familyFromPrefix lossy (cfPrefix v.key) = f := by
  rw [cfFamilies, mem_families, mem_map]

/-- The keys a family of the memtable takes are of that family. -/
theorem cfFamilyOf_of_keyInCfFamily {f : Key} (hf : f ∈ cfFamilies lossy t)
    (h : keyInCfFamily key f = true) : cfFamilyOf lossy key = f := by
  obtain ⟨w, _, rfl⟩ := mem_cfFamilies.mp hf
  obtain ⟨hclean, htext, hne⟩ := @familyFromPrefix_spec lossy w.key
  generalize familyFromPrefix lossy (cfPrefix w.key) = f at hclean htext hne h
  by_cases hdef : f = defaultFamily
  · subst hdef
    rcases cfPrefix_of_default h with hpre | hpre
    · rw [cfFamilyOf, if_pos hpre]
    · rw [cfFamilyOf, hpre, if_neg hne, lossy.same _ utf8_default]
  · have hpre := cfPrefix_of_keyInCfFamily hclean hdef h
    rw [cfFamilyOf, hpre, if_neg hne, lossy.same _ htext]

/-! ### The files of a flush -/

variable {physicalCfs : List Key} {f : Key × Table}

/-- A file of a flush has the whole memtable, or what its family takes of it. -/
theorem flushFiles_cases (hf : f ∈ flushFiles lossy physicalCfs t) :
    f = (inferSstCf lossy (smallestUserKey t) (largestUserKey t), t) ∨
      f.1 ∈ cfFamilies lossy t ∧ f.2 = t.filter fun v => keyInCfFamily v.key f.1 := by
  rw [flushFiles] at hf
  split at hf
  · exact .inl (mem_singleton.mp hf)
  · obtain ⟨g, hg, rfl⟩ := mem_map.mp (mem_filter.mp hf).1
    exact .inr ⟨hg, rfl⟩

theorem flushFiles_subset (hf : f ∈ flushFiles lossy physicalCfs t) (hv : v ∈ f.2) : v ∈ t := by
  rcases flushFiles_cases hf with rfl | ⟨_, hfilter⟩
  · exact hv
  · exact (mem_filter.mp (hfilter ▸ hv)).1

theorem mem_familyFiles :
    (∃ f ∈ familyFiles lossy t, v ∈ f.2) ↔ v ∈ t ∧ taken lossy t v.key = true := by
  simp only [familyFiles, taken, any_eq_true]
  constructor
  · intro ⟨f, hf, hv⟩
    obtain ⟨g, hg, rfl⟩ := mem_map.mp (mem_filter.mp hf).1
    obtain ⟨hv, hin⟩ := mem_filter.mp hv
    exact ⟨hv, g, hg, hin⟩
  · intro ⟨hv, g, hg, hin⟩
    have hmem : v ∈ t.filter fun v => keyInCfFamily v.key g := mem_filter.mpr ⟨hv, hin⟩
    refine ⟨_, mem_filter.mpr ⟨mem_map_of_mem hg, ?_⟩, hmem⟩
    simpa using ne_nil_of_mem hmem

/-- **The files of a flush hold the memtable exactly if they take every key.** -/
theorem mem_flushFiles : (∀ v, v ∈ (flushFiles lossy physicalCfs t).flatMap Prod.snd ↔ v ∈ t) ↔
    flushTakesAll lossy physicalCfs t = true := by
  have hnone : (familyFiles lossy t).isEmpty = true ↔ ∀ v ∈ t, taken lossy t v.key = false := by
    rw [List.isEmpty_iff]
    constructor
    · intro hnil v hv
      by_contra htaken
      obtain ⟨f, hf, _⟩ := mem_familyFiles.mpr ⟨hv, by simpa using htaken⟩
      simp [hnil] at hf
    · intro hno
      refine eq_nil_iff_forall_not_mem.mpr fun f hf => ?_
      obtain ⟨v, hv⟩ := exists_mem_of_ne_nil f.2 (by simpa using (mem_filter.mp hf).2)
      obtain ⟨hv, htaken⟩ := mem_familyFiles.mp ⟨f, hf, hv⟩
      rw [hno v hv] at htaken
      cases htaken
  rw [flushFiles, flushTakesAll]
  by_cases hone : (physicalCfs = [] || decide ((cfFamilies lossy t).length ≤ 1)) = true
  · simp [hone]
  by_cases hempty : (familyFiles lossy t).isEmpty = true
  · simpa [hempty] using Or.inr (hnone.mp hempty)
  -- more than one family, and some key is taken
  rw [if_neg (by simp [hone, hempty])]
  simp only [hone, Bool.false_or, Bool.or_eq_true, all_eq_true, Bool.not_eq_true', mem_flatMap,
    mem_familyFiles]
  rw [or_iff_left fun hno => hempty (hnone.mpr hno)]
  exact ⟨fun h v hv => ((h v).mpr hv).2, fun h v => ⟨And.left, fun hv => ⟨hv, h v hv⟩⟩⟩

end Family

end PedraDb
