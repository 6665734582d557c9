import PedraDb.Library.Cursor
import PedraDb.Sst.Format

/-! The index of a table's blocks, searched through eight-byte windows.

The first keys of the blocks share a prefix. Each handle keeps the eight bytes of its key
behind that prefix as a number, and a search for a key compares numbers before it compares
keys. A window decides the order of two keys that share the prefix (`lt_of_p8Window_lt`).
The key that is searched need not share it; then it is above every first key, as long as it
is not below the first of them (`take_eq_or_lt`). -/
namespace PedraDb.Sst
open List

/-- The first `n` bytes of a key as a big-endian number, with zeros past its end. -/
def beWindow : Nat → Key → Nat
  | 0, _ | _ + 1, [] => 0
  | n + 1, b :: rest => b.toNat * 256 ^ n + beWindow n rest

def p8Window (key : Key) (cp : Nat) : Nat := beWindow 8 (key.drop cp)

/-- A handle with the window of its key. -/
structure Handle extends BlockHandle where
  p8 : Nat
  deriving DecidableEq

def commonBytes (a b : Key) : Nat := ((a.zip b).takeWhile fun (x, y) => x == y).length

/-- The bytes that all first keys share. An index of fewer than two blocks has no neighbours. -/
def keyCp (index : List BlockHandle) : Nat :=
  ((index.zip index.tail).map fun (a, b) => commonBytes a.firstUserKey b.firstUserKey).min?.getD 0

def deriveIndexAccel (index : List BlockHandle) : List Handle :=
  index.map fun h => ⟨h, p8Window h.firstUserKey (keyCp index)⟩

/-- What the search of an index asks of a handle. -/
def before (cp : Nat) (key : Key) (h : Handle) : Bool :=
  decide (h.p8 < p8Window key cp) || h.p8 == p8Window key cp && decide (h.firstUserKey < key)

/-- The blocks to look into, as the first of them and the one past the last. The source finds
the first handle that is not `before` the key by bisection. -/
def blocksForPoint (cp : Nat) (index : List Handle) (key : Key) : Nat × Nat :=
  if index.isEmpty then (0, 0)
  else
    let ge := (index.takeWhile (before cp key)).length
    (ge - 1, ge + ((index.drop ge).takeWhile fun h => decide (h.firstUserKey ≤ key)).length)

section Windows
variable {a b f key : Key} {n : Nat}

theorem beWindow_lt (n : Nat) (a : Key) : beWindow n a < 256 ^ n := by
  fun_induction beWindow n a with
  | case1 | case2 => exact Nat.pow_pos (by decide)
  | case3 n b rest ih =>
    have hb : (b.toNat + 1) * 256 ^ n ≤ 256 * 256 ^ n := Nat.mul_le_mul_right _ b.toNat_lt
    rw [Nat.succ_mul] at hb
    rw [Nat.pow_succ]
    omega

/-- Padding with zeros keeps the order: no byte is below them. -/
theorem lt_of_beWindow_lt (h : beWindow n a < beWindow n b) : a < b := by
  induction n generalizing a b with
  | zero => simp [beWindow] at h
  | succ n ih =>
    cases b with
    | nil => simp [beWindow] at h
    | cons y b =>
      cases a with
      | nil => exact List.nil_lt_cons _ _
      | cons x a =>
        simp only [beWindow] at h
        rw [List.cons_lt_cons_iff]
        rcases Nat.lt_trichotomy x.toNat y.toNat with hlt | heq | hgt
        · exact .inl hlt
        · rw [heq] at h
          exact .inr ⟨UInt8.toNat_inj.mp heq, ih (Nat.add_lt_add_iff_left.mp h)⟩
        · have hb := beWindow_lt n b
          have hxy : (y.toNat + 1) * 256 ^ n ≤ x.toNat * 256 ^ n := Nat.mul_le_mul_right _ hgt
          rw [Nat.succ_mul] at hxy
          omega

/-- Of keys with one prefix, the one with the smaller window is the smaller. -/
theorem lt_of_p8Window_lt (hshared : a.take n = b.take n) (h : p8Window a n < p8Window b n) : a < b := by
  rw [← take_append_drop n a, ← take_append_drop n b, hshared]
  exact List.append_left_lt (lt_of_beWindow_lt h)

theorem take_eq_of_le_commonBytes (h : n ≤ commonBytes a b) : a.take n = b.take n := by
  induction n generalizing a b with
  | zero => simp
  | succ n ih =>
    cases a with
    | nil => simp [commonBytes] at h
    | cons x a =>
      cases b with
      | nil => simp [commonBytes] at h
      | cons y b =>
        by_cases hxy : x = y
        · simp only [commonBytes, zip_cons_cons, takeWhile_cons, hxy, beq_self_eq_true, if_true,
            length_cons] at h
          rw [take_succ_cons, take_succ_cons, hxy, ih (Nat.le_of_succ_le_succ h)]
        · simp [commonBytes, hxy] at h

/-- A key that is not below one of the keys with a prefix has the prefix too, or is above
them all. -/
theorem take_eq_or_lt (hshared : a.take n = f.take n) (hle : f ≤ key) :
    a.take n = key.take n ∨ a < key := by
  induction n generalizing a f key with
  | zero => exact .inl (by simp)
  | succ n ih =>
    cases key with
    | nil => exact .inl (by rw [hshared, List.le_nil.mp hle])
    | cons y key =>
      cases a with
      | nil => exact .inr (List.nil_lt_cons _ _)
      | cons x a =>
        cases f with
        | nil => cases hshared
        | cons z f =>
          obtain ⟨rfl, hrest⟩ := cons.inj hshared
          rcases List.cons_le_cons_iff.mp hle with hlt | ⟨rfl, hle'⟩
          · exact .inr (List.cons_lt_cons_iff.mpr (.inl hlt))
          · refine (ih hrest hle').imp (fun h => ?_) fun h => List.cons_lt_cons_iff.mpr (.inr ⟨rfl, h⟩)
            rw [take_succ_cons, take_succ_cons, h]

end Windows

section Search
variable {index : List BlockHandle} {key : Key}

/-- All first keys share the bytes in front of the windows. -/
theorem keyCp_shared (index : List BlockHandle) :
    index.Pairwise fun a b => a.firstUserKey.take (keyCp index) = b.firstUserKey.take (keyCp index) := by
  have htrans : IsTrans BlockHandle fun a b =>
      a.firstUserKey.take (keyCp index) = b.firstUserKey.take (keyCp index) := ⟨fun _ _ _ => Eq.trans⟩
  refine isChain_iff_pairwise.mp (Cursor.isChain_of_zip_tail fun w hw => take_eq_of_le_commonBytes ?_)
  have hmem := mem_map_of_mem (f := fun (a, b) => commonBytes a.firstUserKey b.firstUserKey) hw
  obtain ⟨m, hm⟩ := Option.isSome_iff_exists.mp (isSome_min?_of_mem hmem)
  rw [keyCp, hm]
  exact (le_min?_iff hm).mp (Nat.le_refl m) _ hmem

theorem deriveIndexAccel_ordered (hsorted : index.Pairwise fun a b => a.firstUserKey ≤ b.firstUserKey) :
    (deriveIndexAccel index).Pairwise fun a b => a.firstUserKey ≤ b.firstUserKey ∧ a.p8 ≤ b.p8 := by
  refine pairwise_map.mpr ((hsorted.and (keyCp_shared index)).imp fun ⟨hle, hshared⟩ => ⟨hle, ?_⟩)
  exact Nat.not_lt.mp fun hlt => hle (lt_of_p8Window_lt hshared.symm hlt)

/-- The search's question is answered with yes up to some handle, so that bisection finds it. -/
theorem before_down {cp : Nat} {a b : Handle} (h : a.firstUserKey ≤ b.firstUserKey ∧ a.p8 ≤ b.p8)
    (hb : before cp key b = true) : before cp key a = true := by
  simp only [before, Bool.or_eq_true, Bool.and_eq_true, decide_eq_true_eq, beq_iff_eq] at hb ⊢
  rcases hb with hlt | ⟨heq, hlt⟩
  · exact .inl (Nat.lt_of_le_of_lt h.2 hlt)
  · rcases Nat.lt_or_eq_of_le h.2 with hp8 | hp8
    · exact .inl (heq ▸ hp8)
    · exact .inr ⟨hp8.trans heq, List.lt_of_le_of_lt h.1 hlt⟩

/-- A handle with a smaller window has a smaller key, also where the key that is searched has
not the common prefix. -/
theorem lt_of_before {f : BlockHandle} {h : Handle} (hfirst : index.head? = some f)
    (hle : f.firstUserKey ≤ key)
    (hh : h ∈ deriveIndexAccel index) (hbefore : before (keyCp index) key h = true) :
    h.firstUserKey < key := by
  simp only [before, Bool.or_eq_true, Bool.and_eq_true, decide_eq_true_eq] at hbefore
  rcases hbefore with hlt | ⟨-, hlt⟩
  · obtain ⟨g, hg, rfl⟩ := mem_map.mp hh
    have hshared : g.firstUserKey.take (keyCp index) = f.firstUserKey.take (keyCp index) := by
      obtain ⟨rest, rfl⟩ := head?_eq_some_iff.mp hfirst
      rcases mem_cons.mp hg with rfl | hg
      · rfl
      · exact ((pairwise_cons.mp (keyCp_shared _)).1 g hg).symm
    exact (take_eq_or_lt hshared hle).elim (fun heq => lt_of_p8Window_lt heq hlt) id
  · exact hlt

/-- The range ends behind every handle up to the key, and starts at most one before the first
handle that the search passes. -/
theorem blocksForPoint_covers {cp i : Nat} {index : List Handle} {h : Handle}
    (hsorted : index.Pairwise fun a b => a.firstUserKey ≤ b.firstUserKey)
    (hlt : ∀ x ∈ index, before cp key x = true → x.firstUserKey < key) (hi : index[i]? = some h)
    (hle : h.firstUserKey ≤ key)
    (hnext : ∀ next, index[i + 1]? = some next → key ≤ next.firstUserKey) :
    (blocksForPoint cp index key).1 ≤ i ∧ i < (blocksForPoint cp index key).2 := by
  rw [blocksForPoint, if_neg (by simpa using ne_nil_of_mem (mem_of_getElem? hi))]
  refine ⟨Nat.not_lt.mp fun hlow => ?_, Nat.not_le.mp fun hhigh => ?_⟩
  · have hlow : i + 1 < (index.takeWhile (before cp key)).length := Nat.add_lt_of_lt_sub hlow
    have hmem := getElem_mem hlow
    have hget := prefix_iff_getElem?.mp ( takeWhile_prefix (before cp key)) (i + 1) hlow
    exact hnext _ hget (hlt _ ((takeWhile_subset _) hmem) (all_eq_true.mp all_takeWhile _ hmem))
  · generalize (index.takeWhile (before cp key)).length = ge at hhigh
    have hdrop : (index.drop ge)[i - ge]? = some h := by
      rw [getElem?_drop, Nat.add_sub_cancel' (Nat.le_of_add_right_le hhigh), hi]
    rw [← takeWhile_append_dropWhile (p := fun h => decide (h.firstUserKey ≤ key)) (l := index.drop ge),
      getElem?_append_right (Nat.le_sub_of_add_le' hhigh)] at hdrop
    have hpast := mem_of_getElem? hdrop
    rw [Cursor.dropWhile_eq_filter (hsorted.sublist (drop_sublist _ _)) fun a b hab hb =>
      decide_eq_true (List.le_trans hab (of_decide_eq_true hb))] at hpast
    simp [hle] at hpast

end Search

/-- In an index in the order of its keys, which may repeat, the search for a key that is not
below the first one finds every block whose interval can hold it: blocks that begin with the
key, and the last one that begins below. Bisection is sound: no handle after one that is not
before the key is before it. -/
theorem blocks_for_point_covers (index : List BlockHandle) (key : Key)
    (hsorted : index.Pairwise fun a b => a.firstUserKey ≤ b.firstUserKey)
    (hfirst : ∀ f, index.head? = some f → f.firstUserKey ≤ key) :
    let handles := deriveIndexAccel index
    let (start, stop) := blocksForPoint (keyCp index) handles key
    handles.Pairwise (fun a b => before (keyCp index) key b = true → before (keyCp index) key a = true) ∧
      ∀ i h, handles[i]? = some h → h.firstUserKey ≤ key →
        (∀ next, handles[i + 1]? = some next → key ≤ next.firstUserKey) → start ≤ i ∧ i < stop := by
  have hordered := deriveIndexAccel_ordered hsorted
  refine ⟨hordered.imp before_down, fun i h hi hle hnext => ?_⟩
  refine blocksForPoint_covers (hordered.imp And.left) (fun x hx hbefore => ?_) hi hle hnext
  cases hindex : index with
  | nil => simp [hindex, deriveIndexAccel] at hx
  | cons f rest => exact lt_of_before (hindex ▸ rfl) (hfirst f (hindex ▸ rfl)) hx hbefore

/-- Four blocks behind the prefix `[1, 1]`, with a key that goes on in a third block. -/
def splitIndex : List BlockHandle :=
  [⟨0, 9, [1, 1]⟩, ⟨9, 9, [1, 1, 5]⟩, ⟨18, 9, [1, 1, 5]⟩, ⟨27, 9, [1, 1, 9]⟩]

/-- The last block for a key without the prefix, whose window is that of the first block. -/
theorem blocks_for_point_covers_outside : keyCp splitIndex = 2 ∧
    (blocksForPoint 2 (deriveIndexAccel splitIndex) [1, 2]).1 ≤ 3 ∧
      3 < (blocksForPoint 2 (deriveIndexAccel splitIndex) [1, 2]).2 :=
  ⟨rfl, (blocks_for_point_covers splitIndex [1, 2] (by decide)
    fun f hf => by cases hf; decide).2 3 _ rfl (by decide)
    fun _ h => nomatch h⟩

end PedraDb.Sst
