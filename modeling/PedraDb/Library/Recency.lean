import Mathlib.Algebra.GroupWithZero.Nat
import Mathlib.Data.List.Nodup

/-! Recency kept in a queue that forgets late.

A slot of a map is stamped when its key is used, and the use goes to the back of a queue.
What an earlier use left there is a ghost: its stamp is not the slot's any more, and it is
dropped when it comes to the front. `Sorted` lists the slots by their last uses, as the queue
has them among its ghosts, so that the first entry that is no ghost is of the least recently
used key (`pop`). -/
namespace PedraDb.Recency
open List
variable {K S : Type} {order live : List (K × Nat)} {epoch : Nat} {e : K × Nat}

/-- The queue holds the last uses `live`, the least recent first, among ghosts. -/
structure Tracks (order : List (K × Nat)) (epoch : Nat) (live : List (K × Nat)) : Prop where
  sub : live.Sublist order
  increasing : order.Pairwise fun a b => a.2 < b.2
  past : ∀ e ∈ order, e.2 ≤ epoch

theorem Tracks.nodup (h : Tracks order epoch live) : order.Nodup :=
  h.increasing.imp fun hlt heq => absurd (congrArg Prod.snd heq) (Nat.ne_of_lt hlt)

/-- A use, after which some of the old uses are ghosts. -/
theorem Tracks.use {live' : List (K × Nat)} (h : Tracks order epoch live)
    (hsub : live'.Sublist live) (key : K) :
    Tracks (order ++ [(key, epoch + 1)]) (epoch + 1) (live' ++ [(key, epoch + 1)]) where
  sub := (hsub.trans h.sub).append (.refl _)
  increasing := pairwise_append.mpr ⟨h.increasing, pairwise_singleton _ _, fun a ha b hb => by
    rw [mem_singleton.mp hb]
    exact Nat.lt_succ_of_le (h.past a ha)⟩
  past := forall_mem_append.mpr
    ⟨fun a ha => Nat.le_succ_of_le (h.past a ha), forall_mem_singleton.mpr .refl⟩

/-- The entry at the front is a ghost or the least recent use. -/
theorem Tracks.pop (h : Tracks (e :: order) epoch live) :
    (e ∉ live ∧ Tracks order epoch live) ∨ ∃ rest, live = e :: rest ∧ Tracks order epoch rest := by
  have hfirst : e ∉ order := (nodup_cons.mp h.nodup).1
  have hincreasing := (pairwise_cons.mp h.increasing).2
  have hpast := (forall_mem_cons.mp h.past).2
  cases h.sub with
  | cons _ hsub => exact .inl ⟨fun he => hfirst (hsub.subset he), hsub, hincreasing, hpast⟩
  | cons_cons _ hsub => exact .inr ⟨_, rfl, hsub, hincreasing, hpast⟩

/-! ### Maps of stamped slots -/

section
variable [DecidableEq K] (stamp : S → Nat)

/-- The last use of a row. -/
def used (r : K × S) : K × Nat := (r.1, stamp r.2)

/-- A queue entry that is no ghost. -/
def isLive (map : List (K × S)) (e : K × Nat) : Bool := (map.lookup e.1).any fun s => stamp s == e.2

def setRow (map : List (K × S)) (key : K) (x : S) : List (K × S) :=
  map.map fun e => if e.1 = key then (key, x) else e

def dropRow (map : List (K × S)) (key : K) : List (K × S) := map.filter fun e => e.1 ≠ key

/-- The rows of the map in the order of their last uses. -/
structure Sorted (rows map : List (K × S)) (order : List (K × Nat)) (epoch : Nat) : Prop where
  perm : rows.Perm map
  keys : (rows.map Prod.fst).Nodup
  tracks : Tracks order epoch (rows.map (used stamp))

end

variable [DecidableEq K] {stamp : S → Nat} {rows map : List (K × S)} {key : K} {x : S}

omit [DecidableEq K] in
theorem Sorted.nil : Sorted stamp ([] : List (K × S)) [] [] epoch :=
  ⟨.nil, nodup_nil, .slnil, .nil, by simp⟩

/-- Where keys are not repeated a lookup finds what is there. -/
theorem lookup_iff {s : S} (hkeys : (map.map Prod.fst).Nodup) :
    map.lookup key = some s ↔ (key, s) ∈ map := by
  induction map with
  | nil => simp
  | cons r map ih =>
    obtain ⟨hnew, hrest⟩ := nodup_cons.mp hkeys
    rw [lookup_cons]
    by_cases hk : key = r.1
    · subst hk
      have hno : ∀ y, (r.1, y) ∉ map := fun y hy => hnew (mem_map.mpr ⟨_, hy, rfl⟩)
      simp [hno, Prod.ext_iff, eq_comm]
    · have hk' : (key == r.1) = false := by simpa using hk
      simp [hk', ih hrest, Prod.ext_iff, hk]

omit [DecidableEq K] in
theorem key_ne (hkey : key ∉ map.map Prod.fst) {r : K × S} (hr : r ∈ map) : r.1 ≠ key :=
  fun heq => hkey (heq ▸ mem_map_of_mem hr)

theorem dropRow_eq_self (hkey : key ∉ map.map Prod.fst) : dropRow map key = map :=
  filter_eq_self.mpr fun _ hr => decide_eq_true (key_ne hkey hr)

theorem setRow_eq_self (hkey : key ∉ map.map Prod.fst) : setRow map key x = map :=
  (map_congr_left fun _ hr => if_neg (key_ne hkey hr)).trans (map_id map)

/-- Setting the one row of a key moves it to the end, order apart. -/
theorem setRow_perm (hkeys : (rows.map Prod.fst).Nodup) (hkey : key ∈ rows.map Prod.fst) :
    (setRow rows key x).Perm (dropRow rows key ++ [(key, x)]) := by
  induction rows with
  | nil => cases hkey
  | cons r rows ih =>
    obtain ⟨hfresh, hrest⟩ := nodup_cons.mp hkeys
    by_cases hr : r.1 = key
    · have hno : key ∉ rows.map Prod.fst := hr ▸ hfresh
      have hset : setRow (r :: rows) key x = (key, x) :: rows :=
        congrArg₂ cons (if_pos hr) (setRow_eq_self hno)
      have hdrop : dropRow (r :: rows) key = rows :=
        (filter_cons_of_neg (by simpa using hr)).trans (dropRow_eq_self hno)
      rw [hdrop, hset]
      exact (perm_append_singleton _ rows).symm
    · have hkey' : key ∈ rows.map Prod.fst := (mem_cons.mp hkey).resolve_left (Ne.symm hr)
      rw [setRow, dropRow, map_cons, if_neg hr, filter_cons_of_pos (by simpa using hr)]
      exact (ih hrest hkey').cons r

namespace Sorted

theorem lookup_iff (h : Sorted stamp rows map order epoch) {s : S} :
    map.lookup key = some s ↔ (key, s) ∈ rows := by
  rw [Recency.lookup_iff ((h.perm.map _).nodup_iff.mp h.keys), h.perm.mem_iff]

theorem isLive_iff (h : Sorted stamp rows map order epoch) :
    isLive stamp map e = true ↔ e ∈ rows.map (used stamp) := by
  simp only [isLive, Option.any_eq_true, h.lookup_iff, mem_map, beq_iff_eq]
  constructor
  · rintro ⟨s, hmem, hs⟩
    exact ⟨_, hmem, Prod.ext rfl hs⟩
  · rintro ⟨r, hmem, rfl⟩
    exact ⟨r.2, hmem, rfl⟩

/-- A slot that is used again. -/
theorem set (h : Sorted stamp rows map order epoch) (hkey : key ∈ rows.map Prod.fst)
    (hnew : stamp x = epoch + 1) :
    Sorted stamp (dropRow rows key ++ [(key, x)]) (setRow map key x)
      (order ++ [(key, epoch + 1)]) (epoch + 1) where
  perm := (setRow_perm h.keys hkey).symm.trans (h.perm.map _)
  keys := by
    have := (setRow_perm (x := x) h.keys hkey).map Prod.fst
    refine this.nodup_iff.mp ?_
    rw [setRow, map_map]
    refine (map_congr_left fun e he => ?_) ▸ h.keys
    by_cases hk : e.1 = key <;> simp [hk]
  tracks := by
    rw [map_append, map_singleton, used, hnew]
    exact h.tracks.use (filter_sublist.map _) key

omit [DecidableEq K] in
/-- A slot of a new key. -/
theorem put (h : Sorted stamp rows map order epoch) (hkey : key ∉ rows.map Prod.fst)
    (hnew : stamp x = epoch + 1) :
    Sorted stamp (rows ++ [(key, x)]) ((key, x) :: map) (order ++ [(key, epoch + 1)])
    (epoch + 1) where
  perm := (perm_append_singleton _ rows).trans (h.perm.cons _)
  keys := by
    rw [map_append, map_singleton, ← concat_eq_append]
    exact h.keys.concat hkey
  tracks := by
    rw [map_append, map_singleton, used, hnew]
    exact h.tracks.use (.refl _) key

/-- The front of the queue is a ghost or of the least recently used slot. -/
theorem pop (h : Sorted stamp rows map (e :: order) epoch) :
    (isLive stamp map e = false ∧ Sorted stamp rows map order epoch) ∨
      ∃ s rest, rows = (e.1, s) :: rest ∧ isLive stamp map e = true ∧ map.lookup e.1 = some s ∧
        Sorted stamp rest (dropRow map e.1) order epoch := by
  rcases h.tracks.pop with ⟨hghost, htail⟩ | ⟨uses, heq, htail⟩
  · refine .inl ⟨?_, h.perm, h.keys, htail⟩
    rwa [← Bool.not_eq_true, h.isLive_iff]
  · obtain ⟨r, rest, rfl, rfl, rfl⟩ := map_eq_cons_iff.mp heq
    obtain ⟨hfresh, hrest⟩ := nodup_cons.mp h.keys
    have hdrop : dropRow (r :: rest) r.1 = rest :=
      (filter_cons_of_neg (by simp)).trans (dropRow_eq_self hfresh)
    have hperm : rest.Perm (dropRow map r.1) := hdrop ▸ h.perm.filter _
    exact .inr ⟨r.2, rest, rfl, h.isLive_iff.mpr mem_cons_self,
      h.lookup_iff.mpr mem_cons_self, hperm, hrest, htail⟩

/-- Dropping ghosts leads to the least recently used slot. -/
theorem first (h : Sorted stamp rows map order epoch) (hne : rows ≠ []) :
    ∃ key s rest order', rows = (key, s) :: rest ∧
      (order.dropWhile fun e => !isLive stamp map e) = (key, stamp s) :: order' ∧
      map.lookup key = some s ∧ Sorted stamp rest (dropRow map key) order' epoch ∧
      order'.length < order.length := by
  induction order with
  | nil => exact absurd (map_eq_nil_iff.mp (eq_nil_of_sublist_nil h.tracks.sub)) hne
  | cons e order ih =>
    rcases h.pop with ⟨hghost, htail⟩ | ⟨s, rest, hrows, hlive, hs, hrest⟩
    · obtain ⟨key, s, rest, order', hrows, hdrop, hs, hrest, hlt⟩ := ih htail
      refine ⟨key, s, rest, order', hrows, ?_, hs, hrest, Nat.lt_succ_of_lt hlt⟩
      rw [dropWhile_cons, if_pos (by simp [hghost]), hdrop]
    · refine ⟨e.1, s, rest, order, hrows, ?_, hs, hrest, Nat.lt_succ_self _⟩
      have hstamp : stamp s = e.2 := by simpa [isLive, hs] using hlive
      rw [dropWhile_cons, if_neg (by simp [hlive]), hstamp]

end Sorted
end PedraDb.Recency
