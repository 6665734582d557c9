import Mathlib.Data.List.Perm.Basic

/-! A binary heap in an array.

The children of slot `i` are the slots `2 * i + 1` and `2 * i + 2`, and no child is before
its parent. A slot whose value is out of place is a hole: `siftDown` moves it towards the
leaves, `siftUp` towards the root, and the order holds everywhere else meanwhile
(`Lowered`, `Raised`). The order is any strict order whose ties are transitive, and it is
an argument of each operation: the caller may compare values through a state of its own. -/
namespace PedraDb.Heap
open List
variable {i j k : Nat}

/-! ### The operations -/

/-- What to do with a hole. -/
inductive SiftStep where
  | stay
  | swapLeft
  | swapRight
  deriving DecidableEq

/-- The decision, from whether there is a right child, whether it beats the left one, and whether
the better of them beats the hole. -/
def siftStep (rExists rLtL bestLtHole : Bool) : SiftStep :=
  if !bestLtHole then .stay else if rExists && rLtL then .swapRight else .swapLeft

section Ops
variable {α : Type} (lt : α → α → Bool)

/-- Move a hole down until no child beats it. -/
def siftDown (heap : Array α) (hole : Nat) : Array α :=
  if hl : 2 * hole + 1 < heap.size then
    if hr : 2 * hole + 2 < heap.size then
      let rLtL := lt heap[2 * hole + 2] heap[2 * hole + 1]
      let best := if rLtL then heap[2 * hole + 2] else heap[2 * hole + 1]
      match siftStep true rLtL (lt best heap[hole]) with
      | .stay => heap
      | .swapLeft => siftDown (heap.swap (2 * hole + 1) hole) (2 * hole + 1)
      | .swapRight => siftDown (heap.swap (2 * hole + 2) hole) (2 * hole + 2)
    else
      match siftStep false false (lt heap[2 * hole + 1] heap[hole]) with
      | .stay => heap
      | .swapLeft | .swapRight => siftDown (heap.swap (2 * hole + 1) hole) (2 * hole + 1)
  else heap
termination_by heap.size - hole
decreasing_by all_goals simp only [Array.size_swap]; omega

/-- Move a hole up until it does not beat its parent. -/
def siftUp (heap : Array α) (hole : Nat) : Array α :=
  if h : 0 < hole ∧ hole < heap.size then
    if lt heap[hole] (heap[(hole - 1) / 2])
      then siftUp (heap.swap hole ((hole - 1) / 2)) ((hole - 1) / 2) else heap
  else heap
termination_by hole
decreasing_by omega

/-- Make a heap, from the last parent up. -/
def heapify (heap : Array α) : Array α := (List.range (heap.size / 2)).reverse.foldl (siftDown lt) heap

def push (heap : Array α) (x : α) : Array α := siftUp lt (heap.push x) heap.size

/-- The first value leaves, the last one takes its slot and moves down. -/
def pop (heap : Array α) : Option (α × Array α) :=
  match heap[0]?, heap.back? with
  | some top, some last =>
    if h : 0 < heap.pop.size then some (top, siftDown lt (heap.pop.set 0 last) 0)
      else some (top, heap.pop)
  | _, _ => none

end Ops

/-! ### The order -/

/-- A strict order whose ties are transitive. -/
structure StrictWeak {α : Type} (lt : α → α → Bool) : Prop where
  asymm : ∀ {a b}, lt a b = true → lt b a = false
  split : ∀ {a b}, lt a b = true → ∀ c, lt a c = true ∨ lt c b = true

section Order
variable {α : Type} {lt : α → α → Bool}

theorem StrictWeak.irrefl (h : StrictWeak lt) (a : α) : lt a a = false := by
  cases ha : lt a a with
  | false => rfl
  | true => exact ha.symm.trans (h.asymm ha)

theorem StrictWeak.trans (h : StrictWeak lt) {a b c : α} (hba : lt b a = false)
    (hcb : lt c b = false) : lt c a = false := by
  cases hca : lt c a with
  | false => rfl
  | true =>
    rcases h.split hca b with h' | h'
    · exact h'.symm.trans hcb
    · exact h'.symm.trans hba

/-- The second slot is below the first. -/
def Child (i j : Nat) : Prop := j = 2 * i + 1 ∨ j = 2 * i + 2

theorem Child.above (h : Child i j) : i < j := by
  rcases h with rfl | rfl <;> omega

theorem Child.parent (h : Child i j) : (j - 1) / 2 = i := by
  rcases h with rfl | rfl <;> omega

theorem child_parent (h : 0 < j) : Child ((j - 1) / 2) j := by
  unfold Child
  omega

/-- From slot `k` on no child is before its parent. -/
def OrderedFrom (lt : α → α → Bool) (k : Nat) (heap : Array α) : Prop :=
  ∀ i j (hi : i < heap.size) (hj : j < heap.size), Child i j → k ≤ i → lt heap[j] heap[i] = false

def Ordered (lt : α → α → Bool) (heap : Array α) : Prop := OrderedFrom lt 0 heap

/-- In order from slot `k` on but for the children of the hole, which are not before its
parent. -/
structure Lowered (lt : α → α → Bool) (k : Nat) (heap : Array α) (hole : Nat) : Prop where
  le : k ≤ hole
  others : ∀ i j (hi : i < heap.size) (hj : j < heap.size),
    Child i j → k ≤ i → i ≠ hole → lt heap[j] heap[i] = false
  around : ∀ i j (hi : i < heap.size) (hj : j < heap.size),
    Child i hole → Child hole j → k ≤ i → lt heap[j] heap[i] = false

/-- In order but for the hole, which may be before its parent. -/
structure Raised (lt : α → α → Bool) (heap : Array α) (hole : Nat) : Prop where
  others : ∀ i j (hi : i < heap.size) (hj : j < heap.size),
    Child i j → j ≠ hole → lt heap[j] heap[i] = false
  around : ∀ i j (hi : i < heap.size) (hj : j < heap.size),
    Child i hole → Child hole j → lt heap[j] heap[i] = false

theorem Ordered.first (hlt : StrictWeak lt) {heap : Array α} (h : Ordered lt heap)
    (h0 : 0 < heap.size) (i : Nat)
    (hi : i < heap.size) : lt heap[i] heap[0] = false := by
  induction i using Nat.strongRecOn with
  | _ i ih =>
    rcases Nat.eq_zero_or_pos i with rfl | hpos
    · exact hlt.irrefl _
    · have hchild := child_parent hpos
      have hp : (i - 1) / 2 < heap.size := Nat.lt_trans hchild.above hi
      exact hlt.trans (ih _ hchild.above hp) (h _ _ hp hi hchild (Nat.zero_le _))

section
variable (hlt : StrictWeak lt)
include hlt

/-- One turn: the hole stays, or the better child takes its place. -/
theorem siftDown_turn (heap : Array α) (hole : Nat) (hhole : hole < heap.size) :
    (siftDown lt heap hole = heap ∧ ∀ j (hj : j < heap.size),
      Child hole j → lt heap[j] heap[hole] = false) ∨
      ∃ best, ∃ hbest : best < heap.size, Child hole best ∧ lt heap[best] heap[hole] = true ∧
        (∀ j (hj : j < heap.size), Child hole j → lt heap[j] heap[best] = false) ∧
        siftDown lt heap hole = siftDown lt (heap.swap best hole) best := by
  rw [siftDown]
  split
  · rename_i hl
    split
    · rename_i hr
      cases hrl : lt heap[2 * hole + 2] heap[2 * hole + 1] with
      | true =>
        have hbest : ∀ j (hj : j < heap.size), Child hole j → lt heap[j] heap[2 * hole + 2] = false := by
          rintro j hj (rfl | rfl)
          · exact hlt.asymm hrl
          · exact hlt.irrefl _
        cases hrh : lt heap[2 * hole + 2] heap[hole] with
        | true => exact .inr ⟨2 * hole + 2, hr, .inr rfl, hrh, hbest, by simp [siftStep, hrh]⟩
        | false =>
          exact .inl ⟨by simp [siftStep, hrh], fun j hj hchild => hlt.trans hrh (hbest j hj hchild)⟩
      | false =>
        have hbest : ∀ j (hj : j < heap.size), Child hole j → lt heap[j] heap[2 * hole + 1] = false := by
          rintro j hj (rfl | rfl)
          · exact hlt.irrefl _
          · exact hrl
        cases hlh : lt heap[2 * hole + 1] heap[hole] with
        | true => exact .inr ⟨2 * hole + 1, hl, .inl rfl, hlh, hbest, by simp [siftStep, hlh]⟩
        | false =>
          exact .inl ⟨by simp [siftStep, hlh], fun j hj hchild => hlt.trans hlh (hbest j hj hchild)⟩
    · rename_i hr
      have hbest : ∀ j (hj : j < heap.size), Child hole j → lt heap[j] heap[2 * hole + 1] = false := by
        rintro j hj (rfl | rfl)
        · exact hlt.irrefl _
        · exact absurd hj hr
      cases hlh : lt heap[2 * hole + 1] heap[hole] with
      | true => exact .inr ⟨2 * hole + 1, hl, .inl rfl, hlh, hbest, by simp [siftStep]⟩
      | false => exact .inl ⟨by simp [siftStep], fun j hj hchild => hlt.trans hlh (hbest j hj hchild)⟩
  · rename_i hl
    refine .inl ⟨rfl, ?_⟩
    rintro j hj (rfl | rfl) <;> omega

theorem Lowered.swap {heap : Array α} {hole best : Nat} (h : Lowered lt k heap hole)
    (hhole : hole < heap.size) (hbest : best < heap.size) (hchild : Child hole best)
    (hbefore : lt heap[best] heap[hole] = true)
    (hleast : ∀ j (hj : j < heap.size), Child hole j → lt heap[j] heap[best] = false) :
    Lowered lt k (heap.swap best hole) best := by
  have habove := hchild.above
  refine ⟨Nat.le_trans h.le (Nat.le_of_lt habove), fun i j hi hj hij hk hne => ?_,
    fun i j hi hj hi' hj' hk => ?_⟩
  · have hi₀ : i < heap.size := by simpa using hi
    have hj₀ : j < heap.size := by simpa using hj
    have hjbest : j = best → i = hole := fun heq => by
      rw [← hij.parent, heq, hchild.parent]
    by_cases hih : i = hole
    · subst hih
      rw [Array.getElem_swap_right]
      by_cases hjb : j = best
      · subst hjb
        rw [Array.getElem_swap_left]
        exact hlt.asymm hbefore
      · rw [Array.getElem_swap_of_ne hjb (by have := hij.above; omega)]
        exact hleast j hj₀ hij
    · rw [Array.getElem_swap_of_ne hne hih]
      by_cases hjh : j = hole
      · subst hjh
        rw [Array.getElem_swap_right]
        exact h.around i best hi₀ hbest hij hchild hk
      · rw [Array.getElem_swap_of_ne (fun heq => hih (hjbest heq)) hjh]
        exact h.others i j hi₀ hj₀ hij hk hih
  · obtain rfl : i = hole := by rw [← hi'.parent, hchild.parent]
    have hj₀ : j < heap.size := by simpa using hj
    have := hj'.above
    rw [Array.getElem_swap_right, Array.getElem_swap_of_ne (by omega) (by omega)]
    exact h.others best j hbest hj₀ hj' (by omega) (by omega)

theorem Lowered.siftDown {heap : Array α} {hole : Nat} (h : Lowered lt k heap hole)
    (hhole : hole < heap.size) : OrderedFrom lt k (siftDown lt heap hole) := by
  rcases siftDown_turn hlt heap hole hhole with ⟨heq, hstay⟩ | ⟨best, hbest, hchild, hbefore, hleast, heq⟩
  · rw [heq]
    intro i j hi hj hij hk
    by_cases hih : i = hole
    · subst hih
      exact hstay j hj hij
    · exact h.others i j hi hj hij hk hih
  · rw [heq]
    have habove := hchild.above
    exact Lowered.siftDown (h.swap hlt hhole hbest hchild hbefore hleast) (by simpa using hbest)
termination_by heap.size - hole
decreasing_by
  rw [Array.size_swap]
  omega

theorem siftDown_perm (heap : Array α) (hole : Nat) (hhole : hole < heap.size) :
    (siftDown lt heap hole).toList.Perm heap.toList := by
  rcases siftDown_turn hlt heap hole hhole with ⟨heq, -⟩ | ⟨best, hbest, hchild, -, -, heq⟩
  · rw [heq]
  · rw [heq]
    have habove := hchild.above
    exact (siftDown_perm _ best (by simpa using hbest)).trans (Array.swap_perm hbest hhole).toList
termination_by heap.size - hole
decreasing_by
  rw [Array.size_swap]
  omega

end

theorem heapify_spec (hlt : StrictWeak lt) (heap : Array α) :
    Ordered lt (heapify lt heap) ∧ (heapify lt heap).toList.Perm heap.toList := by
  suffices hfold : ∀ k h, 2 * k ≤ h.size → OrderedFrom lt k h →
      Ordered lt ((List.range k).reverse.foldl (Heap.siftDown lt) h) ∧
        ((List.range k).reverse.foldl (Heap.siftDown lt) h).toList.Perm h.toList by
    refine hfold (heap.size / 2) heap (by omega) fun i j hi hj hij hk => ?_
    rcases hij with rfl | rfl <;> omega
  intro k
  induction k with
  | zero => exact fun h _ hordered => ⟨hordered, .refl _⟩
  | succ k ih =>
    intro h hsize hordered
    rw [range_succ, reverse_append, reverse_singleton, singleton_append, foldl_cons]
    have hk : k < h.size := by omega
    have hlowered : Lowered lt k h k := by
      refine ⟨.refl, fun i j hi hj hij hki hne => hordered i j hi hj hij (by omega),
        fun i j hi hj hi' hj' hki => ?_⟩
      have := hi'.above
      omega
    have hperm := siftDown_perm hlt h k hk
    have hsize' : (Heap.siftDown lt h k).size = h.size := by simpa using hperm.length_eq
    obtain ⟨hheap, hall⟩ := ih _ (by omega) (hlowered.siftDown hlt hk)
    exact ⟨hheap, hall.trans hperm⟩

/-! ### Up -/

theorem siftUp_turn (heap : Array α) (hole : Nat) (hpos : 0 < hole) (hhole : hole < heap.size)
    (hp : (hole - 1) / 2 < heap.size) :
    siftUp lt heap hole =
      if lt heap[hole] heap[(hole - 1) / 2] then siftUp lt (heap.swap hole ((hole - 1) / 2))
      ((hole - 1) / 2) else heap := by
  rw [siftUp, dif_pos ⟨hpos, hhole⟩]

theorem Raised.swap (hlt : StrictWeak lt) {heap : Array α} {hole p : Nat} (h : Raised lt heap hole)
    (hhole : hole < heap.size)
    (hp : p < heap.size) (hchild : Child p hole) (hbefore : lt heap[hole] heap[p] = true) :
    Raised lt (heap.swap hole p) p := by
  have habove := hchild.above
  refine ⟨fun i j hi hj hij hne => ?_, fun i j hi hj hi' hj' => ?_⟩
  · have hi₀ : i < heap.size := by simpa using hi
    have hj₀ : j < heap.size := by simpa using hj
    have hijlt := hij.above
    by_cases hip : i = p
    · subst hip
      rw [Array.getElem_swap_right]
      by_cases hjh : j = hole
      · subst hjh
        rw [Array.getElem_swap_left]
        exact hlt.asymm hbefore
      · rw [Array.getElem_swap_of_ne hjh hne]
        exact hlt.trans (hlt.asymm hbefore) (h.others i j hi₀ hj₀ hij hjh)
    · by_cases hih : i = hole
      · subst hih
        rw [Array.getElem_swap_left, Array.getElem_swap_of_ne (by omega) hne]
        exact h.around p j hp hj₀ hchild hij
      · have hjh : j ≠ hole := fun heq => hip (by rw [← hij.parent, heq, hchild.parent])
        rw [Array.getElem_swap_of_ne hih hip, Array.getElem_swap_of_ne hjh hne]
        exact h.others i j hi₀ hj₀ hij hjh
  · have hi₀ : i < heap.size := by simpa using hi
    have hj₀ : j < heap.size := by simpa using hj
    have := hi'.above
    have hip := h.others i p hi₀ hp hi' (by omega)
    rw [Array.getElem_swap_of_ne (k := i) (by omega) (by omega)]
    by_cases hjh : j = hole
    · subst hjh
      rw [Array.getElem_swap_left]
      exact hip
    · have := hj'.above
      rw [Array.getElem_swap_of_ne hjh (by omega)]
      exact hlt.trans hip (h.others p j hp hj₀ hj' hjh)

theorem Raised.siftUp (hlt : StrictWeak lt) {heap : Array α} {hole : Nat} (h : Raised lt heap hole)
    (hhole : hole < heap.size) :
    Ordered lt (siftUp lt heap hole) := by
  rcases Nat.eq_zero_or_pos hole with rfl | hpos
  · rw [Heap.siftUp, dif_neg (by omega)]
    exact fun i j hi hj hij _ => h.others i j hi hj hij (by have := hij.above; omega)
  have hchild := child_parent hpos
  have habove := hchild.above
  have hp : (hole - 1) / 2 < heap.size := by omega
  rw [siftUp_turn heap hole hpos hhole hp]
  cases hbefore : lt heap[hole] heap[(hole - 1) / 2] with
  | true =>
    exact Raised.siftUp hlt (h.swap hlt hhole hp hchild hbefore) (by simpa using hp)
  | false =>
    intro i j hi hj hij _
    by_cases hjh : j = hole
    · subst hjh
      obtain rfl := hij.parent
      exact hbefore
    · exact h.others i j hi hj hij hjh
termination_by hole

theorem siftUp_perm (lt : α → α → Bool) (heap : Array α) (hole : Nat) :
    (siftUp lt heap hole).toList.Perm heap.toList := by
  fun_induction siftUp lt heap hole with
  | case1 heap hole h _ ih => exact ih.trans (Array.swap_perm _ _).toList
  | case2 => exact .refl _
  | case3 => exact .refl _

theorem push_perm (lt : α → α → Bool) (heap : Array α) (x : α) :
    (push lt heap x).toList.Perm (x :: heap.toList) := by
  refine (siftUp_perm lt _ _).trans ?_
  rw [Array.toList_push]
  exact perm_append_comm

theorem Ordered.push (hlt : StrictWeak lt) {heap : Array α} (h : Ordered lt heap) (x : α) :
    Ordered lt (push lt heap x) := by
  have hsize : (heap.push x).size = heap.size + 1 := Array.size_push x
  have hraised : Raised lt (heap.push x) heap.size := by
    refine ⟨fun i j hi hj hij hne => ?_, fun i j hi hj hi' hj' => ?_⟩
    · have := hij.above
      have hj : j < heap.size := by omega
      have hi : i < heap.size := by omega
      rw [Array.getElem_push_lt hi, Array.getElem_push_lt hj]
      exact h i j hi hj hij (Nat.zero_le _)
    · have := hj'.above
      omega
  exact hraised.siftUp hlt (by omega)

theorem Ordered.lowered {heap : Array α} {last : α} (h : Ordered lt (heap.push last))
    (hpos : 0 < heap.size) :
    Lowered lt 0 (heap.set 0 last) 0 := by
  refine ⟨.refl, fun i j hi hj hij _ hne => ?_, fun i j hi hj hi' _ _ => ?_⟩
  · have := hij.above
    have hi₀ : i < heap.size := by simpa using hi
    have hj₀ : j < heap.size := by simpa using hj
    rw [Array.getElem_set_ne _ _ (by omega), Array.getElem_set_ne _ _ (by omega)]
    have := h i j (by simp; omega) (by simp; omega) hij (Nat.zero_le _)
    rwa [Array.getElem_push_lt hi₀, Array.getElem_push_lt hj₀] at this
  · have := hi'.above
    omega

theorem set_first_perm (heap : Array α) (last : α) (hpos : 0 < heap.size) :
    (heap.push last).toList.Perm (heap[0] :: (heap.set 0 last).toList) := by
  obtain ⟨l⟩ := heap
  cases l with
  | nil => cases hpos
  | cons a mid =>
    simp only [push_toArray, set_toArray, cons_append, set_cons_zero, getElem_toArray, getElem_cons_zero]
    exact perm_append_comm.cons a

theorem pop_none {heap : Array α} (h : pop lt heap = none) : heap.toList = [] := by
  rw [pop] at h
  split at h
  · split at h <;> cases h
  rename_i hnot
  by_contra hne
  have hpos : 0 < heap.size := by
    exact length_pos_iff.mpr hne
  have hlast : heap.size - 1 < heap.size := by omega
  exact hnot heap[0] heap[heap.size - 1] (Array.getElem?_eq_getElem hpos)
    (by rw [Array.back?_eq_getElem?, Array.getElem?_eq_getElem hlast])

theorem pop_spec (hlt : StrictWeak lt) {heap heap' : Array α} {x : α}
    (hpop : pop lt heap = some (x, heap')) :
    heap.toList.Perm (x :: heap'.toList) ∧
    (Ordered lt heap → Ordered lt heap' ∧ ∀ y ∈ heap.toList, lt y x = false) := by
  rw [pop] at hpop
  split at hpop
  swap
  · cases hpop
  rename_i top last htop hlast
  obtain ⟨h0, rfl⟩ := Array.getElem?_eq_some_iff.mp htop
  have hfirst (h : Ordered lt heap) : ∀ y ∈ heap.toList, lt y heap[0] = false := fun y hy => by
    obtain ⟨i, hi, rfl⟩ := Array.getElem_of_mem (Array.mem_toList_iff.mp hy)
    exact h.first hlt h0 i hi
  obtain ⟨init, rfl⟩ := Array.back?_eq_some_iff.mp hlast
  rw [Array.pop_push] at hpop
  split at hpop
  · rename_i hpos
    cases hpop
    have hsize : 0 < (init.set 0 last).size := by simpa using hpos
    refine ⟨?_, fun h => ⟨(h.lowered hpos).siftDown hlt hsize, hfirst h⟩⟩
    rw [Array.getElem_push_lt hpos]
    exact (set_first_perm init last hpos).trans ((siftDown_perm hlt _ 0 hsize).symm.cons _)
  · rename_i hpos
    cases hpop
    obtain rfl : heap' = #[] := Array.eq_empty_of_size_eq_zero (by omega)
    exact ⟨by simp, fun h => ⟨fun i j hi => by simp at hi, hfirst h⟩⟩

theorem Ordered.congr {lt' : α → α → Bool} {heap : Array α} (h : Ordered lt heap)
    (hsame : ∀ a ∈ heap.toList, ∀ b ∈ heap.toList, lt' a b = lt a b) : Ordered lt' heap := by
  intro i j hi hj hij hk
  rw [hsame _ (by simp) _ (by simp)]
  exact h i j hi hj hij hk

end Order

end PedraDb.Heap
