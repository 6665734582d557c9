import Mathlib.Algebra.BigOperators.Fin

/-! Merging sources that are each in order.

A merge looks at the heads of its sources only. What comes before all heads comes before
everything (`before_all`), so taking the first head again and again gives what is in the
sources, in order (`Drains.perm`, `Drains.pairwise`), in whatever way the first head is
found and the sources are kept. -/
namespace PedraDb.Kway
open List

section Sources
variable {α : Type} {before : α → α → Prop} {sources : List (List α)}

/-- What is before every head is before everything. -/
theorem before_all (hsorted : ∀ s ∈ sources, s.Pairwise before) {v : α}
    (hleast : ∀ s ∈ sources, ∀ h ∈ s.head?, before v h)
    (htrans : ∀ a b c, before a b → before b c → before a c) {w : α} (hw : w ∈ sources.flatten) :
    before v w := by
  obtain ⟨s, hs, hws⟩ := mem_flatten.mp hw
  cases s with
  | nil => cases hws
  | cons h rest =>
    have hhead := hleast _ hs h rfl
    rcases mem_cons.mp hws with rfl | hrest
    · exact hhead
    · exact htrans _ _ _ hhead ((pairwise_cons.mp (hsorted _ hs)).1 w hrest)

/-- `out` is what comes out of the sources when the first head is taken each time. -/
inductive Drains (before : α → α → Prop) : List (List α) → List α → Prop
  | done : Drains before [] []
  | drop {others : List (List α)} {out : List α} (hrest : Drains before others out) :
    Drains before ([] :: others) out
  | next {sources others : List (List α)} {out rest : List α} {v : α}
    (hperm : sources.Perm ((v :: rest) :: others))
      (hleast : ∀ s ∈ others, ∀ h ∈ s.head?, before v h) (hrest : Drains before (rest :: others) out) :
      Drains before sources (v :: out)

/-- Draining loses and makes nothing. -/
theorem Drains.perm {out : List α} (h : Drains before sources out) : out.Perm sources.flatten := by
  induction h with
  | done => exact .refl _
  | drop _ ih => exact ih
  | next hperm _ _ ih => exact (ih.cons _).trans hperm.symm.flatten

/-- Draining sorted sources gives one sorted list. -/
theorem Drains.pairwise {out : List α} (h : Drains before sources out)
    (hsorted : ∀ s ∈ sources, s.Pairwise before)
    (htrans : ∀ a b c, before a b → before b c → before a c) : out.Pairwise before := by
  induction h with
  | done => exact .nil
  | drop _ ih => exact ih fun s hs => hsorted s (mem_cons_of_mem _ hs)
  | @next sources others out rest v hperm hleast hrest ih =>
    obtain ⟨hv, hothers⟩ := forall_mem_cons.mp fun s hs => hsorted s (hperm.mem_iff.mpr hs)
    obtain ⟨hv, hrestSorted⟩ := pairwise_cons.mp hv
    refine pairwise_cons.mpr ⟨fun w hw => ?_, ih (forall_mem_cons.mpr ⟨hrestSorted, hothers⟩)⟩
    rcases mem_append.mp (hrest.perm.mem_iff.mp hw) with h | h
    · exact hv w h
    · exact before_all hothers hleast htrans h

end Sources

theorem sum_update {n : Nat} {S : Type} (size : S → Nat) (source : Fin n → S) (i : Fin n) (s : S) :
    ∑ j, size (Function.update source i s j) + size (source i) = ∑ j, size (source j) + size s := by
  rw [← Finset.add_sum_erase _ _ (Finset.mem_univ i),
    ← Finset.add_sum_erase _ (fun j => size (source j)) (Finset.mem_univ i),
    Finset.sum_congr rfl fun j hj => by
    rw [Function.update_of_ne (Finset.ne_of_mem_erase hj)], Function.update_self]
  omega

end PedraDb.Kway
