import Mathlib.Order.Interval.Finset.Nat

/-! Numbers taken from a counter.

What a client took in order, it took in increasing order; if the counter stands exactly
as far on as the client took, then the client took everything in between. -/
namespace Counter

/-- An increasing list that fits into an interval of its own length fills it. -/
theorem mem_of_fills {l : List Nat} {c : Nat} (horder : l.Pairwise (· < ·)) (hlow : ∀ n ∈ l, c ≤ n)
    (hhigh : ∀ n ∈ l, n < c + l.length) {n : Nat} (hn : c ≤ n) (hn' : n < c + l.length) : n ∈ l := by
  have hnodup : l.Nodup := horder.imp ne_of_lt
  have hsub : l.toFinset ⊆ Finset.Ico c (c + l.length) := by
    intro m hm
    have hm := List.mem_toFinset.mp hm
    exact Finset.mem_Ico.mpr ⟨hlow m hm, hhigh m hm⟩
  have hcard : (Finset.Ico c (c + l.length)).card ≤ l.toFinset.card := by
    rw [List.toFinset_card_of_nodup hnodup, Nat.card_Ico]
    omega
  have heq := Finset.eq_of_subset_of_card_le hsub hcard
  exact List.mem_toFinset.mp (heq ▸ Finset.mem_Ico.mpr ⟨hn, hn'⟩)

theorem exists_ge_of_increasing {l : List Nat} {c : Nat} (horder : l.Pairwise (· < ·))
    (hlow : ∀ n ∈ l, c ≤ n)
    (hne : l ≠ []) : ∃ n ∈ l, c + l.length ≤ n + 1 := by
  induction l generalizing c with
  | nil => exact absurd rfl hne
  | cons a l ih =>
    cases l with
    | nil => exact ⟨a, by simp, by simpa using hlow a (by simp)⟩
    | cons b l =>
      have ha := List.pairwise_cons.mp horder
      have hc := hlow a (by simp)
      obtain ⟨n, hn, hle⟩ := ih (c := c + 1) ha.2 (fun m hm =>
        Nat.succ_le_of_lt (lt_of_le_of_lt hc (ha.1 m hm))) (by simp)
      refine ⟨n, List.mem_cons_of_mem _ hn, ?_⟩
      simp only [List.length_cons] at hle ⊢
      omega

end Counter
