import Mathlib.Algebra.GroupWithZero.Nat
import Mathlib.Algebra.BigOperators.Group.List.Basic

/-! Runs of a partial step function.

A system is a step function on states and events that is undefined where an event is
not enabled. A run is a list of events, each enabled in the state the ones before it
lead to. `Along` says that every event of a run is taken in a state that meets a
condition; what such runs preserve is found step by step (`exec_invariant`).

Components that run side by side are kept in one list and are moved one at a time, by
position: the `set` lemmas say what that does to what is said of all of them. -/
namespace Runs
open List
variable {σ ε β : Type} {step : σ → ε → Option σ} {i : Nat} {ok : σ → ε → Bool} {es : List ε}

/-- The state after the events, if each of them is enabled. -/
def exec (step : σ → ε → Option σ) : σ → List ε → Option σ
  | s, [] => some s
  | s, e :: es =>
    match step s e with
    | none => none
    | some s' => exec step s' es

/-- Each event is taken in a state where the condition holds. -/
def Along (step : σ → ε → Option σ) (ok : σ → ε → Bool) : σ → List ε → Bool
  | _, [] => true
  | s, e :: es =>
    ok s e &&
      match step s e with
      | none => true
      | some s' => Along step ok s' es

/-- **Invariants of the runs that meet a condition.** What holds first and is kept by
every step taken under the condition holds after every such run. -/
theorem exec_invariant {I : σ → Prop}
    (hstep : ∀ s e s', I s → ok s e = true → step s e = some s' → I s') {s s' : σ}
    (hinit : I s) (hok : Along step ok s es = true) (hrun : exec step s es = some s') : I s' := by
  induction es generalizing s with
  | nil =>
    cases hrun
    exact hinit
  | cons e es ih =>
    simp only [exec, Along, Bool.and_eq_true] at hrun hok
    cases hs : step s e with
    | none => simp [hs] at hrun
    | some s₁ =>
      simp only [hs] at hrun hok
      exact ih (hstep s e s₁ hinit hok.1 hs) hok.2 hrun

variable (step)

theorem along_true (s : σ) (es : List ε) : Along step (fun _ _ => true) s es = true := by
  induction es generalizing s with
  | nil => rfl
  | cons e es ih =>
    simp only [Along, Bool.true_and]
    cases step s e with
    | none => rfl
    | some s' => exact ih s'

theorem exec_append (s : σ) (es es' : List ε) :
    exec step s (es ++ es') = (exec step s es).bind fun s' => exec step s' es' := by
  induction es generalizing s with
  | nil => rfl
  | cons e es ih =>
    simp only [exec, cons_append]
    cases step s e with
    | none => rfl
    | some s₁ => exact ih s₁

variable {step}

theorem along_append {s s' : σ} {es' : List ε} (hok : Along step ok s (es ++ es') = true)
    (hrun : exec step s es = some s') :
    Along step ok s es = true ∧ Along step ok s' es' = true := by
  induction es generalizing s with
  | nil =>
    cases hrun
    exact ⟨rfl, hok⟩
  | cons e es ih =>
    simp only [exec, cons_append, Along, Bool.and_eq_true] at hrun hok ⊢
    cases hs : step s e with
    | none => simp [hs] at hrun
    | some s₁ =>
      simp only [hs] at hrun hok ⊢
      exact ⟨⟨hok.1, (ih hok.2 hrun).1⟩, (ih hok.2 hrun).2⟩

theorem along_and {ok' : σ → ε → Bool} {s : σ} (h : Along step ok s es = true)
    (h' : Along step ok' s es = true) :
    Along step (fun s e => ok s e && ok' s e) s es = true := by
  induction es generalizing s with
  | nil => rfl
  | cons e es ih =>
    simp only [Along, Bool.and_eq_true] at h h' ⊢
    refine ⟨⟨h.1, h'.1⟩, ?_⟩
    cases hs : step s e with
    | none => rfl
    | some s₁ =>
      simp only [hs] at h h'
      exact ih h.2 h'.2

/-! ### Components side by side -/

section Components
variable {α : Type} {l : List α} {a b : α}

theorem getElem?_set_cases {k : Nat} (h : (l.set i b)[k]? = some a) :
    k = i ∧ a = b ∨ k ≠ i ∧ l[k]? = some a := by
  rw [getElem?_set] at h
  by_cases hik : i = k
  · rw [if_pos hik] at h
    split at h
    · exact .inl ⟨hik.symm, (Option.some.inj h).symm⟩
    · cases h
  · rw [if_neg hik] at h
    exact .inr ⟨fun h' => hik h'.symm, h⟩

theorem mem_set_cases (h : a ∈ l.set i b) : a = b ∨ ∃ k, k ≠ i ∧ l[k]? = some a := by
  obtain ⟨k, hk⟩ := mem_iff_getElem?.mp h
  rcases getElem?_set_cases hk with ⟨_, rfl⟩ | ⟨hne, hk⟩
  · exact .inl rfl
  · exact .inr ⟨k, hne, hk⟩

section Kept
variable {c : α} (hi : l[i]? = some a) (hne : c ≠ a)
include hi hne

theorem getElem?_set_of_ne {k : Nat} (hk : l[k]? = some c) : (l.set i b)[k]? = some c := by
  rw [getElem?_set_ne, hk]
  rintro rfl
  rw [hi] at hk
  exact hne (Option.some.inj hk).symm

theorem mem_set_of_ne (hc : c ∈ l) : c ∈ l.set i b := by
  obtain ⟨k, hk⟩ := mem_iff_getElem?.mp hc
  exact mem_of_getElem? (getElem?_set_of_ne hi hne hk)

end Kept

theorem getElem?_concat_cases {k : Nat} (h : (l ++ [b])[k]? = some a) :
    l[k]? = some a ∨ k = l.length ∧ a = b := by
  rcases Nat.lt_or_ge k l.length with hk | hk
  · exact .inl (by rwa [getElem?_append_left hk] at h)
  rw [getElem?_append_right hk] at h
  have hlt := (List.getElem?_eq_some_iff.mp h).1
  rw [length_singleton] at hlt
  obtain rfl : k = l.length := by omega
  rw [Nat.sub_self] at h
  exact .inr ⟨rfl, (Option.some.inj h).symm⟩

theorem set_self (h : l[i]? = some a) : l.set i a = l := by
  obtain ⟨_, rfl⟩ := List.getElem?_eq_some_iff.mp h
  exact set_getElem_self _

/-- What holds of all components still does after one of them moved, if it holds of that
one. -/
theorem forall_set {P : α → Prop} (hl : ∀ a ∈ l, P a) (hb : P b) : ∀ a ∈ l.set i b, P a := by
  intro a ha
  rcases mem_or_eq_of_mem_set ha with h | rfl
  · exact hl a h
  · exact hb

/-- A sum over the components moves by what the one component moves. -/
theorem sum_set {f : α → Nat} (h : l[i]? = some a) :
    ((l.set i b).map f).sum + f a = (l.map f).sum + f b := by
  induction l generalizing i with
  | nil => cases h
  | cons c l ih =>
    cases i with
    | zero =>
      obtain rfl : c = a := by simpa using h
      simp only [set_cons_zero, map_cons, sum_cons]
      omega
    | succ i =>
      have hrest := ih (i := i) h
      simp only [set_cons_succ, map_cons, sum_cons]
      omega

variable {f : α → List β}

theorem mem_flatMap_set {x : β} (h : x ∈ (l.set i b).flatMap f) : x ∈ l.flatMap f ∨ x ∈ f b := by
  obtain ⟨c, hc, hx⟩ := mem_flatMap.mp h
  rcases mem_or_eq_of_mem_set hc with hc | rfl
  · exact .inl (mem_flatMap.mpr ⟨c, hc, hx⟩)
  · exact .inr hx

theorem flatMap_set_subset (hi : l[i]? = some a) (hsub : f b ⊆ f a) :
    (l.set i b).flatMap f ⊆ l.flatMap f := by
  intro x hx
  rcases mem_flatMap_set hx with hx | hx
  · exact hx
  · exact mem_flatMap.mpr ⟨a, mem_of_getElem? hi, hsub hx⟩

end Components
end Runs
