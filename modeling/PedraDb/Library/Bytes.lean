import Mathlib.Data.List.Induction
import Mathlib.Data.List.Lex

/-! Byte strings in lexicographic order.

The strings that start with a given one are an interval: from the string itself to the
least one above them all, which is got by dropping the trailing `0xff` bytes and raising
the last byte that is left (`isPrefix_iff`). Putting a common prefix in front of two
strings does not change their order. Intervals are given by bounds. -/
namespace PedraDb.Bytes
open List

/-- One end of an interval. -/
inductive Bound where
  | unbounded
  | included (key : List UInt8)
  | excluded (key : List UInt8)
  deriving DecidableEq

def Bound.above : Bound → List UInt8 → Bool
  | .unbounded, _ => true
  | .included s, key => decide (s ≤ key)
  | .excluded s, key => decide (s < key)

def Bound.below : Bound → List UInt8 → Bool
  | .unbounded, _ => true
  | .included e, key => decide (key ≤ e)
  | .excluded e, key => decide (key < e)

def inBounds (start stop : Bound) (key : List UInt8) : Bool := start.above key && stop.below key

/-! ### Order -/

section Order
variable {x y z : List UInt8}

theorem append_lt_append (p : List UInt8) : p ++ x < p ++ y ↔ x < y := by
  induction p with
  | nil => rfl
  | cons b p ih => simpa [cons_lt_cons_iff] using ih

theorem append_le_append (p : List UInt8) : p ++ x ≤ p ++ y ↔ x ≤ y := by
  rw [← List.not_lt, ← List.not_lt, append_lt_append]

theorem lt_or_ge (x y : List UInt8) : x < y ∨ y ≤ x := by
  by_cases h : x < y
  · exact .inl h
  · exact .inr (List.not_lt.mp h)

theorem Bound.above_mono {b : Bound} (h : x ≤ y) (hx : b.above x = true) : b.above y = true := by
  cases b with
  | unbounded => rfl
  | included s => exact decide_eq_true (List.le_trans (of_decide_eq_true hx) h)
  | excluded s => exact decide_eq_true (Std.lt_of_lt_of_le (of_decide_eq_true hx) h)

theorem Bound.below_mono {b : Bound} (h : x ≤ y) (hy : b.below y = true) : b.below x = true := by
  cases b with
  | unbounded => rfl
  | included e => exact decide_eq_true (List.le_trans h (of_decide_eq_true hy))
  | excluded e => exact decide_eq_true (List.lt_of_le_of_lt h (of_decide_eq_true hy))

theorem ite_lt_le (x y z : List UInt8) :
    decide ((if x < y then y else x) ≤ z) = (decide (x ≤ z) && decide (y ≤ z)) := by
  rw [← Bool.decide_and, decide_eq_decide]
  split
  · rename_i hlt
    exact ⟨fun h => ⟨List.le_of_lt (Std.lt_of_lt_of_le hlt h), h⟩, fun h => h.2⟩
  · rename_i hge
    exact ⟨fun h => ⟨h, List.le_trans (List.not_lt.mp hge) h⟩, fun h => h.1⟩

theorem lt_ite_lt (x y z : List UInt8) :
    decide (z < if y < x then y else x) = (decide (z < x) && decide (z < y)) := by
  rw [← Bool.decide_and, decide_eq_decide]
  split
  · rename_i hlt
    exact ⟨fun h => ⟨List.lt_trans h hlt, h⟩, fun h => h.2⟩
  · rename_i hge
    exact ⟨fun h => ⟨h, Std.lt_of_lt_of_le h (List.not_lt.mp hge)⟩, fun h => h.1⟩

end Order

/-! ### Strings with a common prefix -/

/-- Raise the last byte that can be raised; the string is reversed. -/
def bump : List UInt8 → Option (List UInt8)
  | [] => none
  | b :: rest => if b < 0xff then some ((b + 1) :: rest) else bump rest

/-- The least string above all that start with `p`, if there is one. -/
def prefixEnd (p : List UInt8) : Option (List UInt8) := (bump p.reverse).map List.reverse

/-- The end of the interval of the strings that start with `p`. -/
def prefixStop (p : List UInt8) : Bound :=
  match prefixEnd p with
  | some e => .excluded e
  | none => .unbounded

theorem prefixEnd_concat (p : List UInt8) (b : UInt8) :
    prefixEnd (p ++ [b]) = if b < 0xff then some (p ++ [b + 1]) else prefixEnd p := by
  rw [prefixEnd, reverse_append, reverse_singleton, singleton_append, bump]
  split
  · simp
  · rfl

theorem isPrefix_concat_iff {b : UInt8} (hb : b < 0xff) (p key : List UInt8) :
    p ++ [b] <+: key ↔ p ++ [b] ≤ key ∧ key < p ++ [b + 1] := by
  induction p generalizing key with
  | nil =>
    cases key with
    | nil =>
      have : ¬ [b] ≤ [] := List.not_le.mpr (nil_lt_cons _ _)
      simp [this]
    | cons c t =>
      have hle : [b] ≤ c :: t ↔ b ≤ c := by
        rw [← List.not_lt, cons_lt_cons_iff]
        simp
      have hlt : c :: t < [b + 1] ↔ c < b + 1 := by
        rw [cons_lt_cons_iff]
        simp
      simp only [nil_append, cons_prefix_cons, nil_prefix, and_true, hle, hlt]
      constructor
      · rintro rfl
        refine ⟨UInt8.le_refl _, ?_⟩
        rw [UInt8.lt_iff_toNat_lt, UInt8.toNat_add]
        rw [UInt8.lt_iff_toNat_lt] at hb
        simp only [UInt8.reduceToNat] at hb ⊢
        omega
      · rintro ⟨h, h'⟩
        rw [UInt8.lt_iff_toNat_lt, UInt8.toNat_add] at h'
        rw [UInt8.le_iff_toNat_le] at h
        refine UInt8.toNat_inj.mp ?_
        simp only [UInt8.reduceToNat] at hb h'
        omega
  | cons a p ih =>
    cases key with
    | nil =>
      have : ¬ a :: (p ++ [b]) ≤ [] := List.not_le.mpr (nil_lt_cons _ _)
      simp [this]
    | cons c t =>
      have hle : a :: (p ++ [b]) ≤ c :: t ↔ a < c ∨ a = c ∧ p ++ [b] ≤ t := cons_le_cons_iff
      rw [cons_append, cons_append, cons_prefix_cons, ih, cons_lt_cons_iff, hle]
      constructor
      · rintro ⟨rfl, hge, hlt⟩
        exact ⟨.inr ⟨rfl, hge⟩, .inr ⟨rfl, hlt⟩⟩
      · rintro ⟨hge | ⟨rfl, hge⟩, hlt | ⟨heq, hlt⟩⟩
        · exact absurd (UInt8.lt_trans hge hlt) (UInt8.lt_irrefl _)
        · exact absurd hge (heq ▸ UInt8.lt_irrefl _)
        · exact absurd hlt (UInt8.lt_irrefl _)
        · exact ⟨rfl, hge, hlt⟩

/-- **The strings that start with `p` are an interval.** -/
theorem isPrefix_iff (p key : List UInt8) : p <+: key ↔ p ≤ key ∧ (prefixStop p).below key = true := by
  induction p using List.reverseRecOn with
  | nil =>
    have : ([] : List UInt8) ≤ key := List.not_lt.mp (not_lt_nil _)
    simp [this, prefixStop, prefixEnd, bump, Bound.below]
  | append_singleton p b ih =>
    by_cases hb : b < 0xff
    · rw [prefixStop, prefixEnd_concat, if_pos hb, isPrefix_concat_iff hb]
      simp [Bound.below]
    -- the last byte cannot be raised: the end is that of the rest
    have hstop : prefixStop (p ++ [b]) = prefixStop p := by
      rw [prefixStop, prefixEnd_concat, if_neg hb]
      rfl
    rw [hstop]
    constructor
    · intro h
      exact ⟨h.le, (ih.mp ((prefix_append p [b]).trans h)).2⟩
    · rintro ⟨hle, hbelow⟩
      have hp : p ≤ key := List.le_trans (prefix_append p [b]).le hle
      obtain ⟨t, rfl⟩ := ih.mpr ⟨hp, hbelow⟩
      rw [append_le_append] at hle
      refine (prefix_append_right_inj p).mpr ?_
      cases t with
      | nil => exact absurd (nil_lt_cons b []) (List.not_lt.mpr hle)
      | cons c t =>
        rcases cons_le_cons_iff.mp hle with hlt | ⟨rfl, _⟩
        · rw [UInt8.lt_iff_toNat_lt] at hb hlt
          have := c.toNat_lt
          simp only [UInt8.reduceToNat] at hb
          omega
        · simp

theorem isPrefix_between {p x y z : List UInt8} (hx : p <+: x) (hz : p <+: z) (h : x ≤ y)
    (h' : y ≤ z) : p <+: y :=
  (isPrefix_iff p y).mpr ⟨List.le_trans hx.le h, Bound.below_mono h' ((isPrefix_iff p z).mp hz).2⟩

/-- Below their end are the strings that start with `p`, and the smaller ones. -/
theorem below_prefixStop {p key : List UInt8} :
    (prefixStop p).below key = true ↔ key ≤ p ∨ p <+: key := by
  constructor
  · intro h
    rcases lt_or_ge key p with hlt | hge
    · exact .inl (List.le_of_lt hlt)
    · exact .inr ((isPrefix_iff p key).mpr ⟨hge, h⟩)
  · rintro (hle | hpre)
    · exact Bound.below_mono hle ((isPrefix_iff p p).mp (prefix_refl p)).2
    · exact ((isPrefix_iff p key).mp hpre).2

end PedraDb.Bytes
