import Mathlib.Algebra.GroupWithZero.Nat

/-! Decimal numerals with leading zeros, as they stand in the names of files.

A numeral says its number whatever the zeros in front, and while all numerals have the
width they are padded to, texts and numbers are in the same order (`padded_not_lt`). -/
namespace PedraDb.Decimal
open List
variable {width n m : Nat} {a b : List Char} {c : Char}

/-- The numeral of `n`, with zeros in front up to `width` digits. -/
def padded (width n : Nat) : List Char := (Nat.toDigits 10 n).leftpad width '0'

@[simp] theorem ofDigitChars_padded (width n : Nat) : Nat.ofDigitChars 10 (padded width n) 0 = n := by
  rw [padded, leftpad, Nat.ofDigitChars_append, Nat.ofDigitChars_replicate_zero]
  simp

theorem padded_injective (h : padded width n = padded width m) : n = m := by
  rw [← ofDigitChars_padded width n, h, ofDigitChars_padded]

theorem isDigit_of_mem_padded (hc : c ∈ padded width n) : c.isDigit = true := by
  rcases mem_append.mp hc with hzero | hdigit
  · rw [eq_of_mem_replicate hzero]
    decide
  · exact Nat.isDigit_of_mem_toDigits (by decide) (by decide) hdigit

/-- A numeral keeps its width as long as the number fits. -/
theorem length_padded (hwidth : 0 < width) (n : Nat) :
    (padded width n).length = width ↔ n < 10 ^ width := by
  rw [padded, length_leftpad, ← Nat.length_toDigits_le_iff (by decide) hwidth]
  omega

/-! ### Order -/

/-- The leading digit counts by the length of the rest. -/
theorem ofDigitChars_cons (c : Char) (l : List Char) :
    Nat.ofDigitChars 10 (c :: l) 0 =
      10 ^ l.length * (c.toNat - '0'.toNat) + Nat.ofDigitChars 10 l 0 := by
  rw [Nat.ofDigitChars_cons, Nat.ofDigitChars_eq_ofDigitChars_zero]
  simp

theorem ofDigitChars_lt_pow (ha : ∀ c ∈ a, c.isDigit = true) :
    Nat.ofDigitChars 10 a 0 < 10 ^ a.length := by
  induction a with
  | nil => simp
  | cons c a ih =>
    have hrest := ih fun d hd => ha d (mem_cons_of_mem _ hd)
    have hc : c.toNat ≤ '9'.toNat := (Char.isDigit_iff_toNat.mp (ha c mem_cons_self)).2
    have hdigit : c.toNat - '0'.toNat ≤ 9 := by
      simp only [Char.reduceToNat] at hc ⊢
      omega
    rw [ofDigitChars_cons, length_cons, pow_succ]
    have := Nat.mul_le_mul_left (10 ^ a.length) hdigit
    omega

/-- Among numerals of one length the smaller text is the smaller number. -/
theorem ofDigitChars_lt_of_lt (hlen : a.length = b.length) (ha : ∀ c ∈ a, c.isDigit = true)
    (hb : ∀ c ∈ b, c.isDigit = true) (h : a < b) :
    Nat.ofDigitChars 10 a 0 < Nat.ofDigitChars 10 b 0 := by
  induction a generalizing b with
  | nil =>
    obtain rfl : b = [] := length_eq_zero_iff.mp hlen.symm
    exact absurd h (List.lt_irrefl _)
  | cons c a ih =>
    cases b with
    | nil => cases hlen
    | cons d b =>
      have htails : a.length = b.length := Nat.succ.inj hlen
      have hrest : ∀ x ∈ a, x.isDigit = true := fun x hx => ha x (mem_cons_of_mem _ hx)
      have hrest' : ∀ x ∈ b, x.isDigit = true := fun x hx => hb x (mem_cons_of_mem _ hx)
      rw [ofDigitChars_cons, ofDigitChars_cons, htails]
      rcases cons_lt_cons_iff.mp h with hcd | ⟨rfl, hab⟩
      · -- the first digit outweighs all that follow
        have hc := (Char.isDigit_iff_toNat.mp (ha c mem_cons_self)).1
        have hcd : c.toNat < d.toNat := hcd
        have hstep : c.toNat - '0'.toNat + 1 ≤ d.toNat - '0'.toNat := by omega
        have hmul := Nat.mul_le_mul_left (10 ^ b.length) hstep
        have htail := htails ▸ ofDigitChars_lt_pow hrest
        rw [Nat.mul_add, Nat.mul_one] at hmul
        omega
      · have := ih htails hrest hrest' hab
        omega

/-- Numerals of one width are in the order of their numbers. -/
theorem padded_not_lt (hwidth : 0 < width) (hm : m < 10 ^ width) (hle : n ≤ m) :
    ¬ padded width m < padded width n := by
  have hlen : (padded width m).length = (padded width n).length :=
    ((length_padded hwidth m).mpr hm).trans
      ((length_padded hwidth n).mpr (Nat.lt_of_le_of_lt hle hm)).symm
  intro hlt
  have hvalue := ofDigitChars_lt_of_lt hlen (fun _ => isDigit_of_mem_padded)
    (fun _ => isDigit_of_mem_padded) hlt
  simp only [ofDigitChars_padded] at hvalue
  omega

end PedraDb.Decimal
