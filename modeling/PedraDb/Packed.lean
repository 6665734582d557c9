import Mathlib.Data.Prod.Lex
import PedraDb.Sst.Index

/-! Keys of up to 32 bytes in the memtable's index.

A short key is packed as the two numbers that its first 32 bytes give, with zeros past its
end, and its length. Packed keys are in the order of the keys (`packed_in_order`). -/
namespace PedraDb.Packed
open List Bytes Sst

abbrev PackKey := Nat ×ₗ Nat ×ₗ Nat

/-- The first 32 bytes as two big-endian words, filled up with zeros. -/
def pack32 (key : Key) : Nat × Nat := (beWindow 16 key, beWindow 16 (key.drop 16))

/-- The words and then the length, compared in this order. -/
def packKey (key : Key) : PackKey := toLex ((pack32 key).1, toLex ((pack32 key).2, key.length % 2 ^ 16))

def boundLenLe32 : Bound → Bool
  | .unbounded => true
  | .included k | .excluded k => decide (k.length ≤ 32)

inductive PackedBound where
  | unbounded
  | included (key : PackKey)
  | excluded (key : PackKey)

/-- The bound over packed keys. -/
def packedShortBound : Bound → PackedBound
  | .included k => .included (packKey k)
  | .excluded k => .excluded (packKey k)
  | .unbounded => .unbounded

def PackedBound.above : PackedBound → PackKey → Bool
  | .unbounded, _ => true
  | .included s, key => decide (s ≤ key)
  | .excluded s, key => decide (s < key)

def PackedBound.below : PackedBound → PackKey → Bool
  | .unbounded, _ => true
  | .included e, key => decide (key ≤ e)
  | .excluded e, key => decide (key < e)

variable {a b : Key} {n : Nat}

theorem beWindow_append (m n : Nat) (key : Key) :
    beWindow (m + n) key = beWindow m key * 256 ^ n + beWindow n (key.drop m) := by
  induction m generalizing key with
  | zero => simp [beWindow]
  | succ m ih =>
    cases key with
    | nil => cases n <;> simp [beWindow]
    | cons x key =>
      simp only [Nat.succ_add, beWindow, drop_succ_cons, ih, Nat.pow_add, Nat.add_mul,
        Nat.mul_assoc, Nat.add_assoc]

/-- Of two keys with one window, the larger goes on with zeros. -/
theorem length_lt_of_beWindow_eq (h : a < b) (hb : b.length ≤ n)
    (heq : beWindow n a = beWindow n b) : a.length < b.length := by
  induction n generalizing a b with
  | zero =>
    rw [length_eq_zero_iff.mp (Nat.le_zero.mp hb)] at h
    exact absurd h (not_lt_nil a)
  | succ n ih =>
    cases b with
    | nil => exact absurd h (not_lt_nil a)
    | cons y b =>
      cases a with
      | nil => exact Nat.succ_pos _
      | cons x a =>
        simp only [beWindow] at heq
        rcases cons_lt_cons_iff.mp h with hlt | ⟨rfl, hlt⟩
        · have ha := beWindow_lt n a
          have hxy : (x.toNat + 1) * 256 ^ n ≤ y.toNat * 256 ^ n := Nat.mul_le_mul_right _ hlt
          rw [Nat.succ_mul] at hxy
          omega
        · exact Nat.succ_lt_succ (ih hlt (Nat.le_of_succ_le_succ hb) (Nat.add_left_cancel heq))

/-- Packing keeps the order, and the length settles what zeros hide. -/
theorem packKey_lt (h : a < b) (hb : b.length ≤ 32) : packKey a < packKey b := by
  have hle : beWindow 32 a ≤ beWindow 32 b := Nat.not_lt.mp fun hgt =>
    List.lt_asymm h (lt_of_beWindow_lt hgt)
  have hlen := length_lt_of_beWindow_eq h hb
  rw [beWindow_append 16 16 a, beWindow_append 16 16 b] at hle hlen
  have ha' := beWindow_lt 16 (a.drop 16)
  have hb' := beWindow_lt 16 (b.drop 16)
  simp only [packKey, pack32, Prod.Lex.toLex_lt_toLex]
  omega

theorem packKey_lt_iff (ha : a.length ≤ 32) (hb : b.length ≤ 32) : packKey a < packKey b ↔ a < b := by
  refine ⟨fun h => ?_, fun h => packKey_lt h hb⟩
  rcases Std.lt_trichotomy a b with hlt | rfl | hgt
  · exact hlt
  · exact absurd h (lt_irrefl _)
  · exact absurd h (packKey_lt hgt ha).asymm

theorem packKey_le_iff (ha : a.length ≤ 32) (hb : b.length ≤ 32) : packKey a ≤ packKey b ↔ a ≤ b := by
  rw [← not_lt, packKey_lt_iff hb ha, List.not_lt]

theorem packKey_inj (ha : a.length ≤ 32) (hb : b.length ≤ 32) (h : packKey a = packKey b) : a = b :=
  List.le_antisymm ((packKey_le_iff ha hb).mp h.le) ((packKey_le_iff hb ha).mp h.ge)

/-- A bound is the same over packed keys. -/
theorem packedShortBound_same {bound : Bound} (hbound : boundLenLe32 bound = true) (ha : a.length ≤ 32) :
    (packedShortBound bound).above (packKey a) = bound.above a ∧
      (packedShortBound bound).below (packKey a) = bound.below a := by
  cases bound with
  | unbounded => exact ⟨rfl, rfl⟩
  | included k =>
    have hk := of_decide_eq_true hbound
    exact ⟨decide_eq_decide.mpr (packKey_le_iff hk ha), decide_eq_decide.mpr (packKey_le_iff ha hk)⟩
  | excluded k =>
    have hk := of_decide_eq_true hbound
    exact ⟨decide_eq_decide.mpr (packKey_lt_iff hk ha), decide_eq_decide.mpr (packKey_lt_iff ha hk)⟩

/-- **Packed keys are in the order of the keys**, and a bound selects the same of them. -/
theorem packed_in_order :
    (∀ a b : Key, a.length ≤ 32 → b.length ≤ 32 → (packKey a < packKey b ↔ a < b) ∧
      (packKey a = packKey b ↔ a = b)) ∧
      ∀ (b : Bound) (key : Key), boundLenLe32 b = true → key.length ≤ 32 →
        (packedShortBound b).above (packKey key) = b.above key ∧
        (packedShortBound b).below (packKey key) = b.below key :=
  ⟨fun _ _ ha hb => ⟨packKey_lt_iff ha hb, packKey_inj ha hb, congrArg _⟩,
    fun _ _ hb hkey => packedShortBound_same hb hkey⟩

/-- **A range of packed keys** is that of the keys in the byte range, of any set of short keys; the
packed keys compare as the keys do, and two keys are never packed alike. -/
theorem packed_range (keys : List Key) (start stop : Bound) (hkeys : ∀ k ∈ keys, k.length ≤ 32)
    (hstart : boundLenLe32 start = true) (hstop : boundLenLe32 stop = true) :
    (∀ a ∈ keys, ∀ b ∈ keys, (packKey a < packKey b ↔ a < b) ∧ (packKey b < packKey a ↔ b < a) ∧
      (packKey a = packKey b → a = b)) ∧
      ((keys.map packKey).filter fun p =>
        (packedShortBound start).above p && (packedShortBound stop).below p) =
      (keys.filter fun k => start.above k && stop.below k).map packKey := by
  constructor
  · intro a ha b hb
    have ha := hkeys a ha
    have hb := hkeys b hb
    exact ⟨packKey_lt_iff ha hb, packKey_lt_iff hb ha, packKey_inj ha hb⟩
  · rw [filter_map]
    congr 1
    refine filter_congr fun k hk => ?_
    have ha := (packedShortBound_same hstart (hkeys k hk)).1
    have hb := (packedShortBound_same hstop (hkeys k hk)).2
    rw [Function.comp_apply, ha, hb]

/-- Zeros past the end leave the words and not the length. -/
theorem packed_range_zeros :
    pack32 [1] = pack32 [1, 0] ∧
      (([[1], [1, 0], [2]].map packKey).filter fun p =>
        (packedShortBound (.excluded [1])).above p && (packedShortBound .unbounded).below p) =
      [[1, 0], [2]].map packKey :=
  ⟨by decide, (packed_range [[1], [1, 0], [2]] (.excluded [1]) .unbounded (by decide) rfl rfl).2⟩

end PedraDb.Packed
