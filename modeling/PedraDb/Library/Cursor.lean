import Mathlib.Data.List.Basic
import Mathlib.Data.Option.Basic

/-! A cursor over a sorted list of rows.

The reference for iterators: the cursor stands on a row or nowhere, a seek puts it on the
nearest row on one side of a key, and a move on the adjacent row. Restricting the rows to
an interval of keys keeps what a move finds, unless that is outside
(`head?_filter_below`, `getLast?_filter_above`). -/
namespace PedraDb.Cursor
open List

inductive Move (κ : Type) where
  | seekToFirst
  | seekToLast
  | seek (key : κ)
  | seekForPrev (key : κ)
  | next
  | prev
  deriving DecidableEq

section
variable {κ ν : Type} [LT κ] [LE κ] [DecidableLT κ] [DecidableLE κ]

/-- The row the cursor stands on after a move. -/
def move (rows : List (κ × ν)) (at_ : Option (κ × ν)) : Move κ → Option (κ × ν)
  | .seekToFirst => rows.head?
  | .seekToLast => rows.getLast?
  | .seek k => (rows.filter fun r => decide (k ≤ r.1)).head?
  | .seekForPrev k => (rows.filter fun r => decide (r.1 ≤ k)).getLast?
  | .next => at_.bind fun r => (rows.filter fun x => decide (r.1 < x.1)).head?
  | .prev => at_.bind fun r => (rows.filter fun x => decide (x.1 < r.1)).getLast?

end

section Ends
variable {α : Type} {R : α → α → Prop} {rows : List α} {keep : α → Bool}

theorem isChain_of_zip_tail (h : ∀ w ∈ rows.zip rows.tail, R w.1 w.2) : rows.IsChain R := by
  induction rows with
  | nil => exact .nil
  | cons r rows ih =>
    cases rows with
    | nil => exact .singleton _
    | cons x rows => exact .cons_cons (h _ mem_cons_self) (ih fun w hw => h w (mem_cons_of_mem _ hw))

section
variable (h : rows.Pairwise R)
include h

/-- The leading rows with a property that holds up to some row are all rows with it. -/
theorem takeWhile_eq_filter (hdown : ∀ a b, R a b → keep b = true → keep a = true) :
    rows.takeWhile keep = rows.filter keep := by
  induction rows with
  | nil => rfl
  | cons r rows ih =>
    obtain ⟨hfirst, hrest⟩ := pairwise_cons.mp h
    by_cases hr : keep r = true
    · rw [takeWhile_cons_of_pos hr, filter_cons_of_pos hr, ih hrest]
    · rw [takeWhile_cons_of_neg hr, filter_cons_of_neg hr, eq_comm]
      exact filter_eq_nil_iff.mpr fun x hx hx' => hr (hdown _ _ (hfirst x hx) hx')

/-- The first row with a property that is lost from some row on is the first row, if it has
the property. -/
theorem head?_filter_below (hdown : ∀ a b, R a b → keep b = true → keep a = true) :
    (rows.filter keep).head? = rows.head?.filter keep := by
  rw [← takeWhile_eq_filter h hdown, head?_takeWhile]

/-- The last row with a property that holds from some row on is the last row, if it has the
property. -/
theorem getLast?_filter_above (hup : ∀ a b, R a b → keep a = true → keep b = true) :
    (rows.filter keep).getLast? = rows.getLast?.filter keep := by
  rw [getLast?_eq_head?_reverse, getLast?_eq_head?_reverse, ← filter_reverse]
  exact head?_filter_below (pairwise_reverse.mpr h) fun a b hab => hup b a hab

/-- The rows after the leading ones with such a property are those without it. -/
theorem dropWhile_eq_filter (hdown : ∀ a b, R a b → keep b = true → keep a = true) :
    rows.dropWhile keep = rows.filter fun r => !keep r := by
  induction rows with
  | nil => rfl
  | cons r rows ih =>
    obtain ⟨hfirst, hrest⟩ := pairwise_cons.mp h
    by_cases hr : keep r = true
    · rw [dropWhile_cons_of_pos hr, filter_cons_of_neg (by simpa using hr), ih hrest]
    · rw [dropWhile_cons_of_neg hr, eq_comm]
      refine filter_eq_self.mpr (forall_mem_cons.mpr ⟨by simpa using hr, fun x hx => ?_⟩)
      simpa using fun hx' => hr (hdown _ _ (hfirst x hx) hx')

end

end Ends

section Sides
variable {κ ν : Type} [LT κ] [LE κ] [DecidableLT κ] [DecidableLE κ] [Std.IsLinearOrder κ]
    [Std.LawfulOrderLT κ]
variable {rows : List (κ × ν)} (hsorted : rows.Pairwise fun a b => a.1 < b.1)
include hsorted

theorem filter_sides {before after : List (κ × ν)} {r : κ × ν} (hrows : rows = before ++ r :: after) :
    rows.filter (fun x => decide (r.1 < x.1)) = after ∧ rows.filter (fun x => decide (r.1 ≤ x.1)) =
    r :: after ∧
      rows.filter (fun x => decide (x.1 < r.1)) = before ∧
      rows.filter (fun x => decide (x.1 ≤ r.1)) = before ++ [r] := by
  subst hrows
  obtain ⟨-, hafter, hcross⟩ := pairwise_append.mp hsorted
  have hlow : ∀ x ∈ before, x.1 < r.1 := fun x hx => hcross x hx r mem_cons_self
  have hhigh : ∀ x ∈ after, r.1 < x.1 := (pairwise_cons.mp hafter).1
  refine ⟨?_, ?_, ?_, ?_⟩
  · rw [filter_append, filter_eq_nil_iff.mpr fun x hx => by
      simpa using Std.not_lt.mpr (Std.le_of_lt (hlow x hx)),
      nil_append, filter_cons_of_neg (by simpa using Std.lt_irrefl),
      filter_eq_self.mpr fun x hx => by simpa using hhigh x hx]
  · rw [filter_append, filter_eq_nil_iff.mpr fun x hx => by
      simpa using Std.not_le.mpr (hlow x hx), nil_append,
      filter_eq_self.mpr fun x hx => ?_]
    rcases mem_cons.mp hx with rfl | hx
    · simp
    · simpa using Std.le_of_lt (hhigh x hx)
  · rw [filter_append, filter_eq_self.mpr fun x hx => by
      simpa using hlow x hx, filter_eq_nil_iff.mpr fun x hx => ?_, append_nil]
    rcases mem_cons.mp hx with rfl | hx
    · simpa using Std.lt_irrefl
    · simpa using Std.not_lt.mpr (Std.le_of_lt (hhigh x hx))
  · rw [filter_append, filter_eq_self.mpr fun x hx => by simpa using Std.le_of_lt (hlow x hx),
      filter_cons_of_pos (by simp),
      filter_eq_nil_iff.mpr fun x hx => by simpa using Std.not_le.mpr (hhigh x hx)]

theorem next_getElem? (i : Nat) : move rows rows[i]? .next = if i < rows.length then rows[i + 1]?
    else none := by
  split
  · rename_i hi
    have hrows : rows = rows.take i ++ rows[i] :: rows.drop (i + 1) := by
      rw [← drop_eq_getElem_cons hi, take_append_drop]
    rw [move, getElem?_eq_getElem hi, Option.bind_some, (filter_sides hsorted hrows).1, head?_drop]
  · rename_i hi
    rw [move, getElem?_eq_none (Nat.not_lt.mp hi)]
    rfl

theorem prev_getElem? (i : Nat) : move rows rows[i]? .prev = if 0 < i ∧ i < rows.length
    then rows[i - 1]? else none := by
  by_cases hi : i < rows.length
  · have hrows : rows = rows.take i ++ rows[i] :: rows.drop (i + 1) := by
      rw [← drop_eq_getElem_cons hi, take_append_drop]
    rw [move, getElem?_eq_getElem hi, Option.bind_some, (filter_sides hsorted hrows).2.2.1]
    cases i with
    | zero => rfl
    | succ i =>
      rw [if_pos ⟨Nat.succ_pos i, hi⟩, getLast?_take, if_neg (Nat.succ_ne_zero i), Nat.succ_sub_one,
        getElem?_eq_getElem (Nat.lt_of_succ_lt hi), Option.some_or]
  · rw [if_neg fun h => hi h.2, move, getElem?_eq_none (Nat.not_lt.mp hi)]
    rfl

end Sides

end PedraDb.Cursor
