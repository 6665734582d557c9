import PedraDb.Families.Window
import PedraDb.Library.Runs

/-! The raw iterator of a family.

The raw iterator takes moves in both directions. A walk has one direction, so a turn opens
a new walk at the current key; the bounds are applied after each move. It is meant as a
cursor over the keys of its family inside the bounds.

A backward walk starts below the *prefix* successor of its key, so it starts at a key that
extends the key it was asked for, if there is one (`seek_for_prev_overshoots`), and `prev`
from a key with extensions goes up. `seek_to_first` does not look at the upper bound, and
`seek_to_last` without an upper bound not at the lower one. A failed page read ends the
walk, and `status` does not tell. Apart from that the iterator is the cursor
(`raw_iterator_as_cursor`). -/
namespace PedraDb.Families
open List
open Cursor (Move move)
variable {d : DBIterator}

structure RawIterator where
  inner : Option DBIterator
  lower : Option Key
  upper : Option Key
  /-- The walk goes down. -/
  rev : Bool
  deriving DecidableEq

open RawIterator

namespace RawIterator
variable (c : Content) (cf : Key) (it : RawIterator)

def valid : Bool := it.inner.any DBIterator.valid

def current : Option Row := it.inner.bind DBIterator.current

def key : Option Key := it.current.map Prod.fst

def value : Option Value := it.current.map Prod.snd

/-- It reports no error, whatever the walk has met. -/
def status (_ : RawIterator) : Except Unit Unit := .ok ()

def reopen (mode : IteratorMode) : RawIterator := { it with inner := scanCfAt c cf mode .none }

def advance : RawIterator := { it with inner := it.inner.map (DBIterator.advance c cf) }

def clampToLower : RawIterator :=
  match it.lower with
  | none => it
  | some lo => if it.key.any fun k => decide (k < lo) then { it with inner := none } else it

def skipPastUpper : RawIterator :=
  match it.upper with
  | none => it
  | some hi => if it.key.any fun k => decide (hi ≤ k) then { it with inner := none } else it

/-- Down to below the upper bound. -/
def stepPrevPastUpper : Nat → RawIterator → RawIterator
  | 0, it => it
  | fuel + 1, it =>
    match it.upper with
    | none => it
    | some hi =>
      if it.key.any fun k => decide (hi ≤ k) then stepPrevPastUpper fuel (it.advance c cf) else it

def seekToFirst : RawIterator :=
  { it with rev := false }.reopen c cf (match it.lower with
    | some k => .seek k .forward
    | none => .start)

def seekToLast : RawIterator :=
  match it.upper with
  | some hi =>
    (stepPrevPastUpper c cf (c.rows cf).length
      ({ it with rev := true }.reopen c cf (.seek hi .reverse))).clampToLower
  | none => { it with rev := true }.reopen c cf .stop

def raised (k : Key) : Key :=
  match it.lower with
  | some lo => if k < lo then lo else k
  | none => k

def seek (k : Key) : RawIterator :=
  ({ it with rev := false }.reopen c cf (.seek (it.raised k) .forward)).skipPastUpper

def seekForPrev (k : Key) : RawIterator :=
  (stepPrevPastUpper c cf (c.rows cf).length
    ({ it with rev := true }.reopen c cf (.seek k .reverse))).clampToLower

def next : RawIterator :=
  if it.rev then
    match it.key with
    | some k =>
      let owned := it.raised k
      let it := { it.reopen c cf (.seek owned .forward) with rev := false }
      (if it.key = some owned then it.advance c cf else it).skipPastUpper
    | none => { it with inner := none }
  else (it.advance c cf).skipPastUpper

def prev : RawIterator :=
  match it.key with
  | some k =>
    let it := { it with rev := true }.reopen c cf (.seek k .reverse)
    (if it.key = some k then it.advance c cf else it).clampToLower
  | none => { it with rev := true, inner := none }

def move : Move Key → RawIterator
  | .seekToFirst => it.seekToFirst c cf
  | .seekToLast => it.seekToLast c cf
  | .seek k => it.seek c cf k
  | .seekForPrev k => it.seekForPrev c cf k
  | .next => it.next c cf
  | .prev => it.prev c cf

def blank (lower upper : Option Key) : RawIterator := ⟨none, lower, upper, true⟩

/-- A new iterator stands on the first key. -/
def openCf (lower upper : Option Key) : RawIterator := (blank lower upper).seekToFirst c cf

end RawIterator

/-- The move asks for nothing the iterator gets wrong. -/
def RawIterator.regular (c : Content) (cf : Key) (it : RawIterator) : Move Key → Bool
  | .seekToFirst =>
    ((c.rows cf).filter fun r => aboveLower it.lower r.1).head?.all fun r => belowUpper it.upper r.1
  | .seekToLast => it.upper.isSome || (c.rows cf).getLast?.all fun r => aboveLower it.lower r.1
  | .seekForPrev k => (c.rows cf).all fun r => !(k.isPrefixOf r.1 && r.1 != k && belowUpper it.upper r.1)
  | .prev => it.key.all fun k => (c.rows cf).all fun r => !(k.isPrefixOf r.1 && r.1 != k)
  | _ => true

/-! ### Where the iterator stands -/

section Stands
variable (c : Content) (cf : Key)

/-- The iterator stands where the cursor does, on a walk that can go on from there. -/
structure Stands (lower upper : Option Key) (it : RawIterator) (at_ : Option Row) : Prop where
  bounds : it.lower = lower ∧ it.upper = upper
  position : at_ = none ∧ it.current = none ∨
    ∃ r d before after, at_ = some r ∧ it.inner = some d ∧ c.rows cf = before ++ r :: after ∧
      aboveLower lower r.1 = true ∧ belowUpper upper r.1 = true ∧
      (it.rev = false ∧ Forward c cf d (r :: after) ∨ it.rev = true ∧ Backward c cf d (before ++ [r]))

variable {c cf} {lower upper : Option Key} {it : RawIterator} {at_ : Option Row}

theorem Stands.current (h : Stands c cf lower upper it at_) : it.current = at_ := by
  rcases h.position with ⟨rfl, hnone⟩ | ⟨r, d, before, after, rfl, hinner, -, -, -, ⟨-, hd⟩ | ⟨-, hd⟩⟩
  · exact hnone
  · rw [current, hinner]
    exact hd.current
  · rw [current, hinner]
    exact hd.current.trans (by simp)

section
variable (it : RawIterator)

theorem RawIterator.valid_eq : it.valid = it.current.isSome := by
  rw [valid, current]
  cases it.inner with
  | none => rfl
  | some d =>
    rw [Bool.eq_iff_iff]
    simp [DBIterator.valid, DBIterator.current]

theorem RawIterator.key_eq : it.key = it.current.map Prod.fst := rfl

theorem RawIterator.skipPastUpper_eq :
    it.skipPastUpper = if it.current.any fun r => !belowUpper it.upper r.1
    then { it with inner := none } else it := by
  rw [skipPastUpper, key_eq]
  cases it.upper with
  | none => cases it.current <;> simp [belowUpper]
  | some hi => cases it.current <;> simp [belowUpper]

theorem RawIterator.clampToLower_eq :
    it.clampToLower = if it.current.any fun r => !aboveLower it.lower r.1
    then { it with inner := none } else it := by
  rw [clampToLower, key_eq]
  cases it.lower with
  | none => cases it.current <;> simp [aboveLower]
  | some lo => cases it.current <;> simp [aboveLower]

/-- A forward walk whose first row is above the lower bound, cut at the upper one. -/
theorem stands_forward {before left : List Row} (hbounds : it.lower = lower ∧ it.upper = upper)
    (hinner : it.inner = some d) (hrev : it.rev = false) (hd : Forward c cf d left)
    (hrows : c.rows cf = before ++ left)
    (hlow : ∀ r, left.head? = some r → aboveLower lower r.1 = true) :
    Stands c cf lower upper it.skipPastUpper (left.head?.filter fun r => belowUpper upper r.1) := by
  have hcurrent : it.current = left.head? := by rw [current, hinner]; exact hd.current
  rw [it.skipPastUpper_eq, hcurrent, hbounds.2]
  cases left with
  | nil =>
    refine ⟨hbounds, .inl ⟨rfl, ?_⟩⟩
    simpa using hcurrent
  | cons r left =>
    by_cases hup : belowUpper upper r.1 = true
    · refine ⟨by simp [hup, hbounds], .inr ⟨r, d, before, left,
        by simp [Option.filter, hup], ?_, hrows, hlow r rfl, hup, .inl ?_⟩⟩
      · simpa [hup] using hinner
      · simpa [hup] using ⟨hrev, hd⟩
    · refine ⟨by simp [hup, hbounds], .inl ⟨by simp [Option.filter, hup], ?_⟩⟩
      simp [hup, current]

/-- A backward walk whose last row is below the upper bound, cut at the lower one. -/
theorem stands_backward {left after : List Row} (hbounds : it.lower = lower ∧ it.upper = upper)
    (hinner : it.inner = some d) (hrev : it.rev = true) (hd : Backward c cf d left)
    (hrows : c.rows cf = left ++ after)
    (hhigh : ∀ r, left.getLast? = some r → belowUpper upper r.1 = true) :
    Stands c cf lower upper it.clampToLower (left.getLast?.filter fun r => aboveLower lower r.1) := by
  have hcurrent : it.current = left.getLast? := by rw [current, hinner]; exact hd.current
  rw [it.clampToLower_eq, hcurrent, hbounds.1]
  rcases eq_nil_or_concat left with rfl | ⟨before, r, rfl⟩
  · refine ⟨hbounds, .inl ⟨rfl, ?_⟩⟩
    simpa using hcurrent
  rw [concat_eq_append] at *
  have hlast : (before ++ [r]).getLast? = some r := by simp
  rw [hlast]
  by_cases hlow : aboveLower lower r.1 = true
  · refine ⟨by simp [hlow, hbounds], .inr ⟨r, d, before, after,
      by simp [Option.filter, hlow], ?_, by simpa using hrows, hlow,
      hhigh r hlast, .inr ?_⟩⟩
    · simpa [hlow] using hinner
    · simpa [hlow] using ⟨hrev, hd⟩
  · refine ⟨by simp [hlow, hbounds], .inl ⟨by simp [Option.filter, hlow], ?_⟩⟩
    simp [hlow, current]

end

end Stands

/-! ### The rows inside the bounds -/

section Bounded
variable (c : Content) (cf : Key) (lower upper : Option Key)

theorem belowUpper_down {a b : Key} (hlt : a < b) (hb : belowUpper upper b = true) :
    belowUpper upper a = true := by
  cases upper with
  | none => rfl
  | some hi => simpa [belowUpper] using List.lt_trans hlt (by simpa [belowUpper] using hb)

theorem aboveLower_up {a b : Key} (hlt : a < b) (ha : aboveLower lower a = true) :
    aboveLower lower b = true := by
  cases lower with
  | none => rfl
  | some lo => simpa [aboveLower] using List.le_trans (by simpa [aboveLower] using ha) (List.le_of_lt hlt)

variable (keep keep' : Row → Bool)

/-- The first row inside the bounds on one side of a key. -/
theorem bounded_head (hkeep : ∀ r, (aboveLower lower r.1 && keep' r) = keep r) :
    ((c.bounded cf lower upper).filter keep').head? =
      ((c.rows cf).filter keep).head?.filter fun r => belowUpper upper r.1 := by
  have hrows : (c.bounded cf lower upper).filter keep' =
      ((c.rows cf).filter keep).filter fun r => belowUpper upper r.1 := by
    rw [Content.bounded, filter_filter, filter_filter]
    refine filter_congr fun r _ => ?_
    rw [← hkeep r]
    cases aboveLower lower r.1 <;> cases keep' r <;> cases belowUpper upper r.1 <;> rfl
  rw [hrows]
  exact Cursor.head?_filter_below ((rows_ascending c cf).filter _) fun a b hlt =>
    belowUpper_down upper hlt

theorem bounded_last (hkeep : ∀ r ∈ c.rows cf, (belowUpper upper r.1 && keep' r) = keep r) :
    ((c.bounded cf lower upper).filter keep').getLast? =
      ((c.rows cf).filter keep).getLast?.filter fun r => aboveLower lower r.1 := by
  have hrows : (c.bounded cf lower upper).filter keep' =
      ((c.rows cf).filter keep).filter fun r => aboveLower lower r.1 := by
    rw [Content.bounded, filter_filter, filter_filter]
    refine filter_congr fun r hr => ?_
    rw [← hkeep r hr]
    cases aboveLower lower r.1 <;> cases keep' r <;> cases belowUpper upper r.1 <;> rfl
  rw [hrows]
  exact Cursor.getLast?_filter_above ((rows_ascending c cf).filter _) fun a b hlt =>
    aboveLower_up lower hlt

theorem rows_from (k : Key) : ((c.rows cf).filter fun r => decide (k ≤ r.1)) <:+ c.rows cf :=
  (from_included c cf k).suffix (rows_ascending c cf)

end Bounded

theorem RawIterator.raised_le (it : RawIterator) (k u : Key) :
    decide (it.raised k ≤ u) = (aboveLower it.lower u && decide (k ≤ u)) := by
  rw [raised]
  cases it.lower with
  | none => simp [aboveLower]
  | some lo =>
    rw [Bool.and_comm]
    exact Bytes.ite_lt_le k lo u

/-! ### Moves -/

section Moves
variable {c : Content} {cf : Key} {lower upper : Option Key} {it : RawIterator} {at_ : Option Row}

theorem stepPrevPastUpper_backward (hreads : ∀ start stop, c.fails start stop = false) (fuel : Nat)
    (it : RawIterator)
    {left : List Row} (hleft : left <+: c.rows cf) (hfuel : left.length ≤ fuel)
    (hinner : it.inner = some d)
    (hd : Backward c cf d left) : ∃ d', (stepPrevPastUpper c cf fuel it).inner = some d' ∧
      Backward c cf d' (left.filter fun r => belowUpper it.upper r.1) ∧
      (stepPrevPastUpper c cf fuel it).rev = it.rev ∧
      (stepPrevPastUpper c cf fuel it).lower = it.lower ∧
      (stepPrevPastUpper c cf fuel it).upper = it.upper := by
  have hsorted : Ascending left := (rows_ascending c cf).sublist hleft.sublist
  induction fuel generalizing it d left with
  | zero =>
    obtain rfl : left = [] := length_eq_zero_iff.mp (Nat.le_zero.mp hfuel)
    exact ⟨d, hinner, hd, rfl, rfl, rfl⟩
  | succ fuel ih =>
    rw [stepPrevPastUpper]
    cases hup : it.upper with
    | none =>
      have hall : (left.filter fun r => belowUpper none r.1) = left := filter_eq_self.mpr fun _ _ => rfl
      exact ⟨d, hinner, by rw [hall]; exact hd, rfl, rfl, hup⟩
    | some hi =>
      have hkey : it.key = left.getLast?.map Prod.fst := by
        rw [key_eq, current, hinner]
        exact congrArg _ hd.current
      simp only [hkey]
      split
      · -- the last row is not below the bound: one down
        rename_i hstep
        rcases eq_nil_or_concat left with rfl | ⟨before, r, rfl⟩
        · simp at hstep
        rw [concat_eq_append] at *
        have hr : hi ≤ r.1 := by simpa using hstep
        have hadv := hd.advance hreads
        rw [dropLast_concat] at hadv
        obtain ⟨d', hd'⟩ := ih (it.advance c cf) ((prefix_append before [r]).trans hleft)
          (by simpa using hfuel) (by rw [advance, hinner]; rfl) hadv (pairwise_append.mp hsorted).1
        have hfilter : ((before ++ [r]).filter fun r => belowUpper (some hi) r.1) =
            before.filter fun r => belowUpper (some hi) r.1 := by
          rw [filter_append, filter_cons_of_neg (by simpa [belowUpper] using hr), filter_nil, append_nil]
        refine ⟨d', hd'.1, ?_, hd'.2.2.1, hd'.2.2.2.1, hd'.2.2.2.2.trans hup⟩
        rw [hfilter]
        simpa [advance, hup] using hd'.2.1
      · rename_i hstay
        refine ⟨d, hinner, ?_, rfl, rfl, hup⟩
        have hall : (left.filter fun r => belowUpper (some hi) r.1) = left := by
          refine filter_eq_self.mpr fun x hx => ?_
          rcases eq_nil_or_concat left with rfl | ⟨before, r, rfl⟩
          · cases hx
          rw [concat_eq_append] at *
          have hr : r.1 < hi := by simpa using hstay
          rcases mem_append.mp hx with hx | hx
          · have hlt := (pairwise_append.mp hsorted).2.2 x hx r (by simp)
            simpa [belowUpper] using List.lt_trans hlt hr
          · rw [mem_singleton.mp hx]
            simpa [belowUpper] using hr
        rw [hall]
        exact hd

theorem RawIterator.advance_current (hnone : it.current = none) : (it.advance c cf).current = none := by
  rw [current] at hnone ⊢
  rw [advance]
  cases hinner : it.inner with
  | none => rfl
  | some d =>
    have hd : d.current = none := by simpa [hinner] using hnone
    have hvalid : d.valid = false := by simpa [DBIterator.current, DBIterator.valid] using hd
    show (d.advance c cf).current = none
    rw [DBIterator.advance, hvalid]
    exact hd

theorem RawIterator.skipPastUpper_of_none (hnone : it.current = none) : it.skipPastUpper = it := by
  rw [skipPastUpper_eq, hnone]
  rfl

variable (hreads : ∀ start stop, c.fails start stop = false) (hknown : cf = defaultFamily ∨ cf ∈ c.known)
include hreads hknown

/-- A forward walk from a key, cut at the upper bound, is a seek. -/
theorem seek_stands (hbounds : it.lower = lower ∧ it.upper = upper) (k : Key) :
    Stands c cf lower upper (it.seek c cf k) (move (c.bounded cf lower upper) at_ (.seek k)) := by
  obtain ⟨d, hopen, hd⟩ := scanCfAt_opened hreads hknown (.seek (it.raised k) .forward)
  have hraised : ∀ u, decide (it.raised k ≤ u) = (aboveLower lower u && decide (k ≤ u)) := by
    rw [← hbounds.1]
    exact it.raised_le k
  obtain ⟨before, hrows⟩ := rows_from c cf (it.raised k)
  have hstands :=
    stands_forward ({ it with rev := false }.reopen c cf (.seek (it.raised k) .forward)) hbounds
    hopen rfl hd
    hrows.symm fun r hr => by
      have := (mem_filter.mp (mem_of_mem_head? hr)).2
      rw [hraised, Bool.and_eq_true] at this
      exact this.1
  rw [Cursor.move, bounded_head c cf lower upper _ _ fun r => (hraised r.1).symm]
  exact hstands

/-- Both ways of opening at the start give the rows from the lower bound on. -/
theorem seekToFirst_forward (it : RawIterator) (hlower : it.lower = lower) :
    ∃ d before, (it.seekToFirst c cf).inner = some d ∧
    Forward c cf d ((c.rows cf).filter fun r => aboveLower lower r.1) ∧
    c.rows cf = before ++ (c.rows cf).filter fun r => aboveLower lower r.1 := by
  cases hlow : lower with
  | none =>
    have hall : ((c.rows cf).filter fun r => aboveLower none r.1) = c.rows cf :=
      filter_eq_self.mpr fun _ _ => rfl
    obtain ⟨d, hopen, hd⟩ := scanCfAt_opened hreads hknown .start
    refine ⟨d, [], ?_, by rw [hall]; exact hd, by rw [hall]; rfl⟩
    rw [seekToFirst, hlower, hlow]
    exact hopen
  | some lo =>
    obtain ⟨d, hopen, hd⟩ := scanCfAt_opened hreads hknown (.seek lo .forward)
    obtain ⟨before, hrows⟩ := rows_from c cf lo
    refine ⟨d, before, ?_, hd, hrows.symm⟩
    rw [seekToFirst, hlower, hlow]
    exact hopen

section
variable (hbounds : it.lower = lower ∧ it.upper = upper)
include hbounds

theorem seekToFirst_stands (hok : it.regular c cf .seekToFirst = true) :
    Stands c cf lower upper (it.seekToFirst c cf) (move (c.bounded cf lower upper) at_ .seekToFirst) := by
  simp only [regular, hbounds.1, hbounds.2] at hok
  obtain ⟨d, before, hinner, hd, hrows⟩ := seekToFirst_forward hreads hknown it hbounds.1
  have hstands := stands_forward (it.seekToFirst c cf) hbounds hinner rfl hd hrows fun r hr =>
    (mem_filter.mp (mem_of_mem_head? hr)).2
  -- the first row is below the upper bound, so nothing is cut
  have hskip : (it.seekToFirst c cf).skipPastUpper = it.seekToFirst c cf := by
    have hup : (it.seekToFirst c cf).upper = upper := hbounds.2
    have hcurrent : (it.seekToFirst c cf).current =
        ((c.rows cf).filter fun r => aboveLower lower r.1).head? := by
      rw [current, hinner]
      exact hd.current
    rw [skipPastUpper_eq, hcurrent, hup, if_neg]
    cases hhead : ((c.rows cf).filter fun r => aboveLower lower r.1).head? with
    | none => simp
    | some r => simpa [hhead] using hok
  rw [hskip] at hstands
  have hcursor := bounded_head c cf lower upper (fun r => aboveLower lower r.1) (fun _ => true) (by simp)
  rw [filter_true] at hcursor
  rw [Cursor.move, hcursor]
  exact hstands

/-- A backward walk from a key, cut at both bounds. -/
theorem backward_stands (k : Key) (keep' : Row → Bool)
    (hkeep : ∀ r ∈ c.rows cf, (belowUpper upper r.1 && keep' r) =
      (belowUpper upper r.1 && (decide (r.1 ≤ k) || k.isPrefixOf r.1))) :
    Stands c cf lower upper (stepPrevPastUpper c cf (c.rows cf).length
      ({ it with rev := true }.reopen c cf (.seek k .reverse))).clampToLower
      ((c.bounded cf lower upper).filter keep').getLast? := by
  obtain ⟨d, hopen, hd⟩ := scanCfAt_opened hreads hknown (.seek k .reverse)
  have hleft : ((c.rows cf).filter fun r => decide (r.1 ≤ k) || k.isPrefixOf r.1) <+: c.rows cf :=
    (upTo_backwardStop c cf k).isPrefix (rows_ascending c cf)
  obtain ⟨d', hinner, hd', hrev, hlow, hup⟩ := stepPrevPastUpper_backward hreads (c.rows cf).length
    ({ it with rev := true }.reopen c cf (.seek k .reverse)) hleft hleft.length_le hopen hd
  have hupper : ({ it with rev := true }.reopen c cf (.seek k .reverse)).upper = upper := hbounds.2
  obtain ⟨after, hrows⟩ := (Ascending.filter_isPrefix ((rows_ascending c cf).filter _)
    fun a b hlt => belowUpper_down upper hlt).trans hleft
  rw [hupper, filter_filter] at hd'
  rw [filter_filter] at hrows
  rw [bounded_last c cf lower upper _ _ hkeep]
  refine stands_backward _ ⟨hlow.trans hbounds.1, hup.trans hbounds.2⟩ hinner hrev hd' hrows.symm
    fun r hr => ?_
  have := (mem_filter.mp (mem_of_mem_getLast? hr)).2
  rw [Bool.and_eq_true] at this
  exact this.1

theorem seekForPrev_stands (k : Key) (hok : it.regular c cf (.seekForPrev k) = true) :
    Stands c cf lower upper (it.seekForPrev c cf k)
    (move (c.bounded cf lower upper) at_ (.seekForPrev k)) := by
  refine backward_stands hreads hknown hbounds k _ fun r hr => ?_
  have hr' := all_eq_true.mp hok r hr
  rw [hbounds.2] at hr'
  by_cases hpre : k.isPrefixOf r.1 = true
  · by_cases heq : r.1 = k
    · simp [heq]
    · have hup : belowUpper upper r.1 = false := by simpa [hpre, heq] using hr'
      simp [hup]
  · simp [hpre]

theorem seekToLast_stands (hok : it.regular c cf .seekToLast = true) :
    Stands c cf lower upper (it.seekToLast c cf) (move (c.bounded cf lower upper) at_ .seekToLast) := by
  rw [Cursor.move]
  cases hup : upper with
  | some hi =>
    subst hup
    have hseek : it.seekToLast c cf = (stepPrevPastUpper c cf (c.rows cf).length
        ({ it with rev := true }.reopen c cf (.seek hi .reverse))).clampToLower := by
      rw [seekToLast, hbounds.2]
    rw [hseek]
    have hcursor := backward_stands hreads hknown hbounds hi (fun _ => true) fun r _ => by
      by_cases hlt : r.1 < hi
      · simp [belowUpper, hlt, List.le_of_lt hlt]
      · simp [belowUpper, hlt]
    rwa [filter_true] at hcursor
  | none =>
    subst hup
    have hseek : it.seekToLast c cf = { it with rev := true }.reopen c cf .stop := by
      rw [seekToLast, hbounds.2]
    rw [hseek]
    obtain ⟨d, hopen, hd⟩ := scanCfAt_opened hreads hknown .stop
    have hstands := stands_backward ({ it with rev := true }.reopen c cf .stop) hbounds hopen rfl hd
      (append_nil _).symm
      fun _ _ => rfl
    have hcurrent : ({ it with rev := true }.reopen c cf .stop).current = (c.rows cf).getLast? := by
      have hinner : ({ it with rev := true }.reopen c cf .stop).inner = some d := hopen
      rw [current, hinner]
      exact hd.current
    -- the last row is above the lower bound, so nothing is cut
    have hclamp : ({ it with rev := true }.reopen c cf .stop).clampToLower =
        { it with rev := true }.reopen c cf .stop := by
      have hlow : ({ it with rev := true }.reopen c cf .stop).lower = lower := hbounds.1
      simp only [regular, hbounds.1, hbounds.2, Option.isSome_none, Bool.false_or] at hok
      rw [clampToLower_eq, hcurrent, hlow, if_neg]
      cases hlast : (c.rows cf).getLast? with
      | none => simp
      | some r => simpa [hlast] using hok
    rw [hclamp] at hstands
    have hcursor := bounded_last c cf lower none (fun _ => true) (fun _ => true) fun _ _ => rfl
    rw [filter_true, filter_true] at hcursor
    rw [hcursor]
    exact hstands

end

section
variable (h : Stands c cf lower upper it at_)
include h

theorem next_stands : Stands c cf lower upper (it.next c cf)
    (move (c.bounded cf lower upper) at_ .next) := by
  rcases h.position with ⟨rfl, hnone⟩ | ⟨r, d, before, after, rfl, hinner, hrows, hlow, hup, hwalk⟩
  · -- nowhere
    rw [RawIterator.next, key_eq, hnone]
    split
    · exact ⟨h.bounds, .inl ⟨rfl, rfl⟩⟩
    · have hadv : (it.advance c cf).current = none := advance_current hnone
      rw [skipPastUpper_of_none hadv]
      exact ⟨h.bounds, .inl ⟨rfl, hadv⟩⟩
  obtain ⟨hafter, hfrom, -, -⟩ := Cursor.filter_sides (rows_ascending c cf) hrows
  have hhigh : ∀ x, after.head? = some x → aboveLower lower x.1 = true := by
    intro x hx
    have hmem : x ∈ (c.rows cf).filter fun x => decide (r.1 < x.1) := by
      rw [hafter]
      exact mem_of_mem_head? hx
    exact aboveLower_up lower (of_decide_eq_true (mem_filter.mp hmem).2) hlow
  have hcursor : move (c.bounded cf lower upper) (some r) .next = after.head?.filter fun x =>
      belowUpper upper x.1 := by
    rw [← hafter]
    refine bounded_head c cf lower upper (fun x => decide (r.1 < x.1)) _ fun x => ?_
    by_cases hlt : r.1 < x.1
    · simp [hlt, aboveLower_up lower hlt hlow]
    · simp [hlt]
  have hrows' : c.rows cf = (before ++ [r]) ++ after := by simpa using hrows
  rw [hcursor]
  rcases hwalk with ⟨hrev, hd⟩ | ⟨hrev, -⟩
  · -- the walk goes on
    rw [RawIterator.next, hrev]
    refine stands_forward (it.advance c cf) h.bounds ?_ hrev (hd.advance hreads) hrows' hhigh
    rw [advance, hinner]
    rfl
  · -- a turn: the new walk starts on the same row
    have hkey : it.key = some r.1 := congrArg (Option.map Prod.fst) h.current
    have hraised : it.raised r.1 = r.1 := by
      rw [raised, h.bounds.1]
      cases lower with
      | none => rfl
      | some lo => exact if_neg (List.not_lt.mpr (of_decide_eq_true hlow))
    obtain ⟨d', hopen, hd'⟩ := scanCfAt_opened hreads hknown (.seek r.1 .forward)
    rw [Opened, hfrom] at hd'
    have hkey' : ({ it.reopen c cf (.seek r.1 .forward) with rev := false } : RawIterator).key =
        some r.1 := by
      rw [key_eq, current]
      simp only [reopen, hopen]
      exact congrArg (Option.map Prod.fst) hd'.current
    have hnext : it.next c cf =
        ({ it.reopen c cf (.seek r.1 .forward) with rev := false }.advance c cf).skipPastUpper := by
      rw [RawIterator.next, if_pos hrev, hkey]
      simp only [hraised]
      rw [if_pos hkey']
    rw [hnext]
    refine stands_forward _ h.bounds ?_ rfl (hd'.advance hreads) hrows' hhigh
    simp [advance, reopen, hopen]

theorem prev_stands (hok : it.regular c cf .prev = true) :
    Stands c cf lower upper (it.prev c cf) (move (c.bounded cf lower upper) at_ .prev) := by
  rcases h.position with ⟨rfl, hnone⟩ | ⟨r, d, before, after, rfl, -, hrows, hlow, hup, -⟩
  · rw [RawIterator.prev, key_eq, hnone]
    exact ⟨h.bounds, .inl ⟨rfl, rfl⟩⟩
  obtain ⟨-, -, hbefore, hupto⟩ := Cursor.filter_sides (rows_ascending c cf) hrows
  have hkey : it.key = some r.1 := congrArg (Option.map Prod.fst) h.current
  -- no row extends the key, so the walk starts on it
  have hall : ∀ x ∈ c.rows cf, (decide (x.1 ≤ r.1) || r.1.isPrefixOf x.1) = decide (x.1 ≤ r.1) := by
    intro x hx
    rw [regular, hkey] at hok
    exact upTo_regular (all_eq_true.mp hok x hx)
  obtain ⟨d', hopen, hd'⟩ := scanCfAt_opened hreads hknown (.seek r.1 .reverse)
  rw [Opened, filter_congr hall, hupto] at hd'
  have hkey' : ({ it with rev := true }.reopen c cf (.seek r.1 .reverse)).key = some r.1 := by
    rw [key_eq, current]
    simp only [reopen, hopen]
    exact congrArg (Option.map Prod.fst) (hd'.current.trans getLast?_concat)
  have hprev : it.prev c cf =
      (({ it with rev := true }.reopen c cf (.seek r.1 .reverse)).advance c cf).clampToLower := by
    rw [RawIterator.prev, hkey]
    simp [hkey']
  have hbelow : ∀ x ∈ before, x.1 < r.1 := by
    intro x hx
    rw [← hbefore] at hx
    exact of_decide_eq_true (mem_filter.mp hx).2
  have hcursor : move (c.bounded cf lower upper) (some r) .prev =
      before.getLast?.filter fun x => aboveLower lower x.1 := by
    rw [← hbefore]
    refine bounded_last c cf lower upper (fun x => decide (x.1 < r.1)) _ fun x _ => ?_
    by_cases hlt : x.1 < r.1
    · simp [hlt, belowUpper_down upper hlt hup]
    · simp [hlt]
  have hadv := hd'.advance hreads
  rw [dropLast_concat] at hadv
  rw [hcursor, hprev]
  refine stands_backward _ h.bounds ?_ rfl hadv hrows fun x hx =>
    belowUpper_down upper (hbelow x (mem_of_getLast? hx)) hup
  simp [advance, reopen, hopen]

/-- **One move.** -/
theorem Stands.move (m : Move Key) (hok : it.regular c cf m = true) :
    Stands c cf lower upper (it.move c cf m) (move (c.bounded cf lower upper) at_ m) := by
  cases m with
  | seekToFirst => exact seekToFirst_stands hreads hknown h.bounds hok
  | seekToLast => exact seekToLast_stands hreads hknown h.bounds hok
  | seek k => exact seek_stands hreads hknown h.bounds k
  | seekForPrev k => exact seekForPrev_stands hreads hknown h.bounds k hok
  | next => exact next_stands hreads hknown h
  | prev => exact prev_stands hreads hknown h hok

end

end Moves

/-! ### The iterator is the cursor -/

def RawIterator.after (c : Content) (cf : Key) (lower upper : Option Key)
    (moves : List (Move Key)) : RawIterator :=
  moves.foldl (move c cf) (openCf c cf lower upper)

def cursorAfter (c : Content) (cf : Key) (lower upper : Option Key) (moves : List (Move Key)) :
    Option Row :=
  moves.foldl (move (c.bounded cf lower upper)) (c.bounded cf lower upper).head?

theorem Stands.moves {c : Content} {cf : Key} (hreads : ∀ start stop, c.fails start stop = false)
    (hknown : cf = defaultFamily ∨ cf ∈ c.known) {lower upper : Option Key} {it : RawIterator}
    {at_ : Option Row}
    {moves : List (Move Key)} (h : Stands c cf lower upper it at_)
    (hok : Runs.Along (fun it m => some (it.move c cf m)) (regular c cf) it moves = true) :
    Stands c cf lower upper (moves.foldl (RawIterator.move c cf) it)
      (moves.foldl (Cursor.move (c.bounded cf lower upper)) at_) := by
  induction moves generalizing it at_ with
  | nil => exact h
  | cons m moves ih =>
    simp only [Runs.Along, Bool.and_eq_true] at hok
    exact ih (h.move hreads hknown m hok.1) hok.2

/-- **The raw iterator is a cursor over the keys of its family inside its bounds.** As long
as reads succeed and no move asks for what the iterator gets wrong. -/
theorem raw_iterator_as_cursor (c : Content) (cf : Key) (lower upper : Option Key)
    (moves : List (Cursor.Move Key))
    (hreads : ∀ start stop, c.fails start stop = false) (hknown : cf = defaultFamily ∨ cf ∈ c.known)
    (hok : Runs.Along (fun it m => some (it.move c cf m)) (RawIterator.regular c cf)
      (RawIterator.blank lower upper)
      (.seekToFirst :: moves) = true) : (RawIterator.after c cf lower upper moves).current =
      cursorAfter c cf lower upper moves ∧
      (RawIterator.after c cf lower upper moves).valid = (cursorAfter c cf lower upper moves).isSome := by
  have hblank : Stands c cf lower upper (RawIterator.blank lower upper) none :=
    ⟨⟨rfl, rfl⟩, .inl ⟨rfl, rfl⟩⟩
  have hcurrent : (RawIterator.after c cf lower upper moves).current =
    cursorAfter c cf lower upper moves :=
    (hblank.moves hreads hknown hok).current
  refine ⟨hcurrent, ?_⟩
  rw [← hcurrent]
  exact RawIterator.valid_eq _

/-- The same keys, and no window can be read. -/
def unreadable : Content := { fourKeys with fails := fun _ _ => true }

/-- The largest key up to 7 is 7, and the iterator stands on a larger one. -/
theorem seek_for_prev_overshoots :
    (RawIterator.after fourKeys defaultFamily none none [.seekForPrev [7]]).current = some ([7, 5], [9]) ∧
      cursorAfter fourKeys defaultFamily none none [.seekForPrev [7]] = some ([7], [9]) := by
  decide +kernel

-- one down from 7 is 7 5
example : (after fourKeys defaultFamily none none [.seek [7], .prev]).current = some ([7, 5], [9]) := by
  decide +kernel

-- it opens past its upper bound, and ends below its lower one
example : (after fourKeys defaultFamily none (some [5]) []).current = some ([6], [9]) ∧
    (after fourKeys defaultFamily (some [9]) none [.seekToLast]).current = some ([8], [9]) := by
  decide +kernel

-- and hides that nothing could be read
example : (after unreadable defaultFamily none none [.seek [7]]).valid = false ∧
    (after unreadable defaultFamily none none [.seek [7]]).status = .ok () := by
  exact ⟨by decide +kernel, rfl⟩

theorem raw_iterator_as_cursor_turning :
    (RawIterator.after fourKeys defaultFamily (some [6]) (some [8]) [.seekToLast, .prev, .next,
      .seekForPrev [9]]).current =
        cursorAfter fourKeys defaultFamily (some [6]) (some [8]) [.seekToLast, .prev, .next,
          .seekForPrev [9]] ∧
      (RawIterator.after fourKeys defaultFamily (some [6]) (some [8]) [.seekToLast, .prev, .next,
        .seekForPrev [9]]).valid =
        (cursorAfter fourKeys defaultFamily (some [6]) (some [8]) [.seekToLast, .prev, .next,
          .seekForPrev [9]]).isSome :=
  raw_iterator_as_cursor fourKeys defaultFamily (some [6]) (some [8]) _ (fun _ _ => rfl) (.inl rfl)
    (by decide +kernel)

end PedraDb.Families
