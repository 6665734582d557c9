import PedraDb.Library.Decimal
import PedraDb.Library.Runs
import Mathlib.Data.List.Range
import Mathlib.Data.List.Sort

/-! The slots of archived log segments.

A rotation that archives renames the log to the next slot; a store of the change feed unlinks
a few of the oldest slots, and the numbers start again only when none is left. An open lists
the directory for names of four digits, so it misses the segments of later slots
(`five_digit_slot`). While no open comes past that it finds all of them, in the order they
were made (`archives_found`), and goes on from them. An unlink is taken to succeed. -/
namespace PedraDb.Wal.Archives
open List
open Decimal (padded)

def walArchiveFilePrefix : List Char := "WAL.arch".toList

def walArchiveSlotName (idx : Nat) : List Char := walArchiveFilePrefix ++ padded 4 idx

def walArchiveSlotOf (name : List Char) : Option Nat :=
  if name.take 8 != walArchiveFilePrefix then none
  else
    let digits := name.drop 8
    if digits.length != 4 || !digits.all Char.isDigit then none else some (Nat.ofDigitChars 10 digits 0)

structure State where
  /-- The archived files, each with the number of its segment. -/
  dir : List (List Char × Nat)
  /-- How many segments were archived. -/
  created : Nat
  next : Nat
  unlinked : Nat
  maxSeq : Nat
  cap : Nat
  deriving DecidableEq

open State

def opened : State := ⟨[], 0, 0, 0, 0, 64⟩

def walArchiveUnlinkBudget : Nat := 4

namespace State
variable (s : State)

def live : Nat := s.next - s.unlinked

/-- A rename replaces a file of the same name. -/
def archive (lastSequence : Nat) : State :=
  { s with
    dir := (s.dir.filter fun f => f.1 != walArchiveSlotName s.next) ++
      [(walArchiveSlotName s.next, s.created)]
    created := s.created + 1
    next := s.next + 1
    maxSeq := max s.maxSeq lastSequence }

/-- The oldest slots go once a MANIFEST covers all archives; `force` is for a close. -/
def deleteWalArchives (published : Nat) (force : Bool) : State :=
  if s.next = 0 ∨ published < s.maxSeq then s
  else
    let n := if force then s.live else min s.live walArchiveUnlinkBudget
    let gone := (range' s.unlinked n).map walArchiveSlotName
    let dir := s.dir.filter fun f => !gone.contains f.1
    if n = s.live then { s with dir := dir, next := 0, unlinked := 0 }
    else { s with dir := dir, unlinked := s.unlinked + n }

/-- The slots an open finds. -/
def walArchives : List Nat := (s.dir.filterMap fun f => walArchiveSlotOf f.1).insertionSort (· ≤ ·)

/-- The segments it replays. -/
def replayed : List Nat := s.walArchives.filterMap fun slot =>
  (s.dir.find? fun f => f.1 == walArchiveSlotName slot).map Prod.snd

/-- An open. It keeps the archives if one of them is above the MANIFEST or was replayed, and
takes up their numbers; `maxSeq` is the last sequence in them. -/
def reopen (keep : Bool) (maxSeq : Nat) : State :=
  if !s.walArchives.isEmpty && keep then
    { s with
      next := (s.walArchives.getLast?.map (· + 1)).getD 0
      unlinked := s.walArchives.head?.getD 0
      maxSeq := maxSeq
      cap := 64 }
  else
    { s with
      dir := s.dir.filter fun f => !(s.walArchives.map walArchiveSlotName).contains f.1
      next := 0
      unlinked := 0
      maxSeq := 0
      cap := 64 }

end State

inductive Event where
  | setWalArchiveCap (cap : Nat)
  /-- A rotation that archives, with the last sequence of the log. -/
  | archive (lastSequence : Nat)
  | deleteWalArchives (published : Nat) (force : Bool)
  /-- A close or a crash, and an open. -/
  | reopen (keep : Bool) (maxSeq : Nat)

def step (s : State) : Event → Option State
  | .setWalArchiveCap cap => some { s with cap := cap }
  | .archive lastSequence => if s.live < s.cap then some (s.archive lastSequence) else none
  | .deleteWalArchives published force => some (s.deleteWalArchives published force)
  | .reopen keep maxSeq => some (s.reopen keep maxSeq)

/-- An open comes before a slot has five digits. -/
def fourDigits (s : State) : Event → Bool
  | .reopen _ _ => decide (s.next ≤ 10000)
  | _ => true

theorem slotName_inj {i j : Nat} (h : walArchiveSlotName i = walArchiveSlotName j) : i = j :=
  Decimal.padded_injective (append_cancel_left h)

/-- **What is parsed of a name that was printed**: the number, if it has no more than four
digits. -/
theorem slotOf_slotName (idx : Nat) :
    walArchiveSlotOf (walArchiveSlotName idx) = if idx < 10000 then some idx else none := by
  have hdrop : (walArchiveSlotName idx).drop 8 = padded 4 idx := rfl
  have htake : (walArchiveSlotName idx).take 8 = walArchiveFilePrefix := rfl
  have hdigit : (padded 4 idx).all Char.isDigit = true :=
    all_eq_true.mpr fun c hc => Decimal.isDigit_of_mem_padded hc
  have hlength : (padded 4 idx).length = 4 ↔ idx < 10000 := Decimal.length_padded (by decide) idx
  simp only [walArchiveSlotOf, htake, hdrop, hdigit, Decimal.ofDigitChars_padded]
  by_cases hlt : idx < 10000
  · simp [hlt, hlength.mpr hlt]
  · have hne : (padded 4 idx).length ≠ 4 := fun h => hlt (hlength.mp h)
    simp [hlt, hne]

/-- The files of `n` slots; the segment of slot 0 would be `base`. -/
def slotFiles (base first n : Nat) : List (List Char × Nat) :=
  (range' first n).map fun slot => (walArchiveSlotName slot, base + slot)

/-- The files are those of the live slots. -/
structure Inv (s : State) : Prop where
  le : s.unlinked ≤ s.next
  dir : ∃ base, s.created = base + s.next ∧ s.dir = slotFiles base s.unlinked s.live

variable {s s' : State} {e : Event}

theorem Inv.archive (h : Inv s) (lastSequence : Nat) : Inv (s.archive lastSequence) := by
  have hle := h.le
  obtain ⟨base, hcreated, hdir⟩ := h.dir
  have hlive : (s.archive lastSequence).live = s.live + 1 := by
    simp only [State.live, State.archive]
    omega
  refine ⟨Nat.le_succ_of_le hle, base, by simp only [State.archive]; omega, ?_⟩
  have hkeep : (s.dir.filter fun f => f.1 != walArchiveSlotName s.next) = s.dir := by
    refine filter_eq_self.mpr fun f hf => bne_iff_ne.mpr fun heq => ?_
    rw [hdir, slotFiles, mem_map] at hf
    obtain ⟨slot, hslot, rfl⟩ := hf
    have := slotName_inj heq
    simp only [mem_range'_1, State.live] at hslot
    omega
  have hnext : s.unlinked + s.live = s.next := Nat.add_sub_of_le hle
  rw [hlive, slotFiles, range'_1_concat]
  simp only [State.archive, hkeep, map_append, map_singleton, hnext, hcreated]
  rw [hdir, slotFiles]

/-- The files that are left when the first slots are unlinked. -/
theorem filter_unlinked (base first : Nat) {n live : Nat} (hn : n ≤ live) :
    (slotFiles base first live).filter (fun f =>
      !((range' first n).map walArchiveSlotName).contains f.1) =
      slotFiles base (first + n) (live - n) := by
  have hmem (slot : Nat) :
      ((range' first n).map walArchiveSlotName).contains (walArchiveSlotName slot) = true ↔
      slot ∈ range' first n := by
    rw [contains_iff_mem, mem_map_of_injective fun _ _ => slotName_inj]
  obtain ⟨m, rfl⟩ := Nat.exists_eq_add_of_le hn
  rw [slotFiles, ← range'_append_1, map_append, filter_append, Nat.add_sub_cancel_left,
    filter_eq_nil_iff.mpr, filter_eq_self.mpr,
    nil_append, slotFiles]
  · simp only [forall_mem_map, Bool.not_eq_true', ← Bool.not_eq_true, hmem, mem_range'_1]
    omega
  · simp only [forall_mem_map, Bool.not_eq_true', Bool.not_eq_false, hmem]
    exact fun _ h => h

theorem Inv.delete (h : Inv s) (published : Nat) (force : Bool) :
    Inv (s.deleteWalArchives published force) := by
  have hle := h.le
  obtain ⟨base, hcreated, hdir⟩ := h.dir
  rw [deleteWalArchives]
  split
  · exact h
  simp only
  have hn : (if force = true then s.live else min s.live walArchiveUnlinkBudget) ≤ s.live := by
    split
    · exact le_rfl
    · exact Nat.min_le_left _ _
  generalize (if force = true then s.live else min s.live walArchiveUnlinkBudget) = n at hn ⊢
  have hleft := filter_unlinked base s.unlinked hn
  rw [← hdir] at hleft
  rw [live] at hn
  split
  · next hall =>
    refine ⟨le_rfl, s.created, rfl, hleft.trans ?_⟩
    simp [slotFiles, hall, live]
  · refine ⟨by show s.unlinked + n ≤ s.next; omega, base, hcreated, hleft.trans ?_⟩
    simp only [live, Nat.sub_add_eq]

/-- An open that comes before a slot has five digits finds the live slots. -/
theorem Inv.walArchives (h : Inv s) (hfour : s.next ≤ 10000) :
    s.walArchives = range' s.unlinked s.live := by
  have hle := h.le
  obtain ⟨base, _, hdir⟩ := h.dir
  have hfound : (s.dir.filterMap fun f => walArchiveSlotOf f.1) = range' s.unlinked s.live := by
    rw [hdir, slotFiles, filterMap_map]
    refine (filterMap_congr fun slot hslot => ?_).trans filterMap_some
    rw [mem_range'_1, live] at hslot
    exact (slotOf_slotName slot).trans (if_pos (by omega))
  rw [State.walArchives, hfound]
  exact pairwise_le_range'.insertionSort_eq

theorem Inv.reopen (h : Inv s) (hfour : s.next ≤ 10000) (keep : Bool) (maxSeq : Nat) :
    Inv (s.reopen keep maxSeq) := by
  have hle := h.le
  obtain ⟨base, hcreated, hdir⟩ := h.dir
  have hslots := h.walArchives hfour
  rw [State.reopen]
  split
  · rename_i hkeep
    have hpos : s.live ≠ 0 := by
      intro hzero
      simp [hslots, hzero] at hkeep
    -- the first and the last slot found are those of the running store
    obtain ⟨n, hn⟩ := Nat.exists_eq_succ_of_ne_zero hpos
    have hfirst : s.walArchives.head?.getD 0 = s.unlinked := by simp [hslots, hn, range'_succ]
    have hlast : (s.walArchives.getLast?.map (· + 1)).getD 0 = s.next := by
      rw [hslots, hn, Nat.succ_eq_add_one, range'_1_concat]
      simp only [getLast?_append, getLast?_singleton, Option.some_or, Option.map_some,
        Option.getD_some]
      simp only [live] at hn
      omega
    rw [hfirst, hlast]
    exact ⟨hle, base, hcreated, hdir⟩
  · refine ⟨le_rfl, s.created, rfl, ?_⟩
    have hleft := filter_unlinked base s.unlinked (n := s.live) le_rfl
    rw [← hdir, ← hslots] at hleft
    simpa [live, slotFiles] using hleft

theorem Inv.step (h : Inv s) (hok : fourDigits s e = true) (hs : step s e = some s') : Inv s' := by
  cases e with
  | setWalArchiveCap cap =>
    cases hs
    exact ⟨h.le, h.dir⟩
  | archive lastSequence =>
    rw [Archives.step] at hs
    split at hs <;> cases hs
    exact h.archive lastSequence
  | deleteWalArchives published force =>
    cases hs
    exact h.delete published force
  | reopen keep maxSeq =>
    cases hs
    exact h.reopen (of_decide_eq_true hok) keep maxSeq

/-- **Every archived segment is found** and replayed in the order of creation, after every run
in which all opens, and the one that follows, come while slots have four digits. -/
theorem archives_found (es : List Event) (hok : Runs.Along step fourDigits opened es = true)
    (hrun : Runs.exec step opened es = some s) (hfour : s.next ≤ 10000) :
    s.walArchives.map walArchiveSlotName = s.dir.map Prod.fst ∧ s.replayed = s.dir.map Prod.snd ∧
      (s.dir.map Prod.snd).Pairwise (· < ·) := by
  have hinv : Inv s := Runs.exec_invariant (fun _ _ _ h => h.step) ⟨le_rfl, 0, rfl, rfl⟩ hok hrun
  have hslots := hinv.walArchives hfour
  obtain ⟨hle, base, _, hdir⟩ := hinv
  have hread : ∀ slot ∈ range' s.unlinked s.live,
      (s.dir.find? fun f => f.1 == walArchiveSlotName slot).map Prod.snd = some (base + slot) := by
    intro slot hslot
    cases hfind : s.dir.find? fun f => f.1 == walArchiveSlotName slot with
    | none =>
      rw [find?_eq_none, hdir] at hfind
      exact absurd (beq_self_eq_true _) (hfind _ (mem_map_of_mem hslot))
    | some f =>
      have hmem := mem_of_find?_eq_some hfind
      rw [hdir] at hmem
      obtain ⟨slot', _, rfl⟩ := mem_map.mp hmem
      have hname := find?_some hfind
      rw [slotName_inj (beq_iff_eq.mp hname)]
      rfl
  refine ⟨by rw [hslots, hdir, slotFiles, map_map]; rfl, ?_, ?_⟩
  · rw [replayed, hslots, filterMap_congr hread, hdir, slotFiles, map_map, ← filterMap_eq_map]
    rfl
  · rw [hdir, slotFiles, map_map]
    exact pairwise_map.mpr ((pairwise_lt_range' 1).imp (Nat.add_lt_add_left · base))

theorem archives_found_drained :
    ∃ s, Runs.exec step opened [.archive 3, .archive 5, .deleteWalArchives 5 false, .archive 7,
        .reopen true 7, .archive 8] = some s ∧
      s.replayed = s.dir.map Prod.snd ∧ s.dir.map Prod.snd = [2, 3] := by
  have hfound := archives_found [.archive 3, .archive 5, .deleteWalArchives 5 false, .archive 7,
    .reopen true 7, .archive 8] (by decide) rfl (by decide)
  exact ⟨_, rfl, hfound.2.1, rfl⟩

theorem exec_archive (n : Nat) (s : State) (h : s.next + n < s.cap) :
    ∃ s', Runs.exec step s (replicate (n + 1) (.archive 0)) = some s' ∧
    walArchiveSlotName (s.next + n) ∈ s'.dir.map Prod.fst := by
  induction n generalizing s with
  | zero =>
    have hlive : s.live < s.cap := Nat.lt_of_le_of_lt (Nat.sub_le _ _) h
    exact ⟨s.archive 0, by simp [Runs.exec, step, hlive], by simp [archive]⟩
  | succ n ih =>
    have hnext : (s.archive 0).next + n = s.next + (n + 1) := by
      show s.next + 1 + n = _
      omega
    have hlive : s.live < s.cap := Nat.lt_of_le_of_lt (Nat.sub_le _ _) (by omega)
    obtain ⟨s', hrun, hmem⟩ := ih (s.archive 0) (hnext ▸ h)
    refine ⟨s', ?_, hnext ▸ hmem⟩
    rw [replicate_succ, Runs.exec, step, if_pos hlive]
    exact hrun

/-- **A segment is missed**: with a cap of 10001 segments an open does not find all of as many. -/
theorem five_digit_slot : ∃ s, Runs.exec step opened
    (.setWalArchiveCap 10001 :: replicate (10000 + 1) (.archive 0)) = some s ∧
    s.walArchives.map walArchiveSlotName ≠ s.dir.map Prod.fst := by
  obtain ⟨s, hrun, hmem⟩ := exec_archive 10000 { opened with cap := 10001 } (by decide)
  refine ⟨s, by rw [Runs.exec, step]; exact hrun, fun heq => ?_⟩
  obtain ⟨f, hf, hname⟩ := mem_map.mp hmem
  have hnone : walArchiveSlotOf f.1 = none := by
    rw [hname, slotOf_slotName, if_neg (Nat.not_lt.mpr (Nat.le_add_left _ _))]
  have hlt := length_filterMap_lt_length_iff_exists (f := fun f => walArchiveSlotOf f.1) |>.mpr
    ⟨f, hf, hnone⟩
  have hlength := congrArg length heq
  rw [length_map, length_map, walArchives, length_insertionSort] at hlength
  omega

end PedraDb.Wal.Archives
