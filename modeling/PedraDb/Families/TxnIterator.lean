import PedraDb.Families.RawIterator

/-! The raw iterator of a transaction.

It is meant as a cursor over the default family at the transaction's snapshot, with the
staged operations of the transaction laid over it. Forward moves walk over the family and
the staged entries at once; the moves down collect the whole view and go over that.

The staged entries are kept under stored keys, of all families, and are taken for keys of
the default family: where that family has a prefix, a staged put shows up behind the prefix
and a staged delete hides nothing (`staged_delete_hides_nothing`). Collecting the view forgets where the
iterator stood, so `prev` after a forward move ends it. `seek_for_prev` below all keys
stands on the first one, `prev` past the end of the collected view goes back in, and `next`
before any seek stands on the first key. Apart from that the iterator is the cursor
(`txn_iterator_as_cursor`). -/
namespace PedraDb.Families
open List Overlay Cursor
variable {ops : List TxnOp} {w : Key → Bool} {v : Option Value}

/-- A staged operation: a put of a value, or a delete. -/
structure TxnOp where
  cf : Key
  key : Key
  value : Option Value
  deriving DecidableEq

def stagedEntries (c : Content) (ops : List TxnOp) : List (Key × Option Value) :=
  collect (ops.map fun op => (c.encode op.cf op.key, op.value))

/-- Where the current row comes from. -/
inductive CurRow where
  | db
  | staged (i : Nat)
  | stop
  deriving DecidableEq

structure TxnRawIterator where
  db : RawIterator
  /-- By key; a delete has no value. -/
  staged : List (Key × Option Value)
  idx : Nat
  cur : CurRow
  lower : Option Key
  upper : Option Key
  /-- The whole view, once it has been collected. -/
  mat : Option (List Row)
  matAt : Nat
  /-- The keys the caller has stood on. -/
  scanReads : List Key
  tracking : Bool
  deriving DecidableEq

open TxnRawIterator

/-- The number of leading elements with a property. -/
def partitionPoint {α : Type} (l : List α) (p : α → Bool) : Nat := (l.takeWhile p).length

namespace TxnRawIterator
variable (c : Content) (it : TxnRawIterator)

/-- The staged entries are sorted already, and distinct. -/
def new (ops : List TxnOp) (lower upper : Option Key) (scanReads : List Key) : TxnRawIterator where
  db := RawIterator.openCf c defaultFamily lower upper
  staged := stagedEntries c ops
  idx := 0
  cur := .stop
  lower := lower
  upper := upper
  mat := none
  matAt := 0
  scanReads := scanReads
  tracking := true

def inWindow (k : Key) : Bool := aboveLower it.lower k && belowUpper it.upper k

def valid : Bool :=
  match it.mat with
  | some m => decide (it.matAt < m.length)
  | none => it.cur != .stop

def key : Option Key :=
  match it.mat with
  | some m => m[it.matAt]?.map Prod.fst
  | none =>
    match it.cur with
    | .db => it.db.key
    | .staged i => it.staged[i]?.map Prod.fst
    | .stop => none

def value : Option Value :=
  match it.mat with
  | some m => m[it.matAt]?.map Prod.snd
  | none =>
    match it.cur with
    | .db => it.db.value
    | .staged i => it.staged[i]?.bind Prod.snd
    | .stop => none

def trackIfValid : TxnRawIterator :=
  if it.tracking then
    match it.key with
    | some k => { it with scanReads := it.scanReads.insert k }
    | none => it
  else it

/-- To the smallest key that shows. -/
def head : Nat → TxnRawIterator → TxnRawIterator
  | 0, it => { it with cur := .stop }
  | fuel + 1, it =>
    match it.db.key, it.staged[it.idx]? with
    | none, none => { it with cur := .stop }
    | some dk, none => { it with cur := if it.inWindow dk then .db else .stop }
    | none, some (sk, sv) =>
      if it.inWindow sk && sv.isSome then { it with idx := it.idx + 1, cur := .staged it.idx }
      else head fuel { it with idx := it.idx + 1 }
    | some dk, some (sk, sv) =>
      if sk < dk then
        if sv.isSome && it.inWindow sk then { it with idx := it.idx + 1, cur := .staged it.idx }
        else head fuel { it with idx := it.idx + 1 }
      else if dk < sk then { it with cur := if it.inWindow dk then .db else .stop }
      -- the staged entry hides the row
      else if sv.isSome && it.inWindow sk then
        { it with idx := it.idx + 1, db := it.db.next c defaultFamily, cur := .staged it.idx }
      else head fuel { it with idx := it.idx + 1, db := it.db.next c defaultFamily }

def advanceHead : TxnRawIterator := head c (it.staged.length + 1) it

def seek (k : Key) : TxnRawIterator :=
  ({ it with mat := none, db := it.db.seek c defaultFamily k,
             idx := partitionPoint it.staged fun e => decide (e.1 < k) }.advanceHead c).trackIfValid

def seekToFirst : TxnRawIterator :=
  ({ it with mat := none, db := it.db.seekToFirst c defaultFamily, idx := 0 }.advanceHead c).trackIfValid

def next : TxnRawIterator :=
  match it.mat with
  | some m => { it with matAt := if it.matAt < m.length then it.matAt + 1 else it.matAt }.trackIfValid
  | none =>
    let it' := match it.cur with
      | .db => { it with cur := .stop, db := it.db.next c defaultFamily }
      | _ => { it with cur := .stop }
    (it'.advanceHead c).trackIfValid

def walkOn : Nat → TxnRawIterator → List Row → TxnRawIterator × List Row
  | 0, it, out => (it, out)
  | fuel + 1, it, out =>
    if it.cur = .stop then (it, out)
    else
      walkOn fuel (it.next c) (match it.key, it.value with
        | some k, some v => out ++ [(k, v)]
        | _, _ => out)

def materialize : TxnRawIterator :=
  match it.mat with
  | some _ => it
  | none =>
    let (walk, out) := walkOn c ((c.rows defaultFamily).length + it.staged.length + 1)
      ({ it with tracking := false, cur := .stop }.seekToFirst c) []
    { walk with cur := it.cur, idx := it.idx, mat := some out, matAt := 0, tracking := true }

def seekToLast : TxnRawIterator :=
  let it' := it.materialize c
  { it' with matAt := (it'.mat.elim it'.matAt fun m => m.length - 1) }.trackIfValid

def prev : TxnRawIterator :=
  let it' := it.materialize c
  { it' with matAt := if 0 < it'.matAt then it'.matAt - 1 else usizeMax }.trackIfValid

def seekForPrev (k : Key) : TxnRawIterator :=
  let it' := it.materialize c
  { it' with matAt := (it'.mat.elim it'.matAt fun m =>
    partitionPoint m (fun r => decide (r.1 ≤ k)) - 1) }.trackIfValid

def move : Move Key → TxnRawIterator
  | .seekToFirst => it.seekToFirst c
  | .seekToLast => it.seekToLast c
  | .seek k => it.seek c k
  | .seekForPrev k => it.seekForPrev c k
  | .next => it.next c
  | .prev => it.prev c

end TxnRawIterator

section View
variable (c : Content) (ops : List TxnOp) (lower upper : Option Key)

/-- The default family at the snapshot under the staged operations on it. -/
def txnView : List Row :=
  (overlay (c.rows defaultFamily) ((ops.filter fun op => op.cf == defaultFamily).map fun op =>
    (op.key, op.value))).filter
    fun r => aboveLower lower r.1 && belowUpper upper r.1

/-- The staged operations are all on keys of the default family that are stored as they are. -/
def stagedRaw : Bool := ops.all fun op => op.cf == defaultFamily && c.defaultRaw

/-- The move asks for nothing the iterator gets wrong. -/
def TxnRawIterator.regular (it : TxnRawIterator) : Move Key → Bool
  | .seekForPrev k =>
    (txnView c ops lower upper).isEmpty || (txnView c ops lower upper).any fun r => decide (r.1 ≤ k)
  | .prev =>
    match it.mat with
    | none => it.key.all fun k => (txnView c ops lower upper).all fun r => !decide (r.1 < k)
    | some m => m.isEmpty || it.matAt != m.length
  | _ => true

end View

/-! ### The walk of the family -/

section Ahead
variable (c : Content) (lower upper : Option Key)

/-- A forward walk of the family with the rows that are left of it. The walk may have ended
at the upper bound. -/
structure Ahead (db : RawIterator) (left : List Row) : Prop where
  bounds : db.lower = lower ∧ db.upper = upper
  forward : db.rev = false
  above : ∀ r ∈ left, aboveLower lower r.1 = true
  sorted : Ascending left
  position : db.current = none ∧ (∀ r ∈ left, belowUpper upper r.1 = false) ∨
    ∃ d, db.inner = some d ∧ Forward c defaultFamily d left

variable {c lower upper} {db : RawIterator} {left : List Row}

theorem not_belowUpper_up {a b : Key} (hlt : a < b) (ha : belowUpper upper a = false) :
    belowUpper upper b = false := by
  cases hb : belowUpper upper b with
  | false => rfl
  | true => exact absurd (belowUpper_down upper hlt hb) (by simp [ha])

theorem Ahead.current (h : Ahead c lower upper db left) :
    (∃ r left', left = r :: left' ∧ db.current = some r) ∨
      db.current = none ∧ ∀ r ∈ left, belowUpper upper r.1 = false := by
  rcases h.position with hnone | ⟨d, hinner, hd⟩
  · exact .inr hnone
  have hcurrent : db.current = left.head? := by
    rw [RawIterator.current, hinner]
    exact hd.current
  cases left with
  | nil => exact .inr ⟨hcurrent, by simp⟩
  | cons r left => exact .inl ⟨r, left, rfl, hcurrent⟩

theorem ahead_skip (db : RawIterator) {d : DBIterator}
    (hbounds : db.lower = lower ∧ db.upper = upper) (hrev : db.rev = false)
    (habove : ∀ r ∈ left, aboveLower lower r.1 = true) (hsorted : Ascending left)
    (hinner : db.inner = some d)
    (hd : Forward c defaultFamily d left) : Ahead c lower upper db.skipPastUpper left := by
  have hcurrent : db.current = left.head? := by
    rw [RawIterator.current, hinner]
    exact hd.current
  rw [db.skipPastUpper_eq, hcurrent]
  split
  · rename_i hcut
    refine ⟨hbounds, hrev, habove, hsorted, .inl ⟨rfl, ?_⟩⟩
    cases left with
    | nil => simp
    | cons r left =>
      have hr : belowUpper upper r.1 = false := by simpa [hbounds.2] using hcut
      exact forall_mem_cons.mpr ⟨hr, fun x hx => not_belowUpper_up ((pairwise_cons.mp hsorted).1 x hx) hr⟩
  · exact ⟨hbounds, hrev, habove, hsorted, .inr ⟨d, hinner, hd⟩⟩

section Moves
variable (hreads : ∀ start stop, c.fails start stop = false)
include hreads

theorem Ahead.next {r : Row} (h : Ahead c lower upper db (r :: left)) (hcurrent : db.current = some r) :
    Ahead c lower upper (db.next c defaultFamily) left := by
  obtain ⟨d, hinner, hd⟩ := h.position.resolve_left fun hnone => by simp [hnone.1] at hcurrent
  rw [RawIterator.next, h.forward]
  refine ahead_skip (db.advance c defaultFamily) h.bounds h.forward
    (fun x hx => h.above x (mem_cons_of_mem _ hx))
    (pairwise_cons.mp h.sorted).2 ?_ (hd.advance hreads)
  rw [RawIterator.advance, hinner]
  rfl

theorem seek_ahead (hbounds : db.lower = lower ∧ db.upper = upper) (k : Key) :
    Ahead c lower upper (db.seek c defaultFamily k)
      ((c.rows defaultFamily).filter fun r => aboveLower lower r.1 && decide (k ≤ r.1)) := by
  obtain ⟨d, hopen, hd⟩ := scanCfAt_opened hreads (.inl rfl) (.seek (db.raised k) .forward)
  rw [Opened, filter_congr fun r _ => db.raised_le k r.1, hbounds.1] at hd
  refine ahead_skip _ hbounds rfl (fun r hr => ?_) ((rows_ascending c defaultFamily).filter _) hopen hd
  exact (Bool.and_eq_true_iff.mp (mem_filter.mp hr).2).1

theorem seekToFirst_ahead (hbounds : db.lower = lower ∧ db.upper = upper) :
    Ahead c lower upper (db.seekToFirst c defaultFamily) ((c.rows defaultFamily).filter fun r =>
      aboveLower lower r.1) := by
  obtain ⟨d, -, hinner, hd, -⟩ := seekToFirst_forward hreads (.inl rfl) db hbounds.1
  exact ⟨hbounds, rfl, fun r hr => (mem_filter.mp hr).2, (rows_ascending c defaultFamily).filter _,
    .inr ⟨d, hinner, hd⟩⟩

end Moves

end Ahead

/-! ### The forward walk -/

section Walk
variable (c : Content) (lower upper : Option Key)

def rest (left : List Row) (st : List (Key × Option Value)) : List Row :=
  (merge left st).filter fun r => aboveLower lower r.1 && belowUpper upper r.1

/-- The iterator stands on the first of the rows, and the walk gives the others. -/
structure Walk (st : List (Key × Option Value)) (it : TxnRawIterator) (l : List Row) : Prop where
  bounds : it.lower = lower ∧ it.upper = upper
  staged : it.staged = st
  forward : it.mat = none
  position : ∃ left,
    (it.cur = .stop ∧ l = [] ∧ Ahead c lower upper it.db left ∧
      rest lower upper left (st.drop it.idx) = []) ∨
    (∃ r, it.cur = .db ∧ it.db.current = some r ∧ Ahead c lower upper it.db (r :: left) ∧
      l = r :: rest lower upper left (st.drop it.idx)) ∨
    ∃ i r, it.cur = .staged i ∧ st[i]? = some (r.1, some r.2) ∧ Ahead c lower upper it.db left ∧
      l = r :: rest lower upper left (st.drop it.idx)

variable {c lower upper} {st : List (Key × Option Value)} {left : List Row}

theorem put_shown {k : Key} (h : (v.isSome && w k) = true) :
    ∃ u, v = some u ∧ (v.toList.map (k, ·)).filter (fun r => w r.1) = [(k, u)] := by
  obtain ⟨hv, hw⟩ := Bool.and_eq_true_iff.mp h
  obtain ⟨u, rfl⟩ := Option.isSome_iff_exists.mp hv
  exact ⟨u, rfl, by simp [hw]⟩

theorem put_hidden {k : Key} (h : ¬ (v.isSome && w k) = true) :
    (v.toList.map (k, ·)).filter (fun r => w r.1) = [] := by
  cases v with
  | none => rfl
  | some u => simpa using h

theorem rest_above (hsorted : Ascending left) (hst : Sorted st)
    (hout : ∀ r ∈ left, belowUpper upper r.1 = false) :
    rest lower upper left st = rest lower upper [] st := by
  have hnil : (left.filter fun r => belowUpper upper r.1) = [] :=
    filter_eq_nil_iff.mpr fun r hr => by simp [hout r hr]
  have hfilter := merge_filter (a := belowUpper upper) (b := fun _ => true)
    (w := fun k => aboveLower lower k && belowUpper upper k) hsorted hst (fun _ _ => rfl) fun k hw _ =>
    (Bool.and_eq_true_iff.mp hw).2
  rw [hnil, filter_true, filter_true] at hfilter
  exact hfilter.symm

theorem rest_eq_nil (lower : Option Key) (hsorted : Ascending left) (hst : Sorted st)
    (hout : ∀ r ∈ left, belowUpper upper r.1 = false)
    (hout' : ∀ e ∈ st, belowUpper upper e.1 = false) : rest lower upper left st = [] := by
  refine filter_eq_nil_iff.mpr fun p hp => ?_
  rcases (mem_merge hsorted hst p).mp hp with h | ⟨h, -⟩
  · simp [hout' _ h]
  · simp [hout p h]

theorem row_walk (it : TxnRawIterator) {r : Row} (hbounds : it.lower = lower ∧ it.upper = upper)
    (hmat : it.mat = none)
    (hst : Overlay.Sorted (it.staged.drop it.idx)) (hahead : Ahead c lower upper it.db (r :: left))
    (hcurrent : it.db.current = some r)
    (hentries : ∀ e ∈ it.staged.drop it.idx, r.1 < e.1) :
    Walk c lower upper it.staged { it with cur := if it.inWindow r.1 then .db else .stop }
      (rest lower upper (r :: left) (it.staged.drop it.idx)) := by
  have habove : aboveLower lower r.1 = true := hahead.above r mem_cons_self
  have hwin : it.inWindow r.1 = belowUpper upper r.1 := by
    rw [inWindow, hbounds.1, hbounds.2, habove, Bool.true_and]
  rw [hwin]
  cases hup : belowUpper upper r.1 with
  | true =>
    refine ⟨hbounds, rfl, hmat, left, .inr (.inl ⟨r, rfl, hcurrent, hahead, ?_⟩)⟩
    have hmerge : Overlay.merge (r :: left) (it.staged.drop it.idx) =
        r :: Overlay.merge left (it.staged.drop it.idx) := by
      cases hdrop : it.staged.drop it.idx with
      | nil => simp
      | cons e st =>
        have hlt : r.1 < e.1 := hentries e (by simp [hdrop])
        rw [Overlay.merge, if_neg (List.not_lt.mpr (List.le_of_lt hlt)), if_pos hlt]
    rw [rest, hmerge, filter_cons_of_pos (by simp [habove, hup])]
    rfl
  | false =>
    have hout : ∀ x ∈ r :: left, belowUpper upper x.1 = false :=
      forall_mem_cons.mpr ⟨hup, fun x hx =>
        not_belowUpper_up ((pairwise_cons.mp hahead.sorted).1 x hx) hup⟩
    have hrest := rest_eq_nil lower hahead.sorted hst hout fun e he =>
      not_belowUpper_up (hentries e he) hup
    exact ⟨hbounds, rfl, hmat, r :: left, .inl ⟨rfl, hrest, hahead, hrest⟩⟩

/-- **To the smallest key that shows.** -/
theorem head_walk (hreads : ∀ start stop, c.fails start stop = false) (fuel : Nat) (it : TxnRawIterator)
    (hbounds : it.lower = lower ∧ it.upper = upper) (hmat : it.mat = none)
    (hst : Overlay.Sorted it.staged)
    (hahead : Ahead c lower upper it.db left) (hfuel : it.staged.length - it.idx < fuel) :
    Walk c lower upper it.staged (head c fuel it) (rest lower upper left (it.staged.drop it.idx)) := by
  induction fuel generalizing it left with
  | zero => cases hfuel
  | succ fuel ih =>
    have hdrop : ∀ idx, Overlay.Sorted (it.staged.drop idx) := fun idx => hst.sublist (drop_sublist _ _)
    rw [TxnRawIterator.head]
    cases hentry : it.staged[it.idx]? with
    | none =>
      have hnil : it.staged.drop it.idx = [] := drop_eq_nil_of_le (List.getElem?_eq_none_iff.mp hentry)
      rcases hahead.current with ⟨r, left, rfl, hcurrent⟩ | ⟨hcurrent, hout⟩
      · have hkey : it.db.key = some r.1 := congrArg (Option.map Prod.fst) hcurrent
        simp only [hkey]
        exact row_walk it hbounds hmat (hdrop _) hahead hcurrent (by simp [hnil])
      · have hkey : it.db.key = none := congrArg (Option.map Prod.fst) hcurrent
        have hrest := rest_eq_nil lower hahead.sorted (hdrop it.idx) hout (by simp [hnil])
        simp only [hkey]
        exact ⟨hbounds, rfl, hmat, left, .inl ⟨rfl, hrest, hahead, hrest⟩⟩
    | some e =>
      obtain ⟨sk, sv⟩ := e
      obtain ⟨hidx, hget⟩ := List.getElem?_eq_some_iff.mp hentry
      have hcons : it.staged.drop it.idx = (sk, sv) :: it.staged.drop (it.idx + 1) := by
        rw [drop_eq_getElem_cons hidx, hget]
      have hfirst : ∀ e ∈ it.staged.drop (it.idx + 1), sk < e.1 := by
        have := hdrop it.idx
        rw [hcons] at this
        exact (pairwise_cons.mp this).1
      -- the entry is taken, or left out
      have htake : ∀ db' left', Ahead c lower upper db' left' →
          rest lower upper left (it.staged.drop it.idx) =
            (sv.toList.map (sk, ·)).filter (fun r => aboveLower lower r.1 && belowUpper upper r.1) ++
              rest lower upper left' (it.staged.drop (it.idx + 1)) →
          Walk c lower upper it.staged
            (if (sv.isSome && it.inWindow sk) = true
              then { it with idx := it.idx + 1, db := db', cur := .staged it.idx }
              else head c fuel { it with idx := it.idx + 1, db := db' })
            (rest lower upper left (it.staged.drop it.idx)) := by
        intro db' left' hahead' hrest
        rw [inWindow, hbounds.1, hbounds.2, hrest]
        split
        · rename_i hshown
          obtain ⟨u, rfl, hput⟩ :=
            put_shown (w := fun k => aboveLower lower k && belowUpper upper k) hshown
          rw [hput]
          exact ⟨⟨rfl, rfl⟩, rfl, hmat, left', .inr (.inr ⟨it.idx, (sk, u), rfl, hentry, hahead', rfl⟩)⟩
        · rename_i hhidden
          rw [put_hidden (w := fun k => aboveLower lower k && belowUpper upper k) hhidden, nil_append]
          refine ih { it with lower := lower, upper := upper, idx := it.idx + 1, db := db' }
            ⟨rfl, rfl⟩ hmat hst hahead' ?_
          show it.staged.length - (it.idx + 1) < fuel
          omega
      rcases hahead.current with ⟨r, left, rfl, hcurrent⟩ | ⟨hcurrent, hout⟩
      · have hkey : it.db.key = some r.1 := congrArg (Option.map Prod.fst) hcurrent
        simp only [hkey]
        split
        · rename_i hlt
          refine htake it.db (r :: left) hahead ?_
          rw [rest, hcons, Overlay.merge, if_pos hlt, filter_append]
          rfl
        · split
          · rename_i hlt
            refine row_walk it hbounds hmat (hdrop _) hahead hcurrent ?_
            rw [hcons]
            exact forall_mem_cons.mpr ⟨hlt, fun e he => List.lt_trans hlt (hfirst e he)⟩
          · rename_i hge hle
            refine htake (it.db.next c defaultFamily) left (hahead.next hreads hcurrent) ?_
            rw [rest, hcons, Overlay.merge, if_neg hge, if_neg hle, filter_append]
            rfl
      · have hkey : it.db.key = none := congrArg (Option.map Prod.fst) hcurrent
        simp only [hkey, Bool.and_comm _ sv.isSome]
        refine htake it.db left hahead ?_
        rw [rest_above hahead.sorted (hdrop _) hout, rest_above hahead.sorted (hdrop _) hout, rest,
          hcons, Overlay.merge_nil_left,
          filter_append]
        rfl

variable {it : TxnRawIterator} {l : List Row}

theorem trackIfValid_eq (it : TxnRawIterator) :
    ∃ reads, it.trackIfValid = { it with scanReads := reads } := by
  rw [trackIfValid]
  split
  · split
    · exact ⟨_, rfl⟩
    · exact ⟨_, rfl⟩
  · exact ⟨_, rfl⟩

theorem Walk.track (h : Walk c lower upper st it l) : Walk c lower upper st it.trackIfValid l := by
  obtain ⟨reads, htrack⟩ := trackIfValid_eq it
  rw [htrack]
  exact { h with }

def TxnRawIterator.shows (it : TxnRawIterator) (at_ : Option Row) : Prop :=
  it.key = at_.map Prod.fst ∧ it.value = at_.map Prod.snd ∧ it.valid = at_.isSome

theorem Walk.shows (h : Walk c lower upper st it l) : it.shows l.head? := by
  rw [TxnRawIterator.shows, TxnRawIterator.key, TxnRawIterator.value, TxnRawIterator.valid, h.forward]
  obtain ⟨left, ⟨hcur, rfl, -⟩ | ⟨r, hcur, hcurrent, -, rfl⟩ | ⟨i, r, hcur, hentry, -, rfl⟩⟩ := h.position
  · simp [hcur]
  · simp [hcur, RawIterator.key, RawIterator.value, hcurrent]
  · simp [hcur, h.staged, hentry]

theorem Walk.stop_iff (h : Walk c lower upper st it l) : it.cur = .stop ↔ l = [] := by
  obtain ⟨left, ⟨hcur, rfl, -⟩ | ⟨r, hcur, -, -, rfl⟩ | ⟨i, r, hcur, -, -, rfl⟩⟩ :=
    h.position <;> simp [hcur]

theorem rest_from_lower (c : Content) (lower upper : Option Key) (hst : Sorted st) :
    rest lower upper ((c.rows defaultFamily).filter fun r => aboveLower lower r.1) st =
      rest lower upper (c.rows defaultFamily) st := by
  have hrest := merge_filter (a := aboveLower lower) (b := fun _ => true)
    (w := fun k => aboveLower lower k && belowUpper upper k) (rows_ascending c defaultFamily) hst
    (fun _ _ => rfl) fun k hw _ =>
    (Bool.and_eq_true_iff.mp hw).1
  rwa [filter_true, filter_true] at hrest

variable (c lower upper st) in
/-- The rows an iterator of the transaction goes over. -/
abbrev walked : List Row := rest lower upper (c.rows defaultFamily) st

section Reads
variable (hreads : ∀ start stop, c.fails start stop = false) (hst : Overlay.Sorted st)
include hreads hst

theorem advanceHead_walk (it : TxnRawIterator) (hbounds : it.lower = lower ∧ it.upper = upper)
    (hstaged : it.staged = st)
    (hmat : it.mat = none) (hahead : Ahead c lower upper it.db left) :
    Walk c lower upper st (it.advanceHead c).trackIfValid (rest lower upper left (st.drop it.idx)) := by
  subst hstaged
  refine (head_walk hreads _ it hbounds hmat hst hahead ?_).track
  omega

/-- **One step of the walk.** -/
theorem Walk.next (h : Walk c lower upper st it l) : Walk c lower upper st (it.next c) l.tail := by
  rw [TxnRawIterator.next, h.forward]
  obtain ⟨left, ⟨hcur, rfl, hahead, hrest⟩ | ⟨r, hcur, hcurrent, hahead, rfl⟩ | ⟨i, r, hcur, hentry,
    hahead, rfl⟩⟩ := h.position
  · simp only [hcur]
    rw [tail_nil, ← hrest]
    exact advanceHead_walk hreads hst _ h.bounds h.staged rfl hahead
  · simp only [hcur]
    exact advanceHead_walk hreads hst _ h.bounds h.staged rfl (hahead.next hreads hcurrent)
  · simp only [hcur]
    exact advanceHead_walk hreads hst _ h.bounds h.staged rfl hahead

theorem walkOn_walk (fuel : Nat) (out : List Row) (h : Walk c lower upper st it l)
    (hfuel : l.length < fuel) :
    ∃ it', walkOn c fuel it out = (it', out ++ l) ∧ Walk c lower upper st it' [] := by
  induction fuel generalizing it l out with
  | zero => cases hfuel
  | succ fuel ih =>
    rw [walkOn]
    cases l with
    | nil =>
      rw [if_pos (h.stop_iff.mpr rfl), append_nil]
      exact ⟨it, rfl, h⟩
    | cons r l =>
      rw [if_neg fun hstop => by cases h.stop_iff.mp hstop]
      obtain ⟨hkey, hvalue, -⟩ := h.shows
      simp only [hkey, hvalue, head?_cons, Option.map_some]
      obtain ⟨it', hwalk, hend⟩ := ih (out ++ [r]) (h.next hreads hst) (by simpa using hfuel)
      refine ⟨it', ?_, hend⟩
      rw [hwalk, tail_cons, append_assoc]
      rfl

variable (it) (hbounds : it.lower = lower ∧ it.upper = upper)
    (hdb : it.db.lower = lower ∧ it.db.upper = upper)
  (hstaged : it.staged = st)
include hbounds hdb hstaged

theorem seekToFirst_walk : Walk c lower upper st (it.seekToFirst c) (walked c lower upper st) := by
  rw [walked, ← rest_from_lower c lower upper hst]
  exact advanceHead_walk hreads hst _ hbounds hstaged rfl (seekToFirst_ahead hreads hdb)

theorem seek_walk (k : Key) :
    Walk c lower upper st (it.seek c k) ((walked c lower upper st).filter fun r => decide (k ≤ r.1)) := by
  have hdown : ∀ a b : Key × Option Value, a.1 < b.1 → decide (b.1 < k) = true → decide (a.1 < k) =
      true := fun a b hlt hb =>
    decide_eq_true (List.lt_trans hlt (of_decide_eq_true hb))
  have hdrop : st.drop (partitionPoint it.staged fun e => decide (e.1 < k)) = st.filter fun e =>
      decide (k ≤ e.1) := by
    have hle : ∀ e ∈ st, (!decide (e.1 < k)) = decide (k ≤ e.1) := fun e _ => by
      rw [← decide_not]
      exact decide_eq_decide.mpr List.not_lt
    rw [hstaged, partitionPoint, ← filter_congr hle, ← dropWhile_eq_filter hst hdown]
    exact (congrArg _ takeWhile_append_dropWhile.symm).trans drop_left
  have hrest := merge_filter (a := fun u => aboveLower lower u && decide (k ≤ u))
    (b := fun u => decide (k ≤ u))
    (w := fun k => aboveLower lower k && belowUpper upper k) (rows_ascending c defaultFamily) hst
    (fun u hu => (Bool.and_eq_true_iff.mp hu).2) fun u hw hu => by
    rw [(Bool.and_eq_true_iff.mp hw).1, hu]; rfl
  rw [walked, rest, ← hrest, ← hdrop]
  exact advanceHead_walk hreads hst _ hbounds hstaged rfl (seek_ahead hreads hdb k)

end Reads

end Walk

/-! ### The iterator is the cursor -/

section Stands
variable (c : Content) (lower upper : Option Key) (st : List (Key × Option Value))

structure TxnRawIterator.Formed (it : TxnRawIterator) : Prop where
  bounds : it.lower = lower ∧ it.upper = upper
  db : it.db.lower = lower ∧ it.db.upper = upper
  staged : it.staged = st

/-- The iterator stands where the cursor over the view does, on a walk or in the collected
view. -/
structure TxnStands (it : TxnRawIterator) (at_ : Option Row) : Prop where
  formed : it.Formed lower upper st
  position : (∃ before l, rest lower upper (c.rows defaultFamily) st = before ++ l ∧
    Walk c lower upper st it l ∧ at_ = l.head?) ∨
    it.mat = some (rest lower upper (c.rows defaultFamily) st) ∧
    at_ = (rest lower upper (c.rows defaultFamily) st)[it.matAt]?

variable {c lower upper st} {it : TxnRawIterator} {at_ : Option Row}

theorem TxnStands.shows (h : TxnStands c lower upper st it at_) : it.shows at_ := by
  rcases h.position with ⟨before, l, -, hwalk, rfl⟩ | ⟨hmat, rfl⟩
  · exact hwalk.shows
  · rw [shows, key, value, valid, hmat]
    refine ⟨rfl, rfl, ?_⟩
    rw [Bool.eq_iff_iff]
    simp

theorem Walk.formed {l : List Row} (h : Walk c lower upper st it l) : it.Formed lower upper st := by
  refine ⟨h.bounds, ?_, h.staged⟩
  obtain ⟨left, ⟨-, -, hahead, -⟩ | ⟨r, -, -, hahead, -⟩ | ⟨i, r, -, -, hahead, -⟩⟩ :=
    h.position <;> exact hahead.bounds

theorem stands_collected {i : Nat} (hformed : it.Formed lower upper st)
    (hmat : it.mat = some (walked c lower upper st)) (hat : at_ = (walked c lower upper st)[i]?) :
    TxnStands c lower upper st { it with matAt := i }.trackIfValid at_ := by
  obtain ⟨reads, htrack⟩ := trackIfValid_eq { it with matAt := i }
  rw [htrack]
  exact ⟨{ hformed with }, .inr ⟨hmat, hat⟩⟩

variable (c lower upper) in
theorem rest_ascending (hst : Sorted st) : Ascending (walked c lower upper st) :=
  (Sorted.merge (rows_ascending c defaultFamily) hst).filter _

section Collected
variable (hcollected : (it.materialize c).Formed lower upper st ∧
    (it.materialize c).mat = some (walked c lower upper st))
include hcollected

theorem seekForPrev_txn (hst : Sorted st) (k : Key)
    (hok : walked c lower upper st = [] ∨ ∃ r ∈ walked c lower upper st, r.1 ≤ k) :
    TxnStands c lower upper st (it.seekForPrev c k)
    (move (walked c lower upper st) at_ (.seekForPrev k)) := by
  have hsorted := rest_ascending c lower upper hst
  refine stands_collected hcollected.1 hcollected.2 ?_
  rw [hcollected.2, Cursor.move]
  generalize walked c lower upper st = view at *
  show _ = view[partitionPoint view (fun r => decide (r.1 ≤ k)) - 1]?
  have htake : view.takeWhile (fun r => decide (r.1 ≤ k)) = view.filter fun r => decide (r.1 ≤ k) :=
    takeWhile_eq_filter hsorted fun a b hlt hb =>
      decide_eq_true (List.le_trans (List.le_of_lt hlt) (of_decide_eq_true hb))
  rcases hok with rfl | ⟨r, hr, hle⟩
  · rfl
  have hpos : 0 < (view.takeWhile fun r => decide (r.1 ≤ k)).length := by
    rw [htake]
    exact length_pos_of_mem (mem_filter.mpr ⟨hr, decide_eq_true hle⟩)
  obtain ⟨after, hafter⟩ := takeWhile_prefix (l := view) fun r : Row => decide (r.1 ≤ k)
  have hget : ∀ i, i < (view.takeWhile fun r => decide (r.1 ≤ k)).length →
      view[i]? = (view.takeWhile fun r => decide (r.1 ≤ k))[i]? := fun i hi =>
    (congrArg (fun l : List Row => l[i]?) hafter).symm.trans (getElem?_append_left hi)
  rw [partitionPoint, ← htake, getLast?_eq_getElem?]
  exact (hget _ (Nat.sub_lt hpos Nat.one_pos)).symm

theorem seekToLast_txn : TxnStands c lower upper st (it.seekToLast c)
    (move (walked c lower upper st) at_ .seekToLast) := by
  refine stands_collected hcollected.1 hcollected.2 ?_
  rw [hcollected.2, Cursor.move, getLast?_eq_getElem?]
  rfl

end Collected

section Moves
variable (hreads : ∀ start stop, c.fails start stop = false) (hst : Overlay.Sorted st)
include hreads hst

theorem materialize_collects (it : TxnRawIterator)
    (hformed : it.Formed lower upper st) (hmat : it.mat = none) :
    (it.materialize c).Formed lower upper st ∧ (it.materialize c).mat = some (walked c lower upper st) ∧
      (it.materialize c).matAt = 0 := by
  obtain rfl : it.staged = st := hformed.staged
  have hwalk :=
    seekToFirst_walk { it with tracking := false, cur := .stop, mat := none } hreads hst
    hformed.bounds hformed.db rfl
  have hlength : (rest lower upper (c.rows defaultFamily) it.staged).length <
      (c.rows defaultFamily).length + it.staged.length + 1 :=
    Nat.lt_succ_of_le (le_trans (length_filter_le _ _) (merge_length _ _))
  obtain ⟨it', hon, hend⟩ := walkOn_walk hreads hst _ [] hwalk hlength
  have hmaterialize : it.materialize c =
      { it' with cur := it.cur, idx := it.idx, mat := some (rest lower upper
        (c.rows defaultFamily) it.staged), matAt := 0,
                 tracking := true } := by
    rw [materialize, hmat]
    simp [hon]
  rw [hmaterialize]
  exact ⟨⟨hend.formed.bounds, hend.formed.db, hend.formed.staged⟩, rfl, rfl⟩

theorem seek_txn (hformed : it.Formed lower upper st) (k : Key) :
    TxnStands c lower upper st (it.seek c k) (move (walked c lower upper st) at_ (.seek k)) := by
  have hwalk := seek_walk it hreads hst hformed.bounds hformed.db hformed.staged k
  obtain ⟨before, hrows⟩ : ((walked c lower upper st).filter fun r => decide (k ≤ r.1)) <:+
      walked c lower upper st :=
    (rest_ascending c lower upper hst).filter_suffix fun a b hlt ha =>
      decide_eq_true (List.le_trans (of_decide_eq_true ha) (List.le_of_lt hlt))
  exact ⟨hwalk.formed, .inl ⟨before, _, hrows.symm, hwalk, rfl⟩⟩

theorem seekToFirst_txn (hformed : it.Formed lower upper st) :
    TxnStands c lower upper st (it.seekToFirst c) (move (walked c lower upper st) at_ .seekToFirst) := by
  have hwalk := seekToFirst_walk it hreads hst hformed.bounds hformed.db hformed.staged
  exact ⟨hwalk.formed, .inl ⟨[], _, rfl, hwalk, rfl⟩⟩

theorem next_txn (h : TxnStands c lower upper st it at_) :
    TxnStands c lower upper st (it.next c) (move (walked c lower upper st) at_ .next) := by
  have hsorted := rest_ascending c lower upper hst
  rcases h.position with ⟨before, l, hview, hwalk, rfl⟩ | ⟨hmat, rfl⟩
  · have hnext := hwalk.next hreads hst
    cases l with
    | nil => exact ⟨hnext.formed, .inl ⟨before, [], hview, hnext, rfl⟩⟩
    | cons r l =>
      refine ⟨hnext.formed, .inl ⟨before ++ [r], l, by simpa using hview, hnext, ?_⟩⟩
      exact congrArg List.head? (filter_sides hsorted hview).1
  · have hnext : it.next c = { it with matAt := if it.matAt < (walked c lower upper st).length
        then it.matAt + 1 else it.matAt }.trackIfValid := by
      rw [TxnRawIterator.next, hmat]
    rw [hnext]
    refine stands_collected h.formed hmat ?_
    rw [next_getElem? hsorted]
    split
    · rfl
    · rename_i hge
      exact (getElem?_eq_none (not_lt.mp hge)).symm

/-- The view is collected, and where the iterator stood is kept only if it was collected before. -/
theorem materialize_txn (h : TxnStands c lower upper st it at_) :
    (it.materialize c).Formed lower upper st ∧ (it.materialize c).mat =
    some (walked c lower upper st) := by
  rcases h.position with ⟨before, l, hview, hwalk, rfl⟩ | ⟨hmat, rfl⟩
  · have hcollect := materialize_collects hreads hst it h.formed hwalk.forward
    exact ⟨hcollect.1, hcollect.2.1⟩
  · have hsame : it.materialize c = it := by rw [materialize, hmat]
    rw [hsame]
    exact ⟨h.formed, hmat⟩

theorem prev_txn (hfits : (walked c lower upper st).length ≤ usizeMax)
    (h : TxnStands c lower upper st it at_)
    (hwalking : it.mat = none → ∀ k, it.key = some k → ∀ r ∈ walked c lower upper st, ¬ r.1 < k)
    (hcollected : it.mat = some (walked c lower upper st) →
      it.matAt ≠ (walked c lower upper st).length ∨ walked c lower upper st = []) :
    TxnStands c lower upper st (it.prev c) (move (walked c lower upper st) at_ .prev) := by
  have hend : (walked c lower upper st)[usizeMax]? = none := getElem?_eq_none hfits
  obtain ⟨hformed, hmat'⟩ := materialize_txn hreads hst h
  refine stands_collected hformed hmat' ?_
  rcases h.position with ⟨before, l, hview, hwalk, rfl⟩ | ⟨hmat, rfl⟩
  · -- the collected view is entered at its start
    have hzero := (materialize_collects hreads hst it h.formed hwalk.forward).2.2
    rw [hzero, if_neg (lt_irrefl 0), hend]
    cases l with
    | nil => rfl
    | cons r l =>
      have hkey : it.key = some r.1 := hwalk.shows.1
      have hnone := filter_eq_nil_iff.mpr fun x hx =>
        decide_eq_true_iff.not.mpr (hwalking hwalk.forward r.1 hkey x hx)
      exact congrArg List.getLast? hnone
  · have hsame : it.materialize c = it := by rw [materialize, hmat]
    rw [hsame, prev_getElem? (rest_ascending c lower upper hst)]
    have hin := hcollected hmat
    generalize walked c lower upper st = view at *
    by_cases hpos : 0 < it.matAt
    · rw [if_pos hpos]
      by_cases hlt : it.matAt < view.length
      · rw [if_pos ⟨hpos, hlt⟩]
      · rw [if_neg fun h => hlt h.2, eq_comm]
        refine getElem?_eq_none ?_
        rcases hin with hne | rfl
        · omega
        · exact Nat.zero_le _
    · rw [if_neg hpos, if_neg fun h => hpos h.1, hend]

/-- Before the first seek, the iterator stands nowhere; if nothing is in view, that is the
end of the walk. -/
theorem stands_of_fresh (hformed : it.Formed lower upper st) (hmat : it.mat = none)
    (hcur : it.cur = .stop) (hidx : it.idx = 0)
    (hdb : it.db = (RawIterator.blank lower upper).seekToFirst c defaultFamily)
    (hempty : walked c lower upper st = []) : TxnStands c lower upper st it none := by
  have hahead : Ahead c lower upper it.db ((c.rows defaultFamily).filter fun r =>
      aboveLower lower r.1) := by
    rw [hdb]
    exact seekToFirst_ahead hreads ⟨rfl, rfl⟩
  refine ⟨hformed, .inl ⟨[], [], hempty,
    ⟨hformed.bounds, hformed.staged, hmat, _, .inl ⟨hcur, rfl, hahead, ?_⟩⟩, rfl⟩⟩
  rw [hidx, drop_zero, rest_from_lower c lower upper hst]
  exact hempty

variable (hfits : (walked c lower upper st).length ≤ usizeMax)
    (hview : walked c lower upper st = txnView c ops lower upper)
include hfits hview

/-- **One move.** -/
theorem TxnStands.move (h : TxnStands c lower upper st it at_) (m : Move Key)
    (hok : it.regular c ops lower upper m = true) :
    TxnStands c lower upper st (it.move c m) (move (walked c lower upper st) at_ m) := by
  cases m with
  | seekToFirst => exact seekToFirst_txn hreads hst h.formed
  | seekToLast => exact seekToLast_txn (materialize_txn hreads hst h)
  | seek k => exact seek_txn hreads hst h.formed k
  | seekForPrev k =>
    refine seekForPrev_txn (materialize_txn hreads hst h) hst k ?_
    rw [hview]
    simpa [regular] using hok
  | next => exact next_txn hreads hst h
  | prev =>
    refine prev_txn hreads hst hfits h (fun hmat k hk => ?_) fun hmat => ?_
    · rw [hview]
      simpa [regular, hmat, hk] using hok
    · simpa [regular, hmat, or_comm] using hok

theorem TxnStands.moves {moves : List (Move Key)} (h : TxnStands c lower upper st it at_)
    (hok : Runs.Along (fun it m => some (it.move c m)) (regular c ops lower upper) it moves = true) :
    TxnStands c lower upper st (moves.foldl (TxnRawIterator.move c) it)
      (moves.foldl (Cursor.move (walked c lower upper st)) at_) := by
  induction moves generalizing it at_ with
  | nil => exact h
  | cons m moves ih =>
    simp only [Runs.Along, Bool.and_eq_true] at hok
    exact ih (h.move hreads hst hfits hview m hok.1) hok.2

/-- **The first move**, unless it is a step up. -/
theorem first_move (hformed : it.Formed lower upper st)
    (hmat : it.mat = none) (m : Move Key) (hm : m ≠ .next) (hok : it.regular c ops lower upper m = true) :
    TxnStands c lower upper st (it.move c m) (move (walked c lower upper st) none m) := by
  obtain ⟨hformed', hmat', hzero⟩ := materialize_collects hreads hst it hformed hmat
  cases m with
  | seekToFirst => exact seekToFirst_txn hreads hst hformed
  | seekToLast => exact seekToLast_txn ⟨hformed', hmat'⟩
  | seek k => exact seek_txn hreads hst hformed k
  | seekForPrev k =>
    refine seekForPrev_txn ⟨hformed', hmat'⟩ hst k ?_
    rw [hview]
    simpa [regular] using hok
  | next => exact absurd rfl hm
  | prev =>
    refine stands_collected hformed' hmat' ?_
    rw [hzero, if_neg (lt_irrefl 0), getElem?_eq_none hfits]
    rfl

end Moves

end Stands

def TxnRawIterator.after (c : Content) (ops : List TxnOp) (lower upper : Option Key)
    (scanReads : List Key)
    (moves : List (Move Key)) : TxnRawIterator :=
  moves.foldl (move c) (TxnRawIterator.new c ops lower upper scanReads)

def txnCursorAfter (c : Content) (ops : List TxnOp) (lower upper : Option Key)
    (moves : List (Move Key)) : Option Row :=
  moves.foldl (move (txnView c ops lower upper)) none

theorem rest_staged (c : Content) (ops : List TxnOp) (lower upper : Option Key)
    (hstaged : stagedRaw c ops = true) :
    rest lower upper (c.rows defaultFamily) (stagedEntries c ops) = txnView c ops lower upper := by
  have hop : ∀ op ∈ ops, op.cf = defaultFamily ∧ c.defaultRaw = true := by simpa [stagedRaw] using hstaged
  have hentries : (ops.map fun op => (c.encode op.cf op.key, op.value)) = ops.map fun op =>
      (op.key, op.value) := by
    refine map_congr_left fun op h => ?_
    simp [Content.encode, encodeCfKey, cfEncodeEffective, hop op h]
  have hall : (ops.filter fun op => op.cf == defaultFamily) = ops :=
    filter_eq_self.mpr fun op h => by simp [(hop op h).1]
  rw [rest, stagedEntries, hentries, merge_collect (rows_ascending c defaultFamily), txnView, hall]

/-- **The iterator of a transaction is a cursor over its view.** As long as reads succeed, the
staged operations are on raw keys, the first move is not a step up, and no move asks for
what the iterator gets wrong. -/
theorem txn_iterator_as_cursor (c : Content) (ops : List TxnOp) (lower upper : Option Key)
    (scanReads : List Key)
    (moves : List (Cursor.Move Key)) (hreads : ∀ start stop, c.fails start stop = false)
    (hfits : (txnView c ops lower upper).length ≤ usizeMax) (hstaged : stagedRaw c ops = true)
    (hfirst : moves.head? ≠ some .next ∨ txnView c ops lower upper = [])
    (hok : Runs.Along (fun it m => some (it.move c m)) (TxnRawIterator.regular c ops lower upper)
      (TxnRawIterator.new c ops lower upper scanReads) moves = true) :
    (TxnRawIterator.after c ops lower upper scanReads moves).shows
    (txnCursorAfter c ops lower upper moves) := by
  have hst : Overlay.Sorted (stagedEntries c ops) := Overlay.collect_sorted _
  have hview := rest_staged c ops lower upper hstaged
  have hformed : (TxnRawIterator.new c ops lower upper scanReads).Formed lower upper
    (stagedEntries c ops) :=
    ⟨⟨rfl, rfl⟩, ⟨rfl, rfl⟩, rfl⟩
  rw [← hview] at hfits
  rw [TxnRawIterator.after, txnCursorAfter, ← hview]
  rcases hfirst with hfirst | hempty
  · cases moves with
    | nil => exact ⟨rfl, rfl, rfl⟩
    | cons m moves =>
      simp only [Runs.Along, Bool.and_eq_true] at hok
      have hstands := first_move hreads hst hfits hview hformed rfl m
        (fun h => hfirst (by rw [h]; rfl)) hok.1
      exact (hstands.moves hreads hst hfits hview hok.2).shows
  · have hstands := stands_of_fresh hreads hst hformed rfl rfl rfl rfl (hview.trans hempty)
    exact (hstands.moves hreads hst hfits hview hok).shows

/-- The transaction deleted 6, and its iterator starts there. -/
theorem staged_delete_hides_nothing :
    (TxnRawIterator.after fourKeys [⟨defaultFamily, [6], none⟩] none none [] [.seekToFirst]).key =
    some [6] ∧
      txnCursorAfter fourKeys [⟨defaultFamily, [6], none⟩] none none [.seekToFirst] =
      some ([7], [9]) := by
  decide +kernel

-- a put of another family shows up, and a put of this one behind its prefix
example : (after fourKeys [⟨[98], [1], some [9]⟩] (some [9]) none [] [.seekToFirst]).key =
    some [98, 0, 1] ∧
    (after fourKeys [⟨defaultFamily, [1], some [9]⟩] (some [9]) none [] [.seekToFirst]).key =
      some (defaultFamily ++ [0, 1]) := by
  decide +kernel

/-- Keys 6, 7 and 8 of a DB without named families. -/
def rawKeys : Content where
  entries := [([6], 1), ([7], 2), ([8], 3)].map fun (k, n) => .put n k [9]
  distinct := by unfold Layers.Distinct; decide
  seq := 9
  fails _ _ := false
  known := []
  defaultRaw := true

-- one down from 7 is the end, and the last key up to 5 is 6
example : (after rawKeys [] none none [] [.seek [7], .prev]).valid = false ∧
    (after rawKeys [] none none [] [.seekForPrev [5]]).key = some [6] := by
  decide +kernel

-- up from nowhere is 6, and one down from past the end is 8
example : (after rawKeys [] none none [] [.next]).key = some [6] ∧
    (after rawKeys [] none none [] [.seekToLast, .next, .prev]).key = some [8] := by
  decide +kernel

/-- 7 is deleted and 7 5 put. -/
def twoStaged : List TxnOp :=
  [⟨defaultFamily, [7], some [1]⟩, ⟨defaultFamily, [7], none⟩, ⟨defaultFamily, [7, 5], some [2]⟩]

def upAndDown : List (Move Key) :=
  [.seek [7], .next, .seekToLast, .prev, .prev, .next, .seekForPrev [7, 9], .seekToFirst]

theorem txn_iterator_as_cursor_staged :
    (TxnRawIterator.after rawKeys twoStaged none (some [9]) [] upAndDown).shows
      (txnCursorAfter rawKeys twoStaged none (some [9]) upAndDown) :=
  txn_iterator_as_cursor rawKeys twoStaged none (some [9]) [] upAndDown (fun _ _ => rfl)
    (by decide +kernel) (by decide)
    (.inl (by decide)) (by decide +kernel)

end PedraDb.Families
