import PedraDb.Lookup
import PedraDb.Library.Recency
import Mathlib.Algebra.BigOperators.Group.List.Basic

/-! The cache of decoded blocks.

A shard keeps its blocks in a map and their recency in a queue of keys stamped with an
epoch. A hit pushes the key once more with a new epoch; what it leaves behind in the queue
is a ghost, which eviction pops and passes over. Hits stop pushing once the queue is four
times as long as the map, so ghosts stay few, and the accounts are exact
(`block_cache_exact`). -/
namespace PedraDb.Cache.Blocks
open List Recency

structure CachedSlot where
  block : Table
  /-- The epoch of the slot's entry in the queue. -/
  insEpoch : Nat
  bytes : Nat
  deriving DecidableEq

structure BlockKey where
  /-- The number of the path. -/
  id : Nat
  blockIdx : Nat
  deriving DecidableEq

structure BlockCacheInner where
  map : List (BlockKey × CachedSlot)
  /-- The least recent first. -/
  order : List (BlockKey × Nat)
  epoch : Nat
  /-- 0 is no limit. -/
  capacity : Nat
  budgetBytes : Nat
  usedBytes : Nat
  deriving DecidableEq

def saturatingAdd (a b : Nat) : Nat := min (a + b) (2 ^ 64 - 1)

def blockPayloadBytes (block : Table) : Nat :=
  block.foldl (fun acc v => saturatingAdd acc (v.key.length + v.value.length + 16)) 0

namespace BlockCacheInner

def new (capacity budgetBytes : Nat) : BlockCacheInner := ⟨[], [], 0, capacity, budgetBytes, 0⟩

/-- Push the key of a live slot once more, while the queue is short. -/
def touch (g : BlockCacheInner) (key : BlockKey) (slot : CachedSlot) : BlockCacheInner :=
  if max (g.map.length * 4) 64 ≤ g.order.length then g
  else
    let epoch := (g.epoch + 1) % 2 ^ 64
    { g with
      epoch := epoch
      map := setRow g.map key { slot with insEpoch := epoch }
      order := g.order ++ [(key, epoch)] }

def needsRoom (g : BlockCacheInner) (extra : Nat) : Bool :=
  (decide (0 < g.capacity) && decide (g.capacity ≤ g.map.length) ||
    decide (0 < g.budgetBytes) && decide (g.budgetBytes < saturatingAdd g.usedBytes extra)) &&
    !g.map.isEmpty

/-- Pop entries until one is of a live slot, and drop that slot. -/
def evictOne (g : BlockCacheInner) : BlockCacheInner × Bool :=
  match g.order.dropWhile fun e => !isLive CachedSlot.insEpoch g.map e with
  | [] => ({ g with order := [] }, false)
  | (old, _) :: rest =>
    ({ g with
      order := rest
      map := dropRow g.map old
      usedBytes := g.usedBytes - ((g.map.lookup old).map CachedSlot.bytes).getD 0 }, true)

/-- The loop before an insertion. Every turn pops an entry, so it takes no more turns than
the queue has entries. -/
def makeRoom (extra : Nat) : Nat → BlockCacheInner → BlockCacheInner
  | 0, g => g
  | turns + 1, g =>
    if g.needsRoom extra then
      match g.evictOne with
      | (g', true) => makeRoom extra turns g'
      | (g', false) => g'
    else g

def insert (g : BlockCacheInner) (key : BlockKey) (block : Table) : BlockCacheInner :=
  let extra := blockPayloadBytes block
  let g := makeRoom extra g.order.length g
  let epoch := (g.epoch + 1) % 2 ^ 64
  { g with
    epoch := epoch
    usedBytes := saturatingAdd g.usedBytes extra
    map := (key, ⟨block, epoch, extra⟩) :: g.map
    order := g.order ++ [(key, epoch)] }

end BlockCacheInner

/-- What happens to a shard under its lock. A call of `get_or_insert_with_id` looks the key up,
loads the block without the lock if there was none, and looks again before it inserts. -/
inductive Event where
  | lookup (key : BlockKey)
  | fill (key : BlockKey) (block : Table)
  | clear
  deriving DecidableEq

def BlockCacheInner.step (g : BlockCacheInner) : Event → BlockCacheInner
  | .lookup key =>
    match g.map.lookup key with
    | some slot => g.touch key slot
    | none => g
  | .fill key block =>
    match g.map.lookup key with
    | some slot => g.touch key slot
    | none => g.insert key block
  | .clear => { g with map := [], order := [], epoch := 0, usedBytes := 0 }

def fxSeed : Nat := 0x517cc1b727220a95

/-- The shard of a key, of `n`. -/
def shardIdx (n : Nat) (key : BlockKey) : Nat :=
  if n = 1 then 0 else (key.id * fxSeed % 2 ^ 64 ^^^ key.blockIdx) &&& (n - 1)

def Event.at (n i : Nat) : Event → Bool
  | .lookup key | .fill key _ => shardIdx n key == i
  | .clear => true

/-- What an event may add to a shard. -/
def Event.bytes : Event → Nat
  | .fill _ block => blockPayloadBytes block
  | .lookup _ | .clear => 0

/-- The cache is its shards. -/
def step (c : List BlockCacheInner) (e : Event) : List BlockCacheInner :=
  c.mapIdx fun i g => if e.at c.length i then g.step e else g

/-- The largest number of blocks a shard holds in a run. -/
def peak : BlockCacheInner → List Event → Nat
  | g, [] => g.map.length
  | g, e :: es => max g.map.length (peak (g.step e) es)

/-! ### Accounts -/

/-- A shard that never held more than `n` blocks. -/
structure Inv (n : Nat) (g : BlockCacheInner) : Prop where
  sorted : ∃ rows, Sorted CachedSlot.insEpoch rows g.map g.order g.epoch
  used : g.usedBytes = (g.map.map fun e => e.2.bytes).sum
  live : g.map.length ≤ n
  ghosts : g.order.length ≤ g.map.length + 3 * n + 64

/-- A block above the budget is held alone. -/
structure Fits (g : BlockCacheInner) : Prop where
  count : 0 < g.capacity → g.map.length ≤ g.capacity
  bytes : 0 < g.budgetBytes →
    g.usedBytes ≤ g.budgetBytes ∨ ∃ e, g.map = [e] ∧ g.budgetBytes < e.2.bytes

/-- What evictions leave of a shard. -/
structure Evicted (g g' : BlockCacheInner) : Prop where
  keys : g'.map.map Prod.fst ⊆ g.map.map Prod.fst
  epoch : g'.epoch = g.epoch
  used : g'.usedBytes ≤ g.usedBytes

variable {n : Nat} {g g' g'' : BlockCacheInner} {key : BlockKey}

theorem Evicted.trans (h : Evicted g g') (h' : Evicted g' g'') : Evicted g g'' :=
  ⟨List.Subset.trans h'.keys h.keys, h'.epoch.trans h.epoch, Nat.le_trans h'.used h.used⟩

theorem Inv.mono {m : Nat} (h : Inv n g) (hle : n ≤ m) : Inv m g := by
  have hghosts := h.ghosts
  exact ⟨h.sorted, h.used, Nat.le_trans h.live hle, by omega⟩

/-- **A shard that holds blocks can evict one.** -/
theorem Inv.evictOne (h : Inv n g) (hne : g.map ≠ []) :
    ∃ g', g.evictOne = (g', true) ∧ Inv n g' ∧ Evicted g g' ∧ g'.order.length < g.order.length := by
  obtain ⟨rows, hsorted⟩ := h.sorted
  have hrows : rows ≠ [] := fun hnil => hne (hnil ▸ hsorted.perm).nil_eq.symm
  obtain ⟨old, slot, rest, order', rfl, hdrop, hslot, hrest, hlt⟩ := hsorted.first hrows
  have hlen := hsorted.perm.length_eq
  have hlen' := hrest.perm.length_eq
  have hsum := (hsorted.perm.map fun e => e.2.bytes).sum_eq
  have hsum' := (hrest.perm.map fun e => e.2.bytes).sum_eq
  rw [map_cons, sum_cons] at hsum
  rw [length_cons] at hlen
  have hused := h.used
  have hlive := h.live
  have hghosts := h.ghosts
  simp only [BlockCacheInner.evictOne, hdrop, hslot, Option.map_some, Option.getD_some]
  refine ⟨_, rfl, ⟨⟨rest, hrest⟩, ?_, ?_, ?_⟩, ⟨filter_sublist.map _ |>.subset, rfl, Nat.sub_le _ _⟩, hlt⟩
  all_goals
    dsimp only at hsum ⊢
    omega

theorem Inv.makeRoom {turns : Nat} (h : Inv n g) (extra : Nat) (hturns : g.order.length ≤ turns) :
    Inv n (g.makeRoom extra turns) ∧ Evicted g (g.makeRoom extra turns) ∧
      (g.makeRoom extra turns).needsRoom extra = false := by
  induction turns generalizing g with
  | zero =>
    obtain ⟨rows, hsorted⟩ := h.sorted
    have hsub := hsorted.tracks.sub
    rw [length_eq_zero_iff.mp (Nat.le_zero.mp hturns), sublist_nil, map_eq_nil_iff] at hsub
    have hnil : g.map = [] := (hsub ▸ hsorted.perm).nil_eq.symm
    exact ⟨h, ⟨Subset.refl _, rfl, .refl⟩,
      by simp [BlockCacheInner.makeRoom, BlockCacheInner.needsRoom, hnil]⟩
  | succ turns ih =>
    rw [BlockCacheInner.makeRoom]
    cases hroom : g.needsRoom extra with
    | false => exact ⟨h, ⟨Subset.refl _, rfl, .refl⟩, hroom⟩
    | true =>
      have hne : g.map ≠ [] := by
        intro hnil
        simp [BlockCacheInner.needsRoom, hnil] at hroom
      obtain ⟨g', hev, hinv, hevicted, hlt⟩ := h.evictOne hne
      obtain ⟨hinv', hevicted', hdone⟩ := ih hinv (by omega)
      simp only [hev, if_true]
      exact ⟨hinv', hevicted.trans hevicted', hdone⟩

/-- What a step that keeps the accounts may do to the two counters. -/
structure Keeps (n extra : Nat) (g g' : BlockCacheInner) : Prop where
  inv : Inv (max n g'.map.length) g'
  fits : Fits g'
  epoch : g'.epoch ≤ g.epoch + 1
  used : g'.usedBytes ≤ g.usedBytes + extra

theorem Inv.touch {slot : CachedSlot} (h : Inv n g) (hfit : Fits g) (hslot : g.map.lookup key = some slot)
    (hepoch : g.epoch + 1 < 2 ^ 64) (extra : Nat) : Keeps n extra g (g.touch key slot) := by
  obtain ⟨rows, hsorted⟩ := h.sorted
  have hmem : (key, slot) ∈ rows := hsorted.lookup_iff.mp hslot
  have hlive := h.live
  rw [BlockCacheInner.touch]
  split
  · exact ⟨h.mono (Nat.le_max_left _ _), hfit, Nat.le_succ _, Nat.le_add_right _ _⟩
  · simp only [Nat.mod_eq_of_lt hepoch]
    have hset := hsorted.set (x := { slot with insEpoch := g.epoch + 1 }) (mem_map_of_mem hmem) rfl
    -- the row of the key is the slot, so its bytes stay
    have hbytes : (setRow g.map key { slot with insEpoch := g.epoch + 1 }).map (fun e => e.2.bytes) =
        g.map.map fun e => e.2.bytes := by
      rw [setRow, map_map]
      refine map_congr_left fun e he => ?_
      by_cases hk : e.1 = key
      · have hrow := hsorted.lookup_iff.mpr (hsorted.perm.mem_iff.mpr he)
        rw [hk, hslot] at hrow
        simp [hk, Option.some.inj hrow]
      · simp [hk]
    have hlen : (setRow g.map key { slot with insEpoch := g.epoch + 1 }).length = g.map.length :=
      length_map _
    refine ⟨⟨⟨_, hset⟩, ?_, Nat.le_max_right _ _, ?_⟩, ⟨?_, fun hbudget => ?_⟩, .refl,
      Nat.le_add_right _ _⟩
    · rw [hbytes]
      exact h.used
    · simp only [hlen, length_append, length_singleton]
      omega
    · rw [hlen]
      exact hfit.count
    · refine (hfit.bytes hbudget).imp_right ?_
      rintro ⟨e, hone, hover⟩
      rw [hone] at hbytes ⊢
      exact ⟨_, rfl, Nat.lt_of_lt_of_eq hover (cons.inj hbytes).1.symm⟩

theorem Inv.insert (h : Inv n g) (hnone : g.map.lookup key = none) (block : Table)
    (hepoch : g.epoch + 1 < 2 ^ 64) (hbytes : g.usedBytes + blockPayloadBytes block < 2 ^ 64) :
    Keeps n (blockPayloadBytes block) g (g.insert key block) := by
  obtain ⟨hinv, hevicted, hroom⟩ := h.makeRoom (blockPayloadBytes block) .refl
  rw [BlockCacheInner.insert]
  generalize BlockCacheInner.makeRoom _ _ _ = g' at *
  obtain ⟨rows, hsorted⟩ := hinv.sorted
  have hused' := hevicted.used
  have hadd : saturatingAdd g'.usedBytes (blockPayloadBytes block) =
      g'.usedBytes + blockPayloadBytes block := by
    unfold saturatingAdd
    omega
  have hno : key ∉ rows.map Prod.fst := by
    intro hin
    have hold := hevicted.keys ((hsorted.perm.map _).subset hin)
    obtain ⟨e, he, rfl⟩ := mem_map.mp hold
    rw [lookup_eq_none_iff] at hnone
    simpa using hnone e he
  have hfree : g'.map ≠ [] → (0 < g'.capacity → g'.map.length < g'.capacity) ∧
      (0 < g'.budgetBytes → g'.usedBytes + blockPayloadBytes block ≤ g'.budgetBytes) := by
    intro hne
    simpa [BlockCacheInner.needsRoom, hne, hadd] using hroom
  simp only [hevicted.epoch, Nat.mod_eq_of_lt hepoch, hadd]
  have hput := hsorted.put (x := ⟨block, g'.epoch + 1, blockPayloadBytes block⟩) hno rfl
  rw [hevicted.epoch] at hput
  have hused := hinv.used
  have hlive := hinv.live
  have hghosts := hinv.ghosts
  refine ⟨⟨⟨_, hput⟩, ?_, Nat.le_max_right _ _, ?_⟩, ⟨fun hcap => ?_, fun hbudget => ?_⟩, .refl,
    by simpa using hused'⟩
  · simp only [map_cons, sum_cons]
    omega
  · simp only [length_append, length_cons, length_nil]
    omega
  · by_cases hne : g'.map = []
    · rw [hne]
      exact hcap
    · exact (hfree hne).1 hcap
  · by_cases hne : g'.map = []
    · rw [hne] at hused ⊢
      simp only [map_nil, sum_nil] at hused
      by_cases hover : g'.budgetBytes < blockPayloadBytes block
      · exact .inr ⟨_, rfl, hover⟩
      · exact .inl (by simp only [hused]; omega)
    · exact .inl ((hfree hne).2 hbudget)

theorem inv_empty (hmap : g.map = []) (horder : g.order = []) (hused : g.usedBytes = 0) :
    Inv n g ∧ Fits g := by
  refine ⟨⟨⟨[], ?_⟩, ?_, ?_, ?_⟩, ⟨?_, ?_⟩⟩
  · rw [hmap, horder]
    exact .nil
  all_goals simp [hmap, horder, hused]

/-- An event under the lock of a shard. -/
theorem Inv.step (h : Inv n g) (hfit : Fits g) (e : Event) (hepoch : g.epoch + 1 < 2 ^ 64)
    (hbytes : g.usedBytes + e.bytes < 2 ^ 64) : Keeps n e.bytes g (g.step e) := by
  cases e with
  | lookup key =>
    rw [BlockCacheInner.step]
    cases hslot : g.map.lookup key with
    | none => exact ⟨h.mono (Nat.le_max_left _ _), hfit, Nat.le_succ _, Nat.le_add_right _ _⟩
    | some slot => exact h.touch hfit hslot hepoch _
  | fill key block =>
    rw [BlockCacheInner.step]
    cases hslot : g.map.lookup key with
    | none => exact h.insert hslot block hepoch hbytes
    | some slot => exact h.touch hfit hslot hepoch _
  | clear =>
    have hempty := inv_empty (n := max n 0) (g := g.step .clear) rfl rfl rfl
    exact ⟨hempty.1, hempty.2, Nat.zero_le _, Nat.zero_le _⟩

theorem length_le_peak (g : BlockCacheInner) (es : List Event) : g.map.length ≤ peak g es := by
  cases es with
  | nil => exact .refl
  | cons e es => exact Nat.le_max_left _ _

/-- The run of a shard. -/
theorem Inv.run {es : List Event} (h : Inv n g) (hfit : Fits g) (hcalls : g.epoch + es.length < 2 ^ 64)
    (hbytes : g.usedBytes + (es.map Event.bytes).sum < 2 ^ 64) :
    Inv (max n (peak g es)) (es.foldl BlockCacheInner.step g) ∧
      Fits (es.foldl BlockCacheInner.step g) := by
  induction es generalizing n g with
  | nil => exact ⟨h.mono (Nat.le_max_left _ _), hfit⟩
  | cons e es ih =>
    rw [length_cons] at hcalls
    rw [map_cons, sum_cons] at hbytes
    have hstep := h.step hfit e (by omega) (by omega)
    have hepoch := hstep.epoch
    have hused := hstep.used
    obtain ⟨hinv, hfits⟩ := ih hstep.inv hstep.fits (by omega) (by omega)
    refine ⟨hinv.mono ?_, hfits⟩
    have := length_le_peak (g.step e) es
    simp only [peak]
    omega

/-- A shard sees the calls that go to it. -/
theorem run_shard (shards : List BlockCacheInner) (es : List Event) (i : Nat) :
    (es.foldl step shards)[i]? =
      shards[i]?.map fun g => (es.filter (Event.at shards.length i)).foldl BlockCacheInner.step g := by
  induction es generalizing shards with
  | nil => simp
  | cons e es ih =>
    rw [foldl_cons, ih, step, getElem?_mapIdx, length_mapIdx, Option.map_map]
    congr 1
    funext g
    cases hat : e.at shards.length i <;> simp [hat]

/-- **The accounts of a shard are exact** after every sequence of calls on a cache of any number
of shards and with any limits, as long as the calls of the shard and the bytes they load can
be counted in 64 bits. -/
theorem block_cache_exact (n capacity budgetBytes : Nat) (es : List Event) (i : Nat) (hi : i < n)
    (hcalls : (es.filter (Event.at n i)).length < 2 ^ 64)
    (hbytes : ((es.filter (Event.at n i)).map Event.bytes).sum < 2 ^ 64) :
    ∃ g, (es.foldl step (replicate n (.new capacity budgetBytes)))[i]? = some g ∧
      g.usedBytes = (g.map.map fun e => e.2.bytes).sum ∧
      (∀ e ∈ g.map, g.order.count (e.1, e.2.insEpoch) = 1) ∧
      g.order.length ≤ 4 * peak (.new capacity budgetBytes) (es.filter (Event.at n i)) + 64 ∧
      Fits g := by
  have hrun := run_shard (replicate n (.new capacity budgetBytes)) es i
  rw [getElem?_replicate, if_pos hi, length_replicate, Option.map_some] at hrun
  have hnew : Inv 0 (.new capacity budgetBytes) ∧ Fits (.new capacity budgetBytes) :=
    inv_empty rfl rfl rfl
  obtain ⟨hinv, hfit⟩ := hnew.1.run hnew.2 (by simpa [BlockCacheInner.new] using hcalls)
    (by simpa [BlockCacheInner.new] using hbytes)
  rw [Nat.zero_max] at hinv
  refine ⟨_, hrun, hinv.used, fun e he => ?_, ?_, hfit⟩
  · obtain ⟨rows, hsorted⟩ := hinv.sorted
    have hin : (e.1, e.2.insEpoch) ∈ rows.map (used CachedSlot.insEpoch) :=
      mem_map.mpr ⟨e, hsorted.perm.mem_iff.mpr he, rfl⟩
    exact count_eq_one_of_mem hsorted.tracks.nodup (hsorted.tracks.sub.subset hin)
  · have hlive := hinv.live
    have hghosts := hinv.ghosts
    omega

theorem block_cache_exact_evicts :
    ∃ g, ([.fill ⟨1, 0⟩ [.put 1 [7] [8]], .lookup ⟨1, 0⟩, .fill ⟨2, 0⟩ []].foldl step [.new 1 0])[0]? =
        some g ∧
      g.usedBytes = (g.map.map fun e => e.2.bytes).sum ∧
      (∀ e ∈ g.map, g.order.count (e.1, e.2.insEpoch) = 1) ∧ g.order.length ≤ 4 * 1 + 64 ∧ Fits g :=
  block_cache_exact 1 1 0 [.fill ⟨1, 0⟩ [.put 1 [7] [8]], .lookup ⟨1, 0⟩, .fill ⟨2, 0⟩ []] 0
    (by decide) (by decide) (by decide)

end PedraDb.Cache.Blocks
