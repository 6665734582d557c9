import Mathlib.Algebra.GroupWithZero.Nat
import Mathlib.Data.List.Basic

/-! A shard of the answer cache.

An answer is stamped with the shard's generation, and a clear moves the generation on, so
that old answers are held but not given. A shard that is full freezes. A key that is
invalidated leaves the map and not the queue: the queue grows with every key that comes
back, and answers from before a clear keep their room (`order_unbounded`). What is given is
never old (`answers_since`). -/
namespace PedraDb.Cache
open List

structure Answer (V : Type) where
  gen : Nat
  epoch : Nat
  value : V
  deriving DecidableEq

/-- `AnswerCacheInner` and its flag. -/
structure AnswerShard (K V : Type) where
  map : List (K × Answer V)
  order : List (K × Nat)
  capacity : Nat
  gen : Nat
  epoch : Nat
  isFrozen : Bool
  deriving DecidableEq

namespace AnswerShard
variable {K V : Type} [DecidableEq K]

def answerCacheShards : Nat := 16

def new (capacity : Nat) : AnswerShard K V :=
  ⟨[], [], if capacity = 0 then 0 else max (capacity / answerCacheShards) 1, 0, 0, false⟩

section
variable (g : AnswerShard K V)

def get (key : K) : Option V :=
  if g.capacity = 0 then none
  else
    match g.map.lookup key with
    | some a => if a.gen = g.gen then some a.value else none
    | none => none

def insert (key : K) (value : V) : AnswerShard K V :=
  if g.isFrozen || g.capacity == 0 then g
  else if (g.map.lookup key).isSome then
    { g with map := g.map.map fun e => if e.1 = key
      then (e.1, { e.2 with gen := g.gen, value := value }) else e }
  else if g.capacity ≤ g.map.length then { g with isFrozen := true }
  else
    { g with
      epoch := (g.epoch + 1) % 2 ^ 64
      order := g.order ++ [(key, g.epoch)]
      map := (key, ⟨g.gen, g.epoch, value⟩) :: g.map }

def clear : AnswerShard K V :=
  if (g.gen + 1) % 2 ^ 64 = 0 then { g with isFrozen := false, map := [], order := [], gen := 1 }
  else { g with isFrozen := false, gen := (g.gen + 1) % 2 ^ 64 }

def invalidate (key : K) : AnswerShard K V :=
  { g with isFrozen := false, map := g.map.filter fun e => e.1 ≠ key }

end

def invalidateMany (g : AnswerShard K V) (keys : List K) : AnswerShard K V := keys.foldl invalidate g

/-- `invalidate` is `invalidateMany` of one key; the keys are those of the shard. -/
inductive Event (K V : Type) where
  | insert (key : K) (value : V)
  | invalidateMany (keys : List K)
  | clear

def step (g : AnswerShard K V) : Event K V → AnswerShard K V
  | .insert key value => g.insert key value
  | .invalidateMany keys => g.invalidateMany keys
  | .clear => g.clear

/-- The answers that were inserted since the last clear and the last invalidation of their key. -/
def since (answers : List (K × V)) : Event K V → List (K × V)
  | .insert key value => (key, value) :: answers
  | .invalidateMany keys => answers.filter fun e => e.1 ∉ keys
  | .clear => []

/-- How many answers the invalidations of a run drop. -/
def dropped : AnswerShard K V → List (Event K V) → Nat
  | _, [] => 0
  | g, e :: es =>
    dropped (g.step e) es + match e with
      | .invalidateMany keys => g.map.length - (g.invalidateMany keys).map.length
      | _ => 0

/-- What a shard holds after a run that inserted `answers` and dropped `n`. -/
structure Inv (room : Nat) (answers : List (K × V)) (n : Nat) (g : AnswerShard K V) : Prop where
  gen : g.gen < 2 ^ 64
  given : ∀ e ∈ g.map, e.2.gen ≤ g.gen ∧ (e.2.gen = g.gen → (e.1, e.2.value) ∈ answers)
  capacity : g.capacity = room
  fits : g.map.length ≤ room
  queue : g.order.length ≤ g.map.length + n

variable {g : AnswerShard K V} {answers : List (K × V)} {n room : Nat}

theorem invalidateMany_eq (g : AnswerShard K V) (keys : List K) :
    ∃ frozen, g.invalidateMany keys = { g with isFrozen := frozen, map := g.map.filter fun e =>
      e.1 ∉ keys } := by
  induction keys generalizing g with
  | nil => exact ⟨g.isFrozen, by simp [invalidateMany]⟩
  | cons key keys ih =>
    obtain ⟨frozen, h⟩ := ih (g.invalidate key)
    refine ⟨frozen, h.trans ?_⟩
    simp [invalidate, filter_filter, Bool.and_comm]

theorem Inv.insert (h : Inv room answers n g) (key : K) (value : V) :
    Inv room ((key, value) :: answers) n (g.insert key value) := by
  have hgiven : ∀ e ∈ g.map, e.2.gen ≤ g.gen ∧
    (e.2.gen = g.gen → (e.1, e.2.value) ∈ (key, value) :: answers) :=
    fun e he => (h.given e he).imp_right fun hold heq => mem_cons_of_mem _ (hold heq)
  rw [AnswerShard.insert]
  split
  · exact ⟨h.gen, hgiven, h.capacity, h.fits, h.queue⟩
  split
  · refine ⟨h.gen, forall_mem_map.mpr fun e he => ?_, h.capacity,
      by simpa using h.fits, by simpa using h.queue⟩
    split
    · next heq => exact ⟨.refl, fun _ => by simp [heq]⟩
    · exact hgiven e he
  split
  · exact ⟨h.gen, hgiven, h.capacity, h.fits, h.queue⟩
  · have hqueue := h.queue
    have hcapacity := h.capacity
    refine ⟨h.gen, forall_mem_cons.mpr ⟨⟨.refl, fun _ => mem_cons_self⟩, hgiven⟩, hcapacity, ?_, ?_⟩
    all_goals
      simp only [length_append, length_cons, length_nil]
      omega

omit [DecidableEq K] in
theorem Inv.clear (h : Inv room answers n g) : Inv room [] n g.clear := by
  have hgen := h.gen
  rw [AnswerShard.clear]
  split
  · exact ⟨(by decide : 1 < 2 ^ 64), by simp, h.capacity, by simp, by simp⟩
  · refine ⟨Nat.mod_lt _ (by decide), fun e he => ?_, h.capacity, h.fits, h.queue⟩
    have hle := (h.given e he).1
    simp only
    rw [Nat.mod_eq_of_lt (by omega)]
    exact ⟨by omega, by omega⟩

theorem Inv.invalidateMany (h : Inv room answers n g) (keys : List K) :
    Inv room (answers.filter fun e => e.1 ∉ keys)
    (n + (g.map.length - (g.invalidateMany keys).map.length))
      (g.invalidateMany keys) := by
  obtain ⟨frozen, heq⟩ := g.invalidateMany_eq keys
  have hqueue := h.queue
  rw [heq]
  refine ⟨h.gen, fun e he => ?_, h.capacity,
    Nat.le_trans (length_filter_le _ _) h.fits, by simp only; omega⟩
  obtain ⟨he, hkey⟩ := mem_filter.mp he
  exact (h.given e he).imp_right fun hold heq => mem_filter.mpr ⟨hold heq, hkey⟩

theorem Inv.run (h : Inv room answers n g) (es : List (Event K V)) :
    Inv room (es.foldl since answers) (n + dropped g es) (es.foldl step g) := by
  induction es generalizing g answers n with
  | nil => exact h
  | cons e es ih =>
    cases e with
    | insert key value => exact ih (h.insert key value)
    | clear => exact ih h.clear
    | invalidateMany keys =>
      have hrest := ih (h.invalidateMany keys)
      rw [Nat.add_right_comm, Nat.add_assoc] at hrest
      exact hrest

/-- New keys find room for as many as the map can take. -/
theorem get_inserted (kvs : List (K × V)) (g : AnswerShard K V) (hfrozen : g.isFrozen = false)
    (hroom : g.map.length + kvs.length ≤ g.capacity) (hdistinct : (kvs.map Prod.fst).Nodup)
    (hnew : ∀ e ∈ kvs, g.map.lookup e.1 = none) :
    (∀ e ∈ kvs, (kvs.foldl (fun g e => g.insert e.1 e.2) g).get e.1 = some e.2) ∧
      ∀ key ∉ kvs.map Prod.fst, (kvs.foldl (fun g e => g.insert e.1 e.2) g).get key = g.get key := by
  induction kvs generalizing g with
  | nil => exact ⟨by simp, fun _ _ => rfl⟩
  | cons e kvs ih =>
    rw [map_cons, nodup_cons] at hdistinct
    rw [length_cons] at hroom
    have hinsert : g.insert e.1 e.2 = { g with
        epoch := (g.epoch + 1) % 2 ^ 64
        order := g.order ++ [(e.1, g.epoch)]
        map := (e.1, ⟨g.gen, g.epoch, e.2⟩) :: g.map } := by
      rw [insert, if_neg (by simp [hfrozen]; omega), if_neg (by simp [hnew e mem_cons_self]),
        if_neg (by omega)]
    obtain ⟨hin, hout⟩ := ih (g.insert e.1 e.2) (by rw [hinsert]; exact hfrozen)
      (by rw [hinsert]; simp only [length_cons]; omega) hdistinct.2 fun e' he' => by
        have hne : (e'.1 == e.1) = false := beq_eq_false_iff_ne.mpr fun heq =>
          hdistinct.1 (heq ▸ mem_map_of_mem he')
        simp [hinsert, lookup_cons, hne, hnew e' (mem_cons_of_mem _ he')]
    refine ⟨forall_mem_cons.mpr ⟨(hout e.1 hdistinct.1).trans ?_, hin⟩, fun key hkey => ?_⟩
    · simp [hinsert, get]
      omega
    · rw [map_cons, mem_cons, not_or] at hkey
      rw [foldl_cons, hout key hkey.2, hinsert]
      simp [get, lookup_cons, beq_eq_false_iff_ne.mpr hkey.1]

theorem get_given (h : Inv room answers n g) {key : K} {value : V} (hget : g.get key = some value) :
    (key, value) ∈ answers := by
  rw [get] at hget
  split at hget
  · cases hget
  split at hget
  · next a hlookup =>
    split at hget
    · next hgen =>
      cases hget
      obtain ⟨pre, post, hmap, _⟩ := lookup_eq_some_iff.mp hlookup
      exact (h.given (key, a) (by simp [hmap])).2 hgen
    · cases hget
  · cases hget

/-- **Answers are never old.** The shard keeps to its capacity and its queue is longer by what was
dropped. After a clear there is room for new keys but for the answers that are still held. -/
theorem answers_since (capacity : Nat) (es : List (Event K V)) :
    let g := es.foldl step (new capacity)
    (∀ key value, g.get key = some value → (key, value) ∈ es.foldl since []) ∧
    g.capacity = (new capacity : AnswerShard K V).capacity ∧ g.map.length ≤ g.capacity ∧
    g.order.length ≤ g.map.length + dropped (new capacity) es ∧
    ∀ kvs : List (K × V), (kvs.map Prod.fst).Nodup → (∀ e ∈ kvs, g.clear.map.lookup e.1 = none) →
      g.clear.map.length + kvs.length ≤ g.capacity →
      ∀ e ∈ kvs, (kvs.foldl (fun g e => g.insert e.1 e.2) g.clear).get e.1 = some e.2 := by
  have hnew : Inv (new capacity : AnswerShard K V).capacity [] 0 (new capacity : AnswerShard K V) :=
    ⟨(by decide : 0 < 2 ^ 64), by simp [new], rfl, by simp [new], by simp [new]⟩
  have h := hnew.run es
  rw [Nat.zero_add] at h
  refine ⟨fun _ _ => get_given h, h.capacity, h.capacity ▸ h.fits, h.queue,
    fun kvs hdistinct hnone hroom => ?_⟩
  refine (get_inserted kvs _ ?_ (h.clear.capacity ▸ h.capacity ▸ hroom) hdistinct hnone).1
  rw [clear]
  split <;> rfl

/-- **The queue has no bound**: a key that is invalidated and comes back is queued each time. And an
answer from before a clear takes the room of a new key. -/
theorem order_unbounded : (∀ n, ∃ es : List (Event Nat Unit), (es.foldl step (new 1)).order.length = n) ∧
    ([.insert 1 (), .clear, .insert 2 ()].foldl step (new 1 : AnswerShard Nat Unit)).get 2 = none := by
  have hrounds (n : Nat) : ∃ (es : List (Event Nat Unit)) (order : List (Nat × Nat)) (epoch : Nat),
      order.length = n ∧ es.foldl step (new 1) = ⟨[], order, 1, 0, epoch, false⟩ := by
    induction n with
    | zero => exact ⟨[], [], 0, rfl, rfl⟩
    | succ n ih =>
      obtain ⟨es, order, epoch, hlength, hrun⟩ := ih
      refine ⟨es ++ [.insert 1 (), .invalidateMany [1]], order ++ [(1, epoch)],
        (epoch + 1) % 2 ^ 64, by simp [hlength], ?_⟩
      rw [foldl_append, hrun]
      rfl
  refine ⟨fun n => ?_, rfl⟩
  obtain ⟨es, order, epoch, hlength, hrun⟩ := hrounds n
  exact ⟨es, by rw [hrun, hlength]⟩

end AnswerShard
end PedraDb.Cache
