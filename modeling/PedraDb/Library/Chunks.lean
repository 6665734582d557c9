import Mathlib.Data.List.Basic

/-! Lists cut into chunks, each known by a key of its first member.

A pass over a list that keeps the last `n` members and marks every `n`-th leaves, of what
stands before those members, the marks of chunks of at most `n` (`Pass.chunks`): going back
over the list one chunk at a time needs no more than the marks.

A list may also be cut where the key changes: sorted, its chunks are apart (`Cut.apart`). -/
namespace PedraDb.Chunks
open List

section
variable {α κ : Type}

/-- `l` is made of chunks of at most `n`, and `marks` are the keys of their first members. -/
inductive Chunked (n : Nat) (key : α → κ) : List α → List κ → Prop where
  | nil : Chunked n key [] []
  | snoc {l : List α} {marks : List κ} (first : α) (rest : List α) (h : Chunked n key l marks)
    (hlen : rest.length < n) :
    Chunked n key (l ++ first :: rest) (marks ++ [key first])

variable {n : Nat} {key : α → κ}
variable {l : List α}

theorem Chunked.marks_nil (h : Chunked n key l []) : l = [] := by
  generalize hm : ([] : List κ) = marks at h
  cases h with
  | nil => rfl
  | snoc first rest h hlen => simp at hm

variable {marks : List κ}

theorem Chunked.last {m : κ} (h : Chunked n key l (marks ++ [m])) :
    ∃ l' first rest, l = l' ++ first :: rest ∧ m = key first ∧ rest.length < n ∧
    Chunked n key l' marks := by
  generalize hm : marks ++ [m] = marks' at h
  cases h with
  | nil => simp at hm
  | snoc first rest h hlen =>
    obtain ⟨rfl, hm⟩ := append_inj' hm rfl
    exact ⟨_, first, rest, rfl, by simpa using hm, hlen, h⟩

theorem Chunked.map {γ : Type} {key' : γ → κ} {f : α → γ} (h : Chunked n key l marks)
    (hf : ∀ a ∈ l, key' (f a) = key a) : Chunked n key' (l.map f) marks := by
  induction h with
  | nil => exact .nil
  | snoc first rest h hlen ih =>
    rw [map_append, map_cons, ← hf first (by simp)]
    exact .snoc (f first) (rest.map f) (ih fun a ha => hf a (mem_append_left _ ha)) (by simpa using hlen)

/-! ### A pass over a list -/

variable {β : Type}

/-- What a pass has kept: items of the last members, the marks, and how many it has seen. -/
structure Kept (β κ : Type) where
  marks : List κ
  ring : List β
  count : Nat

def Kept.push (n : Nat) (key : α → κ) (item : α → β) (p : Kept β κ) (a : α) : Kept β κ where
  marks := if p.count % n = 0 then p.marks ++ [key a] else p.marks
  ring := (if p.ring.length = n then p.ring.tail else p.ring) ++ [item a]
  count := p.count + 1

/-- After `l`: the last chunk is open, those before it are full. -/
structure Pass (n : Nat) (key : α → κ) (item : α → β) (l : List α) (p : Kept β κ) : Prop where
  count : p.count = l.length
  ring : p.ring = (l.map item).drop (l.length - n)
  marks : l = [] ∧ p.marks = [] ∨
    ∃ full marks first rest, l = full ++ first :: rest ∧ p.marks = marks ++ [key first] ∧
    rest.length < n ∧
      Chunked n key full marks ∧ full.length % n = 0 ∧
      (full = [] ∨ ∃ full' marks' first' rest', full = full' ++ first' :: rest' ∧
        marks = marks' ++ [key first'] ∧
        rest'.length + 1 = n ∧ Chunked n key full' marks')

variable {item : α → β}

theorem Pass.nil : Pass n key item [] ⟨[], [], 0⟩ := ⟨rfl, by simp, .inl ⟨rfl, rfl⟩⟩

theorem Pass.push {p : Kept β κ} (hn : 0 < n) (h : Pass n key item l p) (a : α) :
    Pass n key item (l ++ [a]) (p.push n key item a) := by
  refine ⟨by simp [Kept.push, h.count], ?_, .inr ?_⟩
  · simp only [Kept.push, h.ring, length_drop, length_append, length_singleton, length_map,
      map_append, map_cons, map_nil]
    by_cases hlen : n ≤ l.length
    · rw [if_pos (by omega), tail_drop, drop_append_of_le_length (by rw [length_map]; omega)]
      congr 2
      omega
    · rw [if_neg (by omega), Nat.sub_eq_zero_of_le (by omega), Nat.sub_eq_zero_of_le (by omega)]
      simp
  · rcases h.marks with ⟨rfl, hmarks⟩ | ⟨full, marks, first, rest, rfl, hmarks, hrest, hfull, hmod, hlast⟩
    · refine ⟨[], [], a, [], rfl, ?_, hn, .nil, Nat.zero_mod n, .inl rfl⟩
      simp [Kept.push, h.count, hmarks]
    have hcount : p.count % n = (rest.length + 1) % n := by
      rw [h.count, length_append, length_cons, Nat.add_mod, hmod, Nat.zero_add, Nat.mod_mod]
    by_cases hopen : rest.length + 1 = n
    · -- the open chunk is full: a new one starts
      refine ⟨full ++ first :: rest, marks ++ [key first], a, [], rfl, ?_, hn,
        .snoc first rest hfull hrest, ?_,
        .inr ⟨full, marks, first, rest, rfl, rfl, hopen, hfull⟩⟩
      · rw [Kept.push, hcount, hopen, Nat.mod_self]
        simp [hmarks]
      · rw [length_append, length_cons, Nat.add_mod, hmod, hopen, Nat.mod_self, Nat.zero_mod]
    · refine ⟨full, marks, first, rest ++ [a], by simp, ?_, by simp; omega, hfull, hmod, hlast⟩
      rw [Kept.push, hcount, Nat.mod_eq_of_lt (by omega)]
      simp [hmarks]

theorem pass_foldl (key : α → κ) (item : α → β) (hn : 0 < n) (l : List α) :
    Pass n key item l (l.foldl (Kept.push n key item) ⟨[], [], 0⟩) := by
  have h : ∀ l' l p, Pass n key item l p →
      Pass n key item (l ++ l') (l'.foldl (Kept.push n key item) p) := by
    intro l'
    induction l' with
    | nil =>
      intro l p h
      simpa using h
    | cons a l' ih =>
      intro l p h
      have := ih (l ++ [a]) _ (h.push hn a)
      simpa using this
  exact h l [] _ .nil

/-- **Before the last members are chunks**, and the marks but for the last are theirs. -/
theorem Pass.chunks {p : Kept β κ} (h : Pass n key item l p) :
    Chunked n key (l.take (l.length - n)) p.marks.dropLast := by
  rcases h.marks with ⟨rfl, hmarks⟩ | ⟨full, marks, first, rest, rfl, hmarks, hrest, hfull, -, hlast⟩
  · simpa [hmarks] using Chunked.nil
  rw [hmarks, dropLast_concat]
  rcases hlast with rfl | ⟨full', marks', first', rest', rfl, rfl, hlen, hfull'⟩
  · have : rest.length + 1 - n = 0 := by omega
    have hmarks' : marks = [] := by
      generalize hnil : ([] : List α) = l at hfull
      cases hfull with
      | nil => rfl
      | snoc _ _ _ _ => simp at hnil
    rw [hmarks', nil_append, length_cons, this]
    exact .nil
  · -- the last full chunk is cut to the length of the open one
    have htake : (full' ++ first' :: rest' ++ first :: rest).take
      ((full' ++ first' :: rest' ++ first :: rest).length - n) =
        full' ++ first' :: rest'.take rest.length := by
      have hlen' : (full' ++ first' :: rest' ++ first :: rest).length - n =
          full'.length + (rest.length + 1) := by
        simp only [length_append, length_cons]
        omega
      rw [hlen', append_assoc, take_length_add_append, cons_append, take_succ_cons,
        take_append_of_le_length (by omega)]
    rw [htake]
    exact .snoc first' _ hfull' (by rw [length_take]; omega)

end

section Cuts
variable {α κ : Type} {key : α → κ} {last : Option κ} {l : List α} {chunks : List (List α)}

/-- A list in chunks that are cut between keys only; `last` is the key before it. A chunk may
be empty. -/
inductive Cut (key : α → κ) : Option κ → List α → List (List α) → Prop where
  | nil {last : Option κ} : Cut key last [] [[]]
  | next {last : Option κ} {a : α} {l : List α} {chunks : List (List α)}
    (h : Cut key (some (key a)) l chunks) :
    Cut key last (a :: l) ((a :: chunks.headD []) :: chunks.tail)
  | new {k : κ} {a : α} {l : List α} {chunks : List (List α)} (hne : k ≠ key a)
    (h : Cut key (some k) (a :: l) chunks) :
    Cut key (some k) (a :: l) ([] :: chunks)

theorem Cut.flatten (h : Cut key last l chunks) : chunks.flatten = l := by
  induction h with
  | nil => rfl
  | @next last a l chunks h ih => cases chunks <;> simp [← ih]
  | new hne h ih => simpa using ih

theorem Cut.replicate (n : Nat) {k : κ} {a : α} (hne : k ≠ key a) (h : Cut key (some k) (a :: l) chunks) :
    Cut key (some k) (a :: l) (replicate n [] ++ chunks) := by
  induction n with
  | zero => exact h
  | succ n ih => exact .new hne ih

variable [LT κ] [LE κ] [Std.IsLinearOrder κ] [Std.LawfulOrderLT κ]

/-- In a sorted list the keys of a chunk are below those of the later ones, and the key before
the list is below those of all but the first. -/
theorem Cut.apart (h : Cut key last l chunks) (hl : l.Pairwise fun a b => key a ≤ key b)
    (hlast : ∀ k ∈ last, ∀ a ∈ l, k ≤ key a) :
    chunks.Pairwise (fun c d => ∀ a ∈ c, ∀ b ∈ d, key a < key b) ∧
    ∀ k ∈ last, ∀ c ∈ chunks.tail, ∀ a ∈ c, k < key a := by
  induction h with
  | nil => simp
  | @next last v l chunks h ih =>
    obtain ⟨hv, hl⟩ := pairwise_cons.mp hl
    obtain ⟨hpair, htail⟩ := ih hl fun k hk a ha => Option.some.inj hk ▸ hv a ha
    refine ⟨pairwise_cons.mpr ⟨fun d hd a ha b hb => ?_, hpair.tail⟩, fun k hk d hd b hb => ?_⟩
    · rcases mem_cons.mp ha with rfl | ha
      · exact htail _ rfl d hd b hb
      · cases chunks with
        | nil => cases ha
        | cons c chunks => exact (pairwise_cons.mp hpair).1 d hd a ha b hb
    · exact Std.lt_of_le_of_lt (hlast k hk v mem_cons_self) (htail _ rfl d hd b hb)
  | @new k v l chunks hne h ih =>
    refine ⟨pairwise_cons.mpr ⟨fun d _ a ha => absurd ha not_mem_nil, (ih hl hlast).1⟩,
      fun k' hk d hd a ha => ?_⟩
    -- the key changed, and keys only go up
    obtain rfl := Option.some.inj hk
    have hlt : k < key v := Std.lt_of_le_of_ne (hlast k rfl v mem_cons_self) hne
    rcases mem_cons.mp (h.flatten ▸ mem_flatten.mpr ⟨d, hd, ha⟩ : a ∈ v :: l) with rfl | ha
    · exact hlt
    · exact Std.lt_of_lt_of_le hlt ((pairwise_cons.mp hl).1 a ha)

end Cuts

end PedraDb.Chunks
