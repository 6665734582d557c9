import PedraDb.Layers.Read

/-! Operations as a store keeps them.

A write takes the next sequence and is kept with its value in the stored form: inline and
escaped where that is needed, or as a pointer the value log gave out. So the operations of a
store are numbered (`Numbered`): each has its own sequence, below the next one. -/
namespace PedraDb.Layers

section
variable (readPtr : Value → Option Value)

/-- What a put stores: an inline value in its stored form, or a pointer the value log gave out. -/
def storedForm (value : Value) : Option Value → Option Value
  | none => some (escapeInlineValue value)
  | some ptr => if isVlogPtr ptr && readPtr ptr == some value then some ptr else none

/-- The operation as it is stored. An inverted range takes a sequence and is not stored. -/
def storedOps (seq : Nat) (ptr : Option Value) : BatchOp → Option (List WriteOp)
  | .put key value => (storedForm readPtr value ptr).map fun v => [.put seq key v]
  | .delete key => some [.delete seq key]
  | .deleteRange start stop => some (if stop ≤ start then [] else [.deleteRange seq start stop])

end

/-- The stored form is the user's form. -/
def plain (bytes : Value) : Bool := escapeInlineValue bytes == bytes

theorem plain_resolves {bytes : Value} (h : plain bytes = true) (readPtr : Value → Option Value) :
    resolveStoredValue readPtr bytes = some bytes := by
  have heq : escapeInlineValue bytes = bytes := by simpa [plain] using h
  simpa [heq] using resolveStoredValue_escape readPtr bytes

/-- The operations have sequences of their own, above zero and below the next one. -/
structure Numbered (next : Nat) (ops : List WriteOp) : Prop where
  first : 0 < next
  pos : ∀ op ∈ ops, 0 < op.sequence
  below : ∀ op ∈ ops, op.sequence < next
  formed : ∀ op ∈ ops, Formed op
  distinct : Distinct ops

theorem Numbered.nil : Numbered 1 [] := ⟨by decide, by simp, by simp, by simp, by simp [Distinct]⟩

section
variable {readPtr : Value → Option Value} {seq : Nat} {ptr : Option Value} {op : BatchOp}
    {ops : List WriteOp}

theorem storedForm_resolves {value stored : Value} (h : storedForm readPtr value ptr = some stored) :
    resolveStoredValue readPtr stored = some value := by
  cases ptr with
  | none =>
    obtain rfl := Option.some.inj h
    exact resolveStoredValue_escape readPtr value
  | some p =>
    simp only [storedForm] at h
    split at h
    swap
    · cases h
    rename_i hptr
    obtain rfl := Option.some.inj h
    simp only [Bool.and_eq_true, beq_iff_eq] at hptr
    -- a pointer does not begin with the marker
    have hhead : p.head? ≠ some inlineEscape := by
      intro hhead
      cases p with
      | nil => cases hhead
      | cons b rest =>
        obtain rfl : b = inlineEscape := by simpa using hhead
        simp [isVlogPtr, vlogValuePrefix, vlogBlobPrefix, inlineEscape] at hptr
    simp [resolveStoredValue, hhead, hptr.1, hptr.2]

theorem storedOps_spec (h : storedOps readPtr seq ptr op = some ops) :
    ∀ w ∈ ops, w.sequence = seq ∧ (0 < seq → Formed w) ∧
      (w.kind = .value → (resolveStoredValue readPtr w.value).isSome = true) := by
  intro w hw
  cases op with
  | put key value =>
    obtain ⟨v, hv, rfl⟩ := Option.map_eq_some_iff.mp h
    obtain rfl : w = _ := by simpa using hw
    exact ⟨rfl, (fun _ hkind => by cases hkind), fun _ => by simp [WriteOp.put, storedForm_resolves hv]⟩
  | delete key =>
    cases h
    obtain rfl : w = _ := by simpa using hw
    exact ⟨rfl, (fun _ hkind => by cases hkind), fun hkind => by cases hkind⟩
  | deleteRange start stop =>
    cases h
    split at hw
    · cases hw
    · rename_i hlt
      obtain rfl : w = _ := by simpa using hw
      exact ⟨rfl, fun hpos _ => ⟨List.not_le.mp hlt, hpos⟩, fun hkind => by cases hkind⟩

theorem storedOps_one (h : storedOps readPtr seq ptr op = some ops) : ∀ v ∈ ops, ∀ w ∈ ops, v = w := by
  have hlen : ops.length ≤ 1 := by
    cases op with
    | put key value =>
      obtain ⟨v, -, rfl⟩ := Option.map_eq_some_iff.mp h
      simp
    | delete key =>
      cases h
      simp
    | deleteRange start stop =>
      cases h
      split <;> simp
  match ops, hlen with
  | [], _ => simp
  | [a], _ => simp

theorem Numbered.write {old : List WriteOp} (h : Numbered seq old)
    (hops : storedOps readPtr seq ptr op = some ops) :
    Numbered (seq + 1) (old ++ ops) := by
  have hspec := storedOps_spec hops
  have hnew : ∀ {P : WriteOp → Prop}, (∀ w ∈ old, P w) → (∀ w ∈ ops, P w) → ∀ w ∈ old ++ ops, P w := by
    intro P hold hadd w hw
    rcases List.mem_append.mp hw with hw | hw
    · exact hold w hw
    · exact hadd w hw
  refine ⟨Nat.succ_pos _, ?_, ?_, ?_, ?_⟩
  · exact hnew h.pos fun w hw => (hspec w hw).1 ▸ h.first
  · refine hnew (fun w hw => Nat.lt_succ_of_lt (h.below w hw)) (fun w hw => ?_)
    rw [(hspec w hw).1]
    exact Nat.lt_succ_self _
  · exact hnew h.formed fun w hw => (hspec w hw).2.1 h.first
  · refine hnew (fun v hv => hnew (h.distinct v hv) fun w hw heq => ?_) fun v hv =>
      hnew (fun w hw heq => ?_) fun w hw _ => ?_
    · exact absurd (h.below v hv) (by rw [heq, (hspec w hw).1]; exact Nat.lt_irrefl _)
    · exact absurd (h.below w hw) (by rw [← heq, (hspec v hv).1]; exact Nat.lt_irrefl _)
    · exact storedOps_one hops v hv w hw

end
end PedraDb.Layers
