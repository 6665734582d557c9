import Mathlib.Data.List.Basic

/-! Reading bytes from the front.

A reader takes bytes off the front of its input or fails. `Reads p bytes value` says that
`p` reads exactly these bytes, whatever comes after them; it goes through a sequence of
readers piece by piece (`Reads.bind`), so a format is read back by following how it was
put together. A reader that looks at nothing behind what it reads (`Local`) reads nothing
else from the front of such bytes (`Reads.of_front`). -/
namespace PedraDb.Reading

/-- A reader with errors in `ε`. -/
abbrev Reader (ε α : Type) := StateT (List UInt8) (Except ε) α

section
variable {ε α β : Type}

def slice (e : ε) (n : Nat) : Reader ε (List UInt8) := fun rest =>
  if rest.length < n then .error e else .ok (rest.take n, rest.drop n)

/-- `p` reads `bytes` as `value`. -/
def Reads (p : Reader ε α) (bytes : List UInt8) (value : α) : Prop :=
  ∀ rest, p (bytes ++ rest) = .ok (value, rest)

theorem Reads.pure (value : α) : Reads (Pure.pure value : Reader ε α) [] value := fun _ => rfl

variable {p : Reader ε α} {f : α → Reader ε β} {a : α} {x : List UInt8}

theorem Reads.bind {y : List UInt8} {b : β} (hp : Reads p x a)
    (hf : Reads (f a) y b) : Reads (p >>= f) (x ++ y) b := fun rest => by
  show Except.bind (p (x ++ y ++ rest)) (fun r => f r.1 r.2) = _
  rw [List.append_assoc, hp (y ++ rest)]
  exact hf rest

theorem Reads.then {y : List UInt8} {b : β} (hp : Reads p [] a) (hf : Reads (f a) y b) :
    Reads (p >>= f) y b := hp.bind hf

theorem Reads.map (hp : Reads p x a) (f : α → β) : Reads (do return f (← p)) x (f a) := by
  have h := Reads.bind (f := fun a => Pure.pure (f a)) hp (Reads.pure (f a))
  rwa [List.append_nil] at h

theorem reads_slice {e : ε} {n : Nat} (hn : n = x.length) : Reads (slice e n) x x := fun rest => by
  subst hn
  simp [slice]

/-- More bytes behind what was read do not change it. -/
def Local (p : Reader ε α) : Prop :=
  ∀ bytes value rest more, p bytes = .ok (value, rest) →
    p (bytes ++ more) = .ok (value, rest ++ more)

theorem Local.lift (x : Except ε α) : Local (monadLift x : Reader ε α) := by
  intro bytes value rest more h
  cases x with
  | error e => cases h
  | ok a =>
    cases h
    rfl

theorem Local.pure (value : α) : Local (Pure.pure value : Reader ε α) := Local.lift (.ok value)

theorem Local.throw (e : ε) : Local (throw e : Reader ε α) := Local.lift (.error e)

theorem Local.bind (hp : Local p) (hf : ∀ a, Local (f a)) : Local (p >>= f) := by
  intro bytes value rest more h
  change Except.bind (p bytes) (fun r => f r.1 r.2) = _ at h
  show Except.bind (p (bytes ++ more)) (fun r => f r.1 r.2) = _
  cases hread : p bytes with
  | error e =>
    rw [hread] at h
    cases h
  | ok r =>
    rw [hread] at h
    rw [hp bytes r.1 r.2 more hread]
    exact hf r.1 r.2 value rest more h

theorem local_slice (e : ε) (n : Nat) : Local (slice e n) := by
  intro bytes value rest more h
  unfold slice at h
  split at h
  · cases h
  · rename_i hlen
    cases h
    have hle : n ≤ bytes.length := Nat.le_of_not_lt hlen
    have hlonger : ¬ (bytes ++ more).length < n := by
      rw [List.length_append]
      omega
    rw [slice, if_neg hlonger, List.take_append_of_le_length hle, List.drop_append_of_le_length hle]

/-- From the front of a text whose first piece the reader knows, it reads that piece or fails. -/
theorem Reads.of_front (hp : Reads p x a) (hlocal : Local p) {bytes more y rest : List UInt8}
    {value : α} (hsplit : bytes ++ more = x ++ y) (h : p bytes = .ok (value, rest)) :
    value = a ∧ rest ++ more = y := by
  have hwhole := hlocal bytes value rest more h
  rw [hsplit, hp y] at hwhole
  obtain ⟨hvalue, hrest⟩ := Prod.mk.inj (Except.ok.inj hwhole)
  exact ⟨hvalue.symm, hrest.symm⟩

end

end PedraDb.Reading
