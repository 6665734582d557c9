import PedraDb.Library.Bytes
import PedraDb.Lookup

/-! The keyspace of the column families.

All families share the engine's keys: a key of a family is stored behind the family's name
and a NUL. Only where `default` is the sole family its keys are stored as they are. A name
holds no NUL, so the name of a stored key is what stands before its first one, and the keys
of a family are the interval that starts with its prefix (`mem_cfBounds`). An empty name has
no prefix. -/
namespace PedraDb.Families
variable {key key' : Key}

open Bytes (Bound)

/-- The prefix of a family; none where `default` is stored raw. -/
def cfEncodeEffective (cf : Key) (defaultRaw : Bool) : Key :=
  if cf == defaultFamily && defaultRaw then [] else cf

def encodeCfKey (cf key : Key) (defaultRaw : Bool) : Key :=
  let effective := cfEncodeEffective cf defaultRaw
  if effective.isEmpty then key else effective ++ 0 :: key

def decodeCfKey (cf encoded : Key) (defaultRaw : Bool) : Key :=
  let effective := cfEncodeEffective cf defaultRaw
  if effective.isEmpty then encoded else encoded.drop (effective.length + 1)

/-- The next key after all that start with a prefix. -/
def prefixExclusiveEnd : Key → Option Key := Bytes.prefixEnd

/-- The keys of a family: from its prefix to the next key that does not start with it. -/
def cfBounds (cf : Key) (defaultRaw : Bool) : Bound × Bound :=
  if defaultRaw && cf == defaultFamily then (.unbounded, .unbounded)
  else
    let start := encodeCfKey cf [] defaultRaw
    match prefixExclusiveEnd start with
    | some stop => (.included start, .excluded stop)
    | none => (.included start, .unbounded)

/-! ### Encoding -/

section Encoding
variable (cf : Key) (defaultRaw : Bool)

/-- What stands in front of a family's keys. -/
def cfLead : Key := if (cfEncodeEffective cf defaultRaw).isEmpty then []
    else cfEncodeEffective cf defaultRaw ++ [0]

theorem encodeCfKey_eq (key : Key) : encodeCfKey cf key defaultRaw = cfLead cf defaultRaw ++ key := by
  rw [encodeCfKey, cfLead]
  split <;> simp

theorem decode_encodeCfKey (key : Key) :
    decodeCfKey cf (encodeCfKey cf key defaultRaw) defaultRaw = key := by
  rw [decodeCfKey, encodeCfKey]
  split <;> simp

theorem encodeCfKey_lt : encodeCfKey cf key defaultRaw < encodeCfKey cf key' defaultRaw ↔ key < key' := by
  rw [encodeCfKey_eq, encodeCfKey_eq, Bytes.append_lt_append]

theorem encodeCfKey_le : encodeCfKey cf key defaultRaw ≤ encodeCfKey cf key' defaultRaw ↔ key ≤ key' := by
  rw [encodeCfKey_eq, encodeCfKey_eq, Bytes.append_le_append]

/-- **The bounds of a family hold what starts with its prefix.** -/
theorem mem_cfBounds (key : Key) :
    Bytes.inBounds (cfBounds cf defaultRaw).1 (cfBounds cf defaultRaw).2 key = true ↔
    ∃ user, key = encodeCfKey cf user defaultRaw := by
  have hlead : (∃ user, key = encodeCfKey cf user defaultRaw) ↔ cfLead cf defaultRaw <+: key := by
    simp only [encodeCfKey_eq]
    exact ⟨fun ⟨user, h⟩ => ⟨user, h.symm⟩, fun ⟨user, h⟩ => ⟨user, h.symm⟩⟩
  have hstart : encodeCfKey cf [] defaultRaw = cfLead cf defaultRaw := by
    rw [encodeCfKey_eq, List.append_nil]
  rw [hlead, cfBounds]
  split
  · rename_i hraw
    have : cfLead cf defaultRaw = [] := by
      rw [Bool.and_eq_true] at hraw
      simp [cfLead, cfEncodeEffective, hraw.1, hraw.2]
    simp [this, Bytes.inBounds, Bound.above, Bound.below]
  · have hstop : (match prefixExclusiveEnd (cfLead cf defaultRaw) with
        | some stop => ((.included (cfLead cf defaultRaw), .excluded stop) : Bound × Bound)
        | none => (.included (cfLead cf defaultRaw), .unbounded)) =
        (.included (cfLead cf defaultRaw), Bytes.prefixStop (cfLead cf defaultRaw)) := by
      rw [Bytes.prefixStop, prefixExclusiveEnd]
      split <;> simp_all
    simp only [hstart, hstop]
    rw [Bytes.isPrefix_iff, Bytes.inBounds, Bool.and_eq_true, Bound.above, decide_eq_true_eq]

end Encoding

end PedraDb.Families
