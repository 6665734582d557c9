import PedraDb.Batch
import PedraDb.Wal.Format

/-! The record a batch becomes in the log.

A record lists its operations with their lengths. In its second version an operation whose
value lies in the same bytes as the value before it does not repeat them; which values
share their bytes is the allocator's to say, so an operation here has the place of its
value with it (`SharedOp.ptr`). Values that share a place and a length are equal
(`Coherent`).

Decoding reads the operations back (`decode_encodeOps`). It reads from the front and wants
nothing left, so what it accepts has no proper part at its front that it accepts
(`decode_front`): a torn record is never taken for a shorter one. -/
namespace PedraDb.Wal
open List
variable {n : Nat} {ops : List SharedOp} {v2 : Bool} {prev : Option WriteOp}

def ValueType.asU8 : ValueType → UInt8
  | .deletion => 0
  | .value => 1
  | .rangeDeletion => 2

def ValueType.fromU8 (byte : UInt8) : Option ValueType :=
  if byte = 0 then some .deletion
  else if byte = 1 then some .value
  else if byte = 2 then some .rangeDeletion
  else none

def writeRecordVersion : UInt8 := 1
def writeRecordVersionV2 : UInt8 := 2
def kindReusePrev : UInt8 := 0x80

/-! ### Values that share their bytes -/

/-- An operation with the place of its value in memory. -/
structure SharedOp where
  op : WriteOp
  ptr : Nat
  deriving DecidableEq

open SharedOp

def valuePtrEq (a b : SharedOp) : Bool :=
  !a.op.value.isEmpty && a.op.value.length == b.op.value.length && a.ptr == b.ptr

/-- The same place and length are the same bytes. -/
def Coherent (ops : List SharedOp) : Prop :=
  ∀ a ∈ ops, ∀ b ∈ ops, a.ptr = b.ptr → a.op.value.length = b.op.value.length → a.op.value = b.op.value

/-- Let a put take the bytes of the put before it if they are the same. -/
def shareWith (prev cur : SharedOp) : SharedOp :=
  if cur.op.kind ≠ .value ∨ prev.op.kind ≠ .value ∨ cur.op.value = [] ∨ prev.ptr = cur.ptr ∨
    prev.op.value ≠ cur.op.value then cur
  else ⟨{ cur.op with value := prev.op.value }, prev.ptr⟩

def shareLoop : SharedOp → List SharedOp → List SharedOp
  | _, [] => []
  | prev, cur :: rest => shareWith prev cur :: shareLoop (shareWith prev cur) rest

def shareConsecutiveEqualValues : List SharedOp → List SharedOp
  | [] => []
  | op :: rest => op :: shareLoop op rest

/-- One operation at least can leave its value out. -/
def recordUsesV2 (ops : List SharedOp) : Bool := (ops.zip ops.tail).any fun w => valuePtrEq w.1 w.2

/-! ### Encoding -/

/-- A length that does not fit is cut to the largest that does. -/
def u32Of (n : Nat) : Nat := if n < 2 ^ 32 then n else 2 ^ 32 - 1

def encodeOp (reuse : Bool) (op : WriteOp) : Bytes :=
  [ValueType.asU8 op.kind ||| if reuse then kindReusePrev else 0] ++ leBytes 8 op.sequence ++
    leBytes 4 (u32Of op.key.length) ++
    op.key ++ if reuse then [] else leBytes 4 (u32Of op.value.length) ++ op.value

/-- Whether an operation leaves its value out, given the one before it. -/
def reuses (v2 : Bool) (prev : Option SharedOp) (op : SharedOp) : Bool :=
  v2 && match prev with
    | none => false
    | some prev => valuePtrEq prev op

def encodeLoop (v2 : Bool) : Option SharedOp → List SharedOp → Bytes
  | _, [] => []
  | prev, op :: rest => encodeOp (reuses v2 prev op) op.op ++ encodeLoop v2 (some op) rest

/-- The record: version, count, operations. -/
def encodeOps (ops : List SharedOp) : Bytes :=
  [if recordUsesV2 ops then writeRecordVersionV2 else writeRecordVersion] ++
    leBytes 4 (u32Of ops.length) ++
    encodeLoop (recordUsesV2 ops) none ops

def opEncodedLen (op : WriteOp) : Nat := 1 + 8 + 4 + op.key.length + 4 + op.value.length

def encodedLenLoop (v2 : Bool) : Option SharedOp → List SharedOp → Nat
  | _, [] => 0
  | prev, op :: rest =>
    (if reuses v2 prev op then 1 + 8 + 4 + op.op.key.length
      else opEncodedLen op.op) + encodedLenLoop v2 (some op) rest

def encodedLen (ops : List SharedOp) : Nat := 1 + 4 + encodedLenLoop (recordUsesV2 ops) none ops

/-! ### Decoding -/

inductive DecodeError where
  | unsupportedVersion (version : UInt8)
  | countExceeds (count remaining : Nat)
  | unknownKind (byte : UInt8)
  | reuseWithoutPrevious
  | trailingBytes
  | countMismatch (decoded count : Nat)
  | truncated (need pos : Nat)
  deriving DecidableEq

structure Cursor where
  data : Bytes
  pos : Nat
  deriving DecidableEq

namespace Cursor

def readSlice (c : Cursor) (len : Nat) : Except DecodeError (Bytes × Cursor) :=
  if c.data.length < c.pos + len then .error (.truncated len c.pos)
  else .ok ((c.data.drop c.pos).take len, { c with pos := c.pos + len })

def readU8 (c : Cursor) : Except DecodeError (UInt8 × Cursor) := do
  let (s, c) ← c.readSlice 1
  return (s.getD 0 0, c)

def readU32 (c : Cursor) : Except DecodeError (Nat × Cursor) := do
  let (s, c) ← c.readSlice 4
  return (ofLe s, c)

def readU64 (c : Cursor) : Except DecodeError (Nat × Cursor) := do
  let (s, c) ← c.readSlice 8
  return (ofLe s, c)

end Cursor

def decodeOp (v2 : Bool) (prev : Option WriteOp) (c : Cursor) :
    Except DecodeError (WriteOp × Cursor) := do
  let (kindByte, c) ← c.readU8
  let reuse := v2 && kindByte &&& kindReusePrev != 0
  match ValueType.fromU8 (kindByte &&& 0x7f) with
  | none => .error (.unknownKind kindByte)
  | some kind =>
    let (sequence, c) ← c.readU64
    let (keyLen, c) ← c.readU32
    let (key, c) ← c.readSlice keyLen
    if reuse then
      match prev with
      | none => .error .reuseWithoutPrevious
      | some prev => return (⟨kind, sequence, key, prev.value⟩, c)
    else
      let (valLen, c) ← c.readU32
      let (value, c) ← c.readSlice valLen
      return (⟨kind, sequence, key, value⟩, c)

def decodeLoop (v2 : Bool) : Nat → Cursor → List WriteOp → Except DecodeError (List WriteOp × Cursor)
  | 0, c, ops => .ok (ops, c)
  | n + 1, c, ops => do
    let (op, c) ← decodeOp v2 ops.getLast? c
    decodeLoop v2 n c (ops ++ [op])

def writeRecordCountOk (count decodedLen : Nat) : Bool := decodedLen == count

/-- The smallest operation there can be. -/
def minOp (v2 : Bool) : Nat := if v2 then 1 + 8 + 4 else 1 + 8 + 4 + 4

def decode (bytes : Bytes) : Except DecodeError (List WriteOp) := do
  let (version, c) ← Cursor.readU8 ⟨bytes, 0⟩
  if version ≠ writeRecordVersion ∧ version ≠ writeRecordVersionV2
    then .error (.unsupportedVersion version)
  else
    let v2 := version == writeRecordVersionV2
    let (count, c) ← c.readU32
    let rem := bytes.length - c.pos
    if rem / minOp v2 < count then .error (.countExceeds count rem)
    else
      let (ops, c) ← decodeLoop v2 count c []
      if c.pos < c.data.length then .error .trailingBytes
      else if writeRecordCountOk count ops.length then .ok ops
      else .error (.countMismatch ops.length count)

/-! ### Reading back -/

/-- The cursor stands before these bytes. -/
structure Cursor.Before (c : Cursor) (rest : Bytes) : Prop where
  le : c.pos ≤ c.data.length
  rest : c.data.drop c.pos = rest

section
variable {c : Cursor} {x y : Bytes}

theorem readSlice_before (h : c.Before (x ++ y)) (hn : n = x.length) :
    ∃ c', c.readSlice n = .ok (x, c') ∧ c'.Before y ∧ c'.data = c.data := by
  subst hn
  have hlen := congrArg List.length h.rest
  rw [length_drop, length_append] at hlen
  have hle := h.le
  refine ⟨{ c with pos := c.pos + x.length }, ?_, ⟨by simp only; omega, ?_⟩, rfl⟩
  · rw [Cursor.readSlice, if_neg (by omega), h.rest, take_left]
  · rw [← drop_drop, h.rest, drop_left]

theorem readU8_before {byte : UInt8} (h : c.Before (byte :: y)) :
    ∃ c', c.readU8 = .ok (byte, c') ∧ c'.Before y ∧ c'.data = c.data := by
  obtain ⟨c', hread, hc'⟩ := readSlice_before (show c.Before ([byte] ++ y) from h) rfl
  exact ⟨c', by rw [Cursor.readU8, show c.readSlice 1 = _ from hread]; rfl, hc'⟩

theorem readU32_before (hn : n < 2 ^ 32) (h : c.Before (leBytes 4 n ++ y)) :
    ∃ c', c.readU32 = .ok (n, c') ∧ c'.Before y ∧ c'.data = c.data := by
  obtain ⟨c', hread, hc'⟩ := readSlice_before h (leBytes_length 4 n).symm
  refine ⟨c', ?_, hc'⟩
  rw [Cursor.readU32, hread]
  exact congrArg (fun n => Except.ok (n, c')) (ofLe_leBytes hn)

theorem readU64_before (hn : n < 2 ^ 64) (h : c.Before (leBytes 8 n ++ y)) :
    ∃ c', c.readU64 = .ok (n, c') ∧ c'.Before y ∧ c'.data = c.data := by
  obtain ⟨c', hread, hc'⟩ := readSlice_before h (leBytes_length 8 n).symm
  refine ⟨c', ?_, hc'⟩
  rw [Cursor.readU64, hread]
  exact congrArg (fun n => Except.ok (n, c')) (ofLe_leBytes hn)

end

/-- What the lengths and the sequence of an operation fit in. -/
structure Fits (op : WriteOp) : Prop where
  sequence : op.sequence < 2 ^ 64
  key : op.key.length < 2 ^ 32
  value : op.value.length < 2 ^ 32

theorem u32Of_eq (h : n < 2 ^ 32) : u32Of n = n := if_pos h

/-- The type and the mark share a byte. -/
theorem kindByte_spec (kind : ValueType) (reuse : Bool) :
    ValueType.fromU8 ((ValueType.asU8 kind ||| if reuse then kindReusePrev else 0) &&& 0x7f) = some kind ∧
      ((ValueType.asU8 kind ||| if reuse then kindReusePrev else 0) &&& kindReusePrev != 0) = reuse := by
  cases kind <;> cases reuse <;> decide

/-- An operation is read back, a value left out from the one before. -/
theorem decodeOp_encodeOp {reuse : Bool} {op : WriteOp} {c : Cursor} {y : Bytes} (hfits : Fits op)
    (hreuse : reuse = true → v2 = true ∧ ∃ p, prev = some p ∧ p.value = op.value)
    (h : c.Before (encodeOp reuse op ++ y)) :
    ∃ c', decodeOp v2 prev c = .ok (op, c') ∧ c'.Before y ∧ c'.data = c.data := by
  obtain ⟨hkind, hmark⟩ := kindByte_spec op.kind reuse
  simp only [encodeOp, u32Of_eq hfits.key, u32Of_eq hfits.value, append_assoc, cons_append,
    nil_append] at h
  generalize (ValueType.asU8 op.kind ||| if reuse then kindReusePrev else 0) = byte at hkind hmark h
  obtain ⟨c₁, hread₁, hc₁, hdata₁⟩ := readU8_before h
  obtain ⟨c₂, hread₂, hc₂, hdata₂⟩ := readU64_before hfits.sequence hc₁
  obtain ⟨c₃, hread₃, hc₃, hdata₃⟩ := readU32_before hfits.key hc₂
  obtain ⟨c₄, hread₄, hc₄, hdata₄⟩ := readSlice_before hc₃ rfl
  have hdata : c₄.data = c.data := by rw [hdata₄, hdata₃, hdata₂, hdata₁]
  cases reuse with
  | true =>
    obtain ⟨rfl, p, rfl, hvalue⟩ := hreuse rfl
    refine ⟨c₄, ?_, by simpa using hc₄, hdata⟩
    simp [decodeOp, bind, Except.bind, hread₁, hkind, hmark, hread₂, hread₃, hread₄, pure,
      Except.pure, hvalue]
  | false =>
    simp only [Bool.false_eq_true, if_false, append_assoc] at hc₄
    obtain ⟨c₅, hread₅, hc₅, hdata₅⟩ := readU32_before hfits.value hc₄
    obtain ⟨c₆, hread₆, hc₆, hdata₆⟩ := readSlice_before hc₅ rfl
    refine ⟨c₆, ?_, hc₆, by rw [hdata₆, hdata₅, hdata]⟩
    simp [decodeOp, bind, Except.bind, hread₁, hkind, hmark, hread₂, hread₃, hread₄, hread₅, hread₆,
      pure, Except.pure]

/-- The operations one after the other; the last one read is the one before. -/
theorem decodeLoop_encodeLoop {prev : Option SharedOp} {c : Cursor} {y : Bytes}
    {acc : List WriteOp} (hfits : ∀ o ∈ ops, Fits o.op) (hlast : acc.getLast? = prev.map SharedOp.op)
    (hcoherent : Coherent (prev.toList ++ ops)) (h : c.Before (encodeLoop v2 prev ops ++ y)) :
    ∃ c', decodeLoop v2 ops.length c acc = .ok (acc ++ ops.map SharedOp.op, c') ∧ c'.Before y ∧
    c'.data = c.data := by
  induction ops generalizing prev c acc with
  | nil => exact ⟨c, by simp [decodeLoop], h, rfl⟩
  | cons op rest ih =>
    rw [encodeLoop, append_assoc] at h
    have hreuse : reuses v2 prev op = true → v2 = true ∧ ∃ p, acc.getLast? = some p ∧
        p.value = op.op.value := by
      intro hr
      simp only [reuses, Bool.and_eq_true] at hr
      cases prev with
      | none => cases hr.2
      | some p =>
        refine ⟨hr.1, p.op, hlast, ?_⟩
        have heq := hr.2
        simp only [valuePtrEq, Bool.and_eq_true, beq_iff_eq] at heq
        exact hcoherent p (by simp) op (by simp) heq.2 heq.1.2
    obtain ⟨c₁, hop, hc₁, hdata₁⟩ := decodeOp_encodeOp (hfits op mem_cons_self) hreuse h
    have hnext : Coherent ((some op).toList ++ rest) := fun a ha b hb =>
      hcoherent a (mem_append_right _ ha) b (mem_append_right _ hb)
    have hlast' : (acc ++ [op.op]).getLast? = (some op).map SharedOp.op := by simp
    obtain ⟨c₂, hloop, hc₂, hdata₂⟩ := ih (fun o ho => hfits o (mem_cons_of_mem _ ho)) hlast' hnext hc₁
    refine ⟨c₂, ?_, hc₂, hdata₂.trans hdata₁⟩
    rw [length_cons, decodeLoop]
    simp only [bind, Except.bind, hop, hloop]
    simp

theorem encodeOp_length (reuse : Bool) (op : WriteOp) :
    (encodeOp reuse op).length = if reuse then 1 + 8 + 4 + op.key.length else opEncodedLen op := by
  cases reuse <;> simp [encodeOp, opEncodedLen] <;> omega

theorem encodeLoop_length (v2 : Bool) (prev : Option SharedOp) (ops : List SharedOp) :
    (encodeLoop v2 prev ops).length = encodedLenLoop v2 prev ops := by
  induction ops generalizing prev with
  | nil => rfl
  | cons op rest ih => rw [encodeLoop, length_append, encodeOp_length, ih, encodedLenLoop]

theorem encodeOps_length (ops : List SharedOp) : (encodeOps ops).length = encodedLen ops := by
  simp only [encodeOps, encodedLen, length_append, encodeLoop_length, leBytes_length, length_singleton]

/-- Without the second version no value is left out, so the count passes its check. -/
theorem minOp_le (v2 : Bool) (prev : Option SharedOp) (ops : List SharedOp) :
    ops.length * minOp v2 ≤ encodedLenLoop v2 prev ops := by
  induction ops generalizing prev with
  | nil => simp
  | cons op rest ih =>
    have := ih (some op)
    rw [encodedLenLoop, length_cons, Nat.succ_mul]
    cases v2 with
    | false =>
      simp only [reuses, Bool.false_and, Bool.false_eq_true, if_false, opEncodedLen, minOp] at this ⊢
      omega
    | true =>
      simp only [minOp, if_true, opEncodedLen] at this ⊢
      split <;> omega

/-- A record is read back. -/
theorem decode_encodeOps (hcount : ops.length < 2 ^ 32) (hfits : ∀ o ∈ ops, Fits o.op)
    (hcoherent : Coherent ops) : decode (encodeOps ops) = .ok (ops.map op) := by
  have hmin := minOp_le (recordUsesV2 ops) none ops
  have hbytes : encodeOps ops = (if recordUsesV2 ops then writeRecordVersionV2 else writeRecordVersion) ::
      (leBytes 4 ops.length ++ encodeLoop (recordUsesV2 ops) none ops) := by
    rw [encodeOps, u32Of_eq hcount, append_assoc, singleton_append]
  generalize encodeOps ops = bytes at hbytes ⊢
  have hstart : Cursor.Before ⟨bytes, 0⟩ _ := ⟨Nat.zero_le _, hbytes⟩
  generalize hversion : (if recordUsesV2 ops then writeRecordVersionV2 else writeRecordVersion) =
    version at hstart
  have hknown : ¬ (version ≠ writeRecordVersion ∧ version ≠ writeRecordVersionV2) ∧
      (version == writeRecordVersionV2) = recordUsesV2 ops := by
    rw [← hversion]
    cases recordUsesV2 ops <;> decide
  obtain ⟨c₁, hread₁, hc₁, hdata₁⟩ := readU8_before hstart
  obtain ⟨c₂, hread₂, hc₂, hdata₂⟩ := readU32_before hcount hc₁
  have hrest := congrArg List.length hc₂.rest
  rw [length_drop, encodeLoop_length, hdata₂, hdata₁] at hrest
  have hguard : ¬ (bytes.length - c₂.pos) / minOp (recordUsesV2 ops) < ops.length := by
    rw [hrest, Nat.not_lt, Nat.le_div_iff_mul_le (by unfold minOp; split <;> omega)]
    exact hmin
  have hnone : ([] : List WriteOp).getLast? = (none : Option SharedOp).map op := rfl
  obtain ⟨c₃, hloop, hc₃, hdata₃⟩ := decodeLoop_encodeLoop hfits hnone hcoherent (by rwa [append_nil])
  have hend : ¬ c₃.pos < c₃.data.length := Nat.not_lt.mpr (drop_eq_nil_iff.mp hc₃.rest)
  simp only [decode, bind, Except.bind, hread₁, if_neg hknown.1, hknown.2, hread₂, if_neg hguard,
    hloop, if_neg hend,
    nil_append, writeRecordCountOk, length_map, beq_self_eq_true, if_true]

/-! ### Torn records -/

theorem bind_ok {α β ε : Type} {x : Except ε α} {f : α → Except ε β} {b : β} (h : (x >>= f) = .ok b) :
    ∃ a, x = .ok a ∧ f a = .ok b := by
  cases x with
  | error e => cases h
  | ok a => exact ⟨a, rfl, h⟩

/-- More bytes behind the end. -/
def Cursor.extend (c : Cursor) (more : Bytes) : Cursor := { c with data := c.data ++ more }

section
variable {c c' : Cursor} (more : Bytes)

/-- What is read does not depend on what comes behind it. -/
theorem readSlice_extend {x : Bytes} (h : c.readSlice n = .ok (x, c')) :
    (c.extend more).readSlice n = .ok (x, c'.extend more) := by
  rw [Cursor.readSlice] at h
  split at h
  · cases h
  rename_i hle
  obtain ⟨rfl, rfl⟩ : (c.data.drop c.pos).take n = x ∧ { c with pos := c.pos + n } = c' := by
    simpa using h
  have hlen : ¬ (c.extend more).data.length < (c.extend more).pos + n := by
    simp only [Cursor.extend, length_append]
    omega
  have hslice : ((c.data ++ more).drop c.pos).take n = (c.data.drop c.pos).take n := by
    rw [drop_append_of_le_length (by omega), take_append_of_le_length (by rw [length_drop]; omega)]
  rw [Cursor.readSlice, if_neg hlen]
  exact congrArg (fun x => Except.ok (x, _)) hslice

theorem readSlice_le {x : Bytes} (h : c.readSlice n = .ok (x, c')) : c'.pos ≤ c'.data.length := by
  rw [Cursor.readSlice] at h
  split at h
  · cases h
  · rename_i hle
    obtain ⟨-, rfl⟩ : (c.data.drop c.pos).take n = x ∧ { c with pos := c.pos + n } = c' := by
      simpa using h
    exact Nat.not_lt.mp hle

theorem readU32_le (h : c.readU32 = .ok (n, c')) : c'.pos ≤ c'.data.length := by
  obtain ⟨⟨x, c₁⟩, hread, hret⟩ := bind_ok h
  obtain ⟨-, rfl⟩ : ofLe x = n ∧ c₁ = c' := by simpa [pure, Except.pure] using hret
  exact readSlice_le hread

theorem readU8_extend {byte : UInt8} (h : c.readU8 = .ok (byte, c')) :
    (c.extend more).readU8 = .ok (byte, c'.extend more) := by
  obtain ⟨⟨x, c₁⟩, hread, hret⟩ := bind_ok h
  obtain ⟨rfl, rfl⟩ : x.getD 0 0 = byte ∧ c₁ = c' := by simpa [pure, Except.pure] using hret
  rw [Cursor.readU8, readSlice_extend more hread]
  rfl

theorem readU32_extend (h : c.readU32 = .ok (n, c')) :
    (c.extend more).readU32 = .ok (n, c'.extend more) := by
  obtain ⟨⟨x, c₁⟩, hread, hret⟩ := bind_ok h
  obtain ⟨rfl, rfl⟩ : ofLe x = n ∧ c₁ = c' := by simpa [pure, Except.pure] using hret
  rw [Cursor.readU32, readSlice_extend more hread]
  rfl

theorem readU64_extend (h : c.readU64 = .ok (n, c')) :
    (c.extend more).readU64 = .ok (n, c'.extend more) := by
  obtain ⟨⟨x, c₁⟩, hread, hret⟩ := bind_ok h
  obtain ⟨rfl, rfl⟩ : ofLe x = n ∧ c₁ = c' := by simpa [pure, Except.pure] using hret
  rw [Cursor.readU64, readSlice_extend more hread]
  rfl

/-- Bytes behind an operation do not change how it reads. -/
theorem decodeOp_extend {op : WriteOp} (h : decodeOp v2 prev c = .ok (op, c')) :
    decodeOp v2 prev (c.extend more) = .ok (op, c'.extend more) ∧ c'.pos ≤ c'.data.length := by
  obtain ⟨⟨byte, c₁⟩, hread₁, h⟩ := bind_ok h
  dsimp only at h
  cases hkind : ValueType.fromU8 (byte &&& 0x7f) with
  | none => simp [hkind] at h
  | some kind =>
    simp only [hkind] at h
    obtain ⟨⟨sequence, c₂⟩, hread₂, h⟩ := bind_ok h
    obtain ⟨⟨keyLen, c₃⟩, hread₃, h⟩ := bind_ok h
    obtain ⟨⟨key, c₄⟩, hread₄, h⟩ := bind_ok h
    simp only [decodeOp, bind, Except.bind, readU8_extend more hread₁, hkind, readU64_extend more hread₂,
      readU32_extend more hread₃, readSlice_extend more hread₄]
    dsimp only at h
    split at h
    · rename_i hreuse
      rw [if_pos hreuse]
      cases prev with
      | none => cases h
      | some p =>
        obtain ⟨rfl, rfl⟩ : _ ∧ _ := by simpa [pure, Except.pure] using h
        exact ⟨rfl, readSlice_le hread₄⟩
    · rename_i hreuse
      rw [if_neg hreuse]
      obtain ⟨⟨valLen, c₅⟩, hread₅, h⟩ := bind_ok h
      obtain ⟨⟨value, c₆⟩, hread₆, h⟩ := bind_ok h
      obtain ⟨rfl, rfl⟩ : _ ∧ _ := by simpa [pure, Except.pure] using h
      simp only [readU32_extend more hread₅, readSlice_extend more hread₆]
      exact ⟨rfl, readSlice_le hread₆⟩

theorem decodeLoop_extend {acc ops : List WriteOp} (hle : c.pos ≤ c.data.length)
    (h : decodeLoop v2 n c acc = .ok (ops, c')) :
    decodeLoop v2 n (c.extend more) acc = .ok (ops, c'.extend more) ∧ c'.pos ≤ c'.data.length := by
  induction n generalizing c acc with
  | zero =>
    obtain ⟨rfl, rfl⟩ : acc = ops ∧ c = c' := by simpa [decodeLoop] using h
    exact ⟨rfl, hle⟩
  | succ n ih =>
    obtain ⟨⟨op, c₁⟩, hop, h⟩ := bind_ok h
    obtain ⟨hop', hle'⟩ := decodeOp_extend more hop
    rw [decodeLoop]
    simp only [bind, Except.bind, hop']
    exact ih hle' h

end

/-- **A record is read whole or not at all.** Bytes behind an accepted record are refused. -/
theorem decode_front {bytes more : Bytes} {ops : List WriteOp} (h : decode bytes = .ok ops)
    (hmore : more ≠ []) :
    decode (bytes ++ more) = .error .trailingBytes := by
  obtain ⟨⟨version, c₁⟩, hread₁, h⟩ := bind_ok h
  dsimp only at h
  have hread₁' := readU8_extend more hread₁
  split at h
  · cases h
  rename_i hversion
  obtain ⟨⟨count, c₂⟩, hread₂, h⟩ := bind_ok h
  dsimp only at h
  split at h
  · cases h
  rename_i hguard
  obtain ⟨⟨decoded, c₃⟩, hloop, h⟩ := bind_ok h
  have hread₂' := readU32_extend more hread₂
  obtain ⟨hloop', hle⟩ := decodeLoop_extend more (readU32_le hread₂) hloop
  have hmono : ¬ ((bytes ++ more).length - (c₂.extend more).pos) / minOp
      (version == writeRecordVersionV2) < count := by
    refine Nat.not_lt.mpr (Nat.le_trans (Nat.not_lt.mp hguard) (Nat.div_le_div_right ?_))
    simp only [Cursor.extend, length_append]
    omega
  have hleft : (c₃.extend more).pos < (c₃.extend more).data.length := by
    have := length_pos_iff.mpr hmore
    simp only [Cursor.extend, length_append]
    omega
  rw [decode]
  simp only [bind, Except.bind, show Cursor.readU8 ⟨bytes ++ more, 0⟩ = _ from hread₁',
    if_neg hversion, hread₂',
    if_neg hmono, hloop', if_pos hleft]

/-- No proper part of a record is a record. -/
theorem decode_take {bytes : Bytes} {ops : List WriteOp} (h : decode bytes = .ok ops)
    (hn : n < bytes.length) :
    ∃ e, decode (bytes.take n) = .error e := by
  cases htorn : decode (bytes.take n) with
  | error e => exact ⟨e, rfl⟩
  | ok torn =>
    have hmore : bytes.drop n ≠ [] := by
      rw [Ne, drop_eq_nil_iff]
      omega
    have := decode_front htorn hmore
    rw [take_append_drop, h] at this
    cases this

/-! ### Shared values -/

theorem shareWith_op (prev cur : SharedOp) : (shareWith prev cur).op = cur.op := by
  rw [shareWith]
  split
  · rfl
  · rename_i hsame
    simp only [not_or, not_not] at hsame
    rw [hsame.2.2.2.2]

theorem shareLoop_ops (prev : SharedOp) (ops : List SharedOp) :
    (shareLoop prev ops).map op = ops.map op := by
  induction ops generalizing prev with
  | nil => rfl
  | cons cur rest ih => simp [shareLoop, shareWith_op, ih]

/-- Sharing values changes no operation. -/
theorem share_ops (ops : List SharedOp) : (shareConsecutiveEqualValues ops).map op = ops.map op := by
  cases ops with
  | nil => rfl
  | cons op rest => simp [shareConsecutiveEqualValues, shareLoop_ops]

/-- A place keeps its bytes: every operation has the place and the value of one from before. -/
def PlacedIn (ops : List SharedOp) (o : SharedOp) : Prop :=
  ∃ a ∈ ops, a.ptr = o.ptr ∧ a.op.value = o.op.value

theorem shareWith_placed {prev cur : SharedOp} (hprev : PlacedIn ops prev) (hcur : PlacedIn ops cur) :
    PlacedIn ops (shareWith prev cur) := by
  rw [shareWith]
  split
  · exact hcur
  · exact hprev

theorem shareLoop_placed (rest : List SharedOp) {prev : SharedOp} (hprev : PlacedIn ops prev)
    (hrest : ∀ o ∈ rest, PlacedIn ops o) : ∀ o ∈ shareLoop prev rest, PlacedIn ops o := by
  induction rest generalizing prev with
  | nil => simp [shareLoop]
  | cons cur rest ih =>
    obtain ⟨hfirst, hrest⟩ := forall_mem_cons.mp hrest
    have hcur := shareWith_placed hprev hfirst
    exact forall_mem_cons.mpr ⟨hcur, ih hcur hrest⟩

theorem share_coherent (h : Coherent ops) : Coherent (shareConsecutiveEqualValues ops) := by
  have hself : ∀ o ∈ ops, PlacedIn ops o := fun o ho => ⟨o, ho, rfl, rfl⟩
  have hplaced : ∀ o ∈ shareConsecutiveEqualValues ops, PlacedIn ops o := by
    cases ops with
    | nil => simp [shareConsecutiveEqualValues]
    | cons op rest =>
      obtain ⟨hfirst, hrest⟩ := forall_mem_cons.mp hself
      exact forall_mem_cons.mpr ⟨hfirst, shareLoop_placed rest hfirst hrest⟩
  intro a ha b hb hptr hlen
  obtain ⟨a', ha', hpa, hva⟩ := hplaced a ha
  obtain ⟨b', hb', hpb, hvb⟩ := hplaced b hb
  rw [← hva, ← hvb]
  exact h a' ha' b' hb' (by rw [hpa, hpb, hptr]) (by rw [hva, hvb, hlen])

/-- **The record codec.** Whichever values share their bytes, and whether or not equal ones
were made to share them, decoding gives the operations back, the length was foreseen, and
nothing that lacks an end decodes. -/
theorem write_record_codec (ops : List SharedOp) (hcount : ops.length < 2 ^ 32)
    (hfits : ∀ o ∈ ops, Fits o.op)
    (hcoherent : Coherent ops) (shared : List SharedOp)
    (hshared : shared = ops ∨ shared = shareConsecutiveEqualValues ops) :
    decode (encodeOps shared) = .ok (ops.map SharedOp.op) ∧
    encodedLen shared = (encodeOps shared).length ∧
      ∀ n < (encodeOps shared).length, ∃ e, decode ((encodeOps shared).take n) = .error e := by
  have hops : shared.map op = ops.map op ∧ Coherent shared := by
    rcases hshared with rfl | rfl
    · exact ⟨rfl, hcoherent⟩
    · exact ⟨share_ops ops, share_coherent hcoherent⟩
  have hlen : shared.length = ops.length := by simpa using congrArg List.length hops.1
  have hfits' : ∀ o ∈ shared, Fits o.op := by
    intro o ho
    have hmem : o.op ∈ ops.map op := hops.1 ▸ mem_map_of_mem ho
    obtain ⟨o', ho', heq⟩ := mem_map.mp hmem
    exact heq ▸ hfits o' ho'
  have hdecode := decode_encodeOps (hlen ▸ hcount) hfits' hops.2
  exact ⟨hops.1 ▸ hdecode, (encodeOps_length shared).symm, fun n hn => decode_take hdecode hn⟩

/-- Two puts with equal values in different places, which are then made to share one. -/
def equalPuts : List SharedOp := [⟨.put 5 [7] [8, 8], 100⟩, ⟨.put 6 [9] [8, 8], 200⟩, ⟨.delete 7 [7], 0⟩]

theorem write_record_codec_shared :
    decode (encodeOps (shareConsecutiveEqualValues equalPuts)) =
    .ok [.put 5 [7] [8, 8], .put 6 [9] [8, 8], .delete 7 [7]] ∧
      encodedLen (shareConsecutiveEqualValues equalPuts) =
      (encodeOps (shareConsecutiveEqualValues equalPuts)).length ∧
      ∀ n < (encodeOps (shareConsecutiveEqualValues equalPuts)).length,
        ∃ e, decode ((encodeOps (shareConsecutiveEqualValues equalPuts)).take n) = .error e :=
  write_record_codec equalPuts (by decide)
    (by
      intro o ho
      simp only [equalPuts, mem_cons, not_mem_nil, or_false] at ho
      rcases ho with rfl | rfl | rfl <;> exact ⟨by decide, by decide, by decide⟩)
    (by
      unfold Coherent
      decide)
    _ (.inr rfl)

end PedraDb.Wal
