import Mathlib.Algebra.GroupWithZero.Nat
import Mathlib.Data.List.Basic

/-! The bytes of the write-ahead log.

The log is a sequence of blocks. A block holds physical records, each a header of seven
bytes (checksum, length, type) and a fragment of a logical record; a logical record that
does not fit goes on in the next block. Bytes a header would not fit in are zero.

The checksum is that of an outside library under a mask of this code. `Crc` is the type of
the library's function, and everything here takes one; `crc32cAppend` is the one in use. -/
namespace PedraDb.Wal

abbrev Bytes := List UInt8

def blockSize : Nat := 32768

/-- Four bytes of checksum, two of length, one of type. -/
def headerSize : Nat := 7

inductive RecordType where
  | zero
  | full
  | first
  | middle
  | last
  deriving DecidableEq

namespace RecordType

def toByte : RecordType → UInt8
  | .zero => 0
  | .full => 1
  | .first => 2
  | .middle => 3
  | .last => 4

def fromByte (byte : UInt8) : Option RecordType :=
  if byte = 0 then some .zero
  else if byte = 1 then some .full
  else if byte = 2 then some .first
  else if byte = 3 then some .middle
  else if byte = 4 then some .last
  else none

@[simp] theorem fromByte_toByte (t : RecordType) : fromByte t.toByte = some t := by
  cases t <;> rfl

end RecordType

def leBytes : Nat → Nat → Bytes
  | 0, _ => []
  | n + 1, v => UInt8.ofNat (v % 256) :: leBytes n (v / 256)

def ofLe : Bytes → Nat
  | [] => 0
  | b :: bs => b.toNat + 256 * ofLe bs

@[simp] theorem leBytes_length (n v : Nat) : (leBytes n v).length = n := by
  induction n generalizing v with
  | zero => rfl
  | succ n ih => simp [leBytes, ih]

theorem ofLe_leBytes {n v : Nat} (h : v < 256 ^ n) : ofLe (leBytes n v) = v := by
  induction n generalizing v with
  | zero =>
    have : v = 0 := by omega
    simp [leBytes, ofLe, this]
  | succ n ih =>
    have hdiv : v / 256 < 256 ^ n := Nat.div_lt_of_lt_mul (by rwa [Nat.pow_succ, Nat.mul_comm] at h)
    simp only [leBytes, ofLe, ih hdiv, UInt8.toNat_ofNat']
    omega

/-- A number of so many bytes is written in one way. -/
theorem leBytes_ofLe (bs : Bytes) : leBytes bs.length (ofLe bs) = bs := by
  induction bs with
  | nil => rfl
  | cons b bs ih =>
    have hb := b.toNat_lt
    have hmod : (b.toNat + 256 * ofLe bs) % 256 = b.toNat := by omega
    have hdiv : (b.toNat + 256 * ofLe bs) / 256 = ofLe bs := by omega
    rw [List.length_cons, ofLe, leBytes, hmod, hdiv, ih, UInt8.ofNat_toNat]

/-! ### Checksums -/

/-- `crc32c_append`: continue a checksum over more bytes. -/
abbrev Crc := UInt32 → Bytes → UInt32

/-- One bit of the division by the reflected Castagnoli polynomial. -/
def crcBit (c : UInt32) : UInt32 := if c &&& 1 = 1 then (c >>> 1) ^^^ 0x82f63b78 else c >>> 1

def crcByte (c : UInt32) (b : UInt8) : UInt32 :=
  crcBit (crcBit (crcBit (crcBit (crcBit (crcBit (crcBit (crcBit (c ^^^ b.toUInt32))))))))

def crc32cAppend : Crc := fun c data => ~~~(data.foldl crcByte (~~~c))

example : crc32cAppend 0 [49, 50, 51, 52, 53, 54, 55, 56, 57] = 0xe3069283 := by decide +kernel

/-- Keep the checksum of a string that itself holds checksums apart from them. -/
def mask (crc : UInt32) : UInt32 := ((crc >>> 15) ||| (crc <<< 17)) + 0xa282ead8

def recordChecksum (crc : Crc) (t : UInt8) (length : Nat) (data : Bytes) : UInt32 :=
  mask (crc (crc (crc 0 (leBytes 2 length)) [t]) data)

/-- A physical record: its header, then the fragment. -/
def physicalRecord (crc : Crc) (t : RecordType) (payload : Bytes) : Bytes :=
  leBytes 4 (recordChecksum crc t.toByte payload.length payload).toNat ++
    leBytes 2 payload.length ++ [t.toByte] ++ payload

@[simp] theorem physicalRecord_length (crc : Crc) (t : RecordType) (payload : Bytes) :
    (physicalRecord crc t payload).length = headerSize + payload.length := by
  simp [physicalRecord, headerSize]
  omega

def sealMagic : Nat := 0x5345414C

def sealFrameLen : Nat := 16

inductive SealParseResult where
  | validSeal (logicalEof : Nat)
  | trailingZeroes
  | corruptFrame
  deriving DecidableEq

def parseFrameOrSeal (crc : Crc) (buf : Bytes) : SealParseResult :=
  if buf.all (· == 0) then .trailingZeroes
  else if buf.length < sealFrameLen then .corruptFrame
  else if ofLe (buf.take 4) ≠ sealMagic then .corruptFrame
  else if (crc 0 (buf.take 12)).toNat ≠ ofLe ((buf.drop 12).take 4) then .corruptFrame
  else .validSeal (ofLe ((buf.drop 4).take 8))

end PedraDb.Wal
