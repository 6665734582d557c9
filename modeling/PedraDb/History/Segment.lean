import PedraDb.Batch
import PedraDb.Wal.Format

/-! Archived versions and the segments they are kept in.

Before old versions are discarded they are archived: each becomes a record of a segment,
with its value in the user's form and a checksum of its own. A segment is walked record by
record and the first one that does not read stops the walk. -/
namespace PedraDb.History
open List
open Wal (Bytes Crc leBytes ofLe leBytes_length ofLe_leBytes)

/-! ### Records -/

/-- One archived version: kind 0 is a value, 1 a delete, 2 a range delete whose end is the
value. -/
structure HistoryRecord where
  key : Key
  val : Value
  seq : Nat
  kind : UInt8
  deriving DecidableEq

open HistoryRecord

def archiveKindTag : ValueType → UInt8
  | .value => 0
  | .deletion => 1
  | .rangeDeletion => 2

def HistoryRecord.body (r : HistoryRecord) : Bytes :=
  leBytes 4 r.key.length ++
    (r.key ++ (leBytes 4 r.val.length ++ (r.val ++ (leBytes 8 r.seq ++ [r.kind]))))

/-- A record as it is written. Lengths are cut to four bytes. -/
def HistoryRecord.bytes (crc : Crc) (r : HistoryRecord) : Bytes :=
  r.body ++ leBytes 4 (crc 0 r.body).toNat

inductive HistoryError where
  | corruptHistory (msg : String)
  | notFound
  | msg (text : String)
  deriving DecidableEq

def bad (why : String) : HistoryError := .corruptHistory ("segment record " ++ why)

/-- A length of four bytes and as many bytes, and what follows them. -/
def readLengthPrefixedBytes (buf : Bytes) : Option (Bytes × Bytes) :=
  if buf.length < 4 then none
  else if (buf.drop 4).length < ofLe (buf.take 4) then none
  else some ((buf.drop 4).take (ofLe (buf.take 4)), (buf.drop 4).drop (ofLe (buf.take 4)))

/-- The record at the front of the bytes, and what follows it. -/
def walkRecord (crc : Crc) (bytes : Bytes) : Except HistoryError (HistoryRecord × Bytes) :=
  match readLengthPrefixedBytes bytes with
  | none => .error (bad "truncated key")
  | some (key, rest) =>
    match readLengthPrefixedBytes rest with
    | none => .error (bad "truncated value")
    | some (val, rest) =>
      if rest.length < 13 then .error (bad "truncated tail")
      else if (crc 0 (bytes.take (bytes.length - rest.length + 9))).toNat ≠ ofLe
        ((rest.drop 9).take 4) then
        .error (bad "crc mismatch")
      else .ok (⟨key, val, ofLe (rest.take 8), rest.getD 8 0⟩, rest.drop 13)

/-- A turn of the walk takes a record, and a record is not empty. -/
def walkLoop (crc : Crc) : Nat → Bytes → Except HistoryError (List HistoryRecord)
  | 0, _ => .ok []
  | n + 1, bytes =>
    if bytes.isEmpty then .ok []
    else
      match walkRecord crc bytes with
      | .error e => .error e
      | .ok (r, rest) =>
        match walkLoop crc n rest with
        | .error e => .error e
        | .ok rs => .ok (r :: rs)

def walkSegmentRecords (crc : Crc) (bytes : Bytes) : Except HistoryError (List HistoryRecord) :=
  walkLoop crc bytes.length bytes

/-- The lengths and the sequence fit their fields. -/
def HistoryRecord.fits (r : HistoryRecord) : Bool :=
  decide (r.key.length < 2 ^ 32) && decide (r.val.length < 2 ^ 32) && decide (r.seq < 2 ^ 64)

theorem readLengthPrefixedBytes_append {data : Bytes} (h : data.length < 2 ^ 32) (rest : Bytes) :
    readLengthPrefixedBytes (leBytes 4 data.length ++ (data ++ rest)) = some (data, rest) := by
  have hlen : ofLe (leBytes 4 data.length) = data.length := ofLe_leBytes (by omega)
  have htake : (leBytes 4 data.length ++ (data ++ rest)).take 4 = leBytes 4 data.length :=
    take_left' (leBytes_length 4 _)
  have hdrop : (leBytes 4 data.length ++ (data ++ rest)).drop 4 = data ++ rest :=
    drop_left' (leBytes_length 4 _)
  simp only [readLengthPrefixedBytes, htake, hdrop, hlen]
  rw [if_neg (by simp), if_neg (by simp), take_left, drop_left]

theorem walkRecord_bytes (crc : Crc) {r : HistoryRecord} (h : r.fits = true) (rest : Bytes) :
    walkRecord crc (r.bytes crc ++ rest) = .ok (r, rest) := by
  simp only [fits, Bool.and_eq_true, decide_eq_true_eq] at h
  obtain ⟨⟨hkey, hval⟩, hseq⟩ := h
  have hbytes : r.bytes crc ++ rest = leBytes 4 r.key.length ++
    (r.key ++ (leBytes 4 r.val.length ++ (r.val ++
      (leBytes 8 r.seq ++ ([r.kind] ++ (leBytes 4 (crc 0 r.body).toNat ++ rest)))))) := by
    simp [bytes, body]
  -- the tail after the value: sequence, kind, checksum
  have htail : (leBytes 8 r.seq ++ ([r.kind] ++ (leBytes 4 (crc 0 r.body).toNat ++ rest))).length =
      13 + rest.length := by
    simp
    omega
  have hpayload : (r.bytes crc ++ rest).take
      ((r.bytes crc ++ rest).length - (13 + rest.length) + 9) = r.body := by
    have hlen : (r.bytes crc ++ rest).length - (13 + rest.length) + 9 = r.body.length := by
      simp [bytes, body]
      omega
    rw [hlen, bytes, append_assoc, take_left]
  have hstored : ofLe (leBytes 4 (crc 0 r.body).toNat) = (crc 0 r.body).toNat :=
    ofLe_leBytes (by have := (crc 0 r.body).toNat_lt; omega)
  have hkeep := hpayload
  rw [hbytes] at hkeep
  simp only [walkRecord, hbytes, readLengthPrefixedBytes_append hkey,
    readLengthPrefixedBytes_append hval, htail, hkeep]
  rw [if_neg (by omega), if_neg]
  · simp only [Except.ok.injEq, Prod.mk.injEq]
    refine ⟨?_, ?_⟩
    · have hread :
          ofLe ((leBytes 8 r.seq ++ ([r.kind] ++ (leBytes 4 (crc 0 r.body).toNat ++ rest))).take
            8) = r.seq := by
        rw [take_left' (leBytes_length 8 _)]
        exact ofLe_leBytes (by omega)
      rw [hread]
      simp
    · simp [drop_append]
  · have : ((leBytes 8 r.seq ++ ([r.kind] ++ (leBytes 4 (crc 0 r.body).toNat ++ rest))).drop 9).take 4 =
        leBytes 4 (crc 0 r.body).toNat := by
      rw [← append_assoc, drop_left' (by simp), take_left' (leBytes_length 4 _)]
    rw [this, hstored]
    simp

variable {rs : List HistoryRecord}

theorem walkLoop_bytes (crc : Crc) (h : ∀ r ∈ rs, r.fits = true) {fuel : Nat}
    (hfuel : rs.length ≤ fuel) : walkLoop crc fuel (rs.flatMap (·.bytes crc)) = .ok rs := by
  induction rs generalizing fuel with
  | nil => cases fuel <;> rfl
  | cons r rs ih =>
    obtain ⟨n, rfl⟩ : ∃ n, fuel = n + 1 := ⟨fuel - 1, by simp at hfuel; omega⟩
    have hne : ((r :: rs).flatMap (·.bytes crc)).isEmpty = false := by
      simp [bytes, body, leBytes]
    rw [walkLoop, hne]
    simp only [flatMap_cons, walkRecord_bytes crc (h r (by simp)), Bool.false_eq_true, if_false]
    rw [ih (fun r hr => h r (mem_cons_of_mem _ hr)) (by simp at hfuel; omega)]

/-- **A segment walks back to its records.** -/
theorem walkSegmentRecords_bytes (crc : Crc) (h : ∀ r ∈ rs, r.fits = true) :
    walkSegmentRecords crc (rs.flatMap (·.bytes crc)) = .ok rs := by
  refine walkLoop_bytes crc h ?_
  clear h
  induction rs with
  | nil => exact Nat.zero_le _
  | cons r rs ih =>
    have hone : 1 ≤ (r.bytes crc).length := by
      simp [bytes, body]
      omega
    rw [flatMap_cons, length_append, length_cons]
    omega

end PedraDb.History
