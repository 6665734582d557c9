import PedraDb.Wal.Format

/-! The value log: large values in files of their own.

A pointer names a file, an offset, a length and a checksum. Records of the open file are staged
before they are written, and every file has its first record at 8. A read looks for a staged
record by offset alone, and so may take one for a record of another file. -/
namespace PedraDb.Vlog
open List Wal

inductive LogPath where
  | main
  | new
  | blob (num : Nat)

/-- The file number of a pointer into it. -/
def LogPath.fileNum : LogPath → Nat
  | .blob num => num
  | _ => 0

structure VlogPtr where
  fileNum : Nat
  offset : Nat
  len : Nat
  crc : UInt32

structure PendingLarge where
  offset : Nat
  hdr : Bytes
  data : Bytes
  /-- The header is an array of eight bytes. -/
  hdr_length : hdr.length = 8

structure ValueLog where
  path : LogPath
  nextOffset : Nat
  pendingStart : Nat
  pending : Bytes
  pendingLarge : List PendingLarge

inductive VlogError where
  | io
  | corruptValue (msg : String)
  deriving DecidableEq

abbrev Dir := LogPath → Option Bytes

section Reads
variable (crc : Crc) (dir : Dir) (useNew : Bool)

def resolvePath : LogPath := if useNew && (dir .new).isSome then .new else .main

def pathForPtr (ptr : VlogPtr) (openPath : LogPath) : LogPath :=
  if ptr.fileNum = 0 then
    match openPath with
    | .blob _ => resolvePath dir useNew
    | path => path
  else .blob ptr.fileNum

def readExact (n : Nat) (bytes : Bytes) : Except VlogError (Bytes × Bytes) :=
  if bytes.length < n then .error .io else .ok (bytes.take n, bytes.drop n)

/-- The checks of a record, staged or in a file: the payload is read after its header. -/
def checkRecord (place : String) (offset len : Nat) (expectCrc : UInt32) (hdr : Bytes)
    (data : Except VlogError Bytes) :
    Except VlogError Bytes := do
  let storedLen := ofLe (hdr.take 4)
  if storedLen ≠ len then
    throw (.corruptValue s!"len mismatch{place} at {offset}: stored {storedLen} expect {len}")
  if ofLe (hdr.drop 4) ≠ expectCrc.toNat then throw (.corruptValue s!"crc mismatch{place} at {offset}")
  let data ← data
  if crc 0 data ≠ expectCrc then throw (.corruptValue s!"data crc mismatch{place} at {offset}")
  return data

/-- Header and payload of what is staged where a record of the length would begin. -/
def ValueLog.stagedAt (log : ValueLog) (offset len : Nat) : Option (Bytes × Bytes) :=
  match log.pendingLarge.find? (·.offset = offset) with
  | some rec => some (rec.hdr, rec.data)
  | none =>
    let record := log.pending.drop (offset - log.pendingStart)
    -- the end of the record is a `u64` and saturates
    if log.pending = [] ∨ offset < log.pendingStart ∨
      log.nextOffset < min (offset + (8 + len)) (2 ^ 64 - 1) ∨
        log.pending.length < offset - log.pendingStart + (8 + len) then none
    else some (record.take 8, (record.drop 8).take len)

def ValueLog.readPending (log : ValueLog) (offset len : Nat) (expectCrc : UInt32) :
    Except VlogError (Option Bytes) :=
  match log.stagedAt offset len with
  | none => .ok none
  | some (hdr, data) => (checkRecord crc " in vlog pending" offset len expectCrc hdr (.ok data)).map some

def readRecordAt (path : LogPath) (offset len : Nat) (expectCrc : UInt32) : Except VlogError Bytes :=
  match dir path with
  | none => .error .io
  | some bytes => do
    let (hdr, rest) ← readExact 8 (bytes.drop offset)
    checkRecord crc "" offset len expectCrc hdr ((readExact len rest).map Prod.fst)

def ValueLog.readPtrOn (log : ValueLog) (ptr : VlogPtr) : Except VlogError Bytes := do
  match ← log.readPending crc ptr.offset ptr.len ptr.crc with
  | some bytes => return bytes
  | none => readRecordAt crc dir (pathForPtr dir useNew ptr log.path) ptr.offset ptr.len ptr.crc

/-! ### Records of other files -/

def recordHeader (data : Bytes) : Bytes := leBytes 4 data.length ++ leBytes 4 (crc 0 data).toNat

/-- The file a pointer means: a numbered blob, or the log in use. -/
def ownFile (fileNum : Nat) : LogPath := if fileNum = 0 then resolvePath dir useNew else .blob fileNum

/-- The record a pointer names is whole in the file. -/
structure Intact (path : LogPath) (ptr : VlogPtr) (payload : Bytes) : Prop where
  len : ptr.len = payload.length
  checksum : ptr.crc = crc 0 payload
  short : payload.length < 2 ^ 32
  stored : ∃ bytes rest, dir path = some bytes ∧ bytes.drop ptr.offset =
    recordHeader crc payload ++ (payload ++ rest)

end Reads

section Other
variable {crc : Crc} {dir : Dir} {useNew : Bool} {log : ValueLog} {ptr : VlogPtr} {payload : Bytes}

theorem pathForPtr_other (h : ptr.fileNum ≠ log.path.fileNum) :
    pathForPtr dir useNew ptr log.path = ownFile dir useNew ptr.fileNum := by
  unfold pathForPtr ownFile
  split
  next hzero =>
    cases hpath : log.path with
    | blob num => rfl
    | main | new =>
      rw [hpath] at h
      exact absurd hzero h
  next => rfl

theorem readExact_append {x y : Bytes} : readExact x.length (x ++ y) = .ok (x, y) := by
  simp [readExact]

theorem checkRecord_ok (place : String) (offset : Nat) (hlen : payload.length < 2 ^ 32) :
    checkRecord crc place offset payload.length (crc 0 payload) (recordHeader crc payload)
    (.ok payload) = .ok payload := by
  have hstored : ofLe ((recordHeader crc payload).take 4) = payload.length := by
    rw [recordHeader, take_left' (leBytes_length ..), ofLe_leBytes hlen]
  have hcrc : ofLe ((recordHeader crc payload).drop 4) = (crc 0 payload).toNat := by
    rw [recordHeader, drop_left' (leBytes_length ..), ofLe_leBytes (UInt32.toNat_lt _)]
  simp [checkRecord, hstored, hcrc, bind, Except.bind, pure, Except.pure]

/-- The checks leave one record: the pointer's own header and payload. -/
theorem checkRecord_inv {place : String} {offset : Nat} {hdr data : Bytes}
    (hhdr : hdr.length = 8)
    (h : checkRecord crc place offset payload.length (crc 0 payload) hdr (.ok data) = .ok payload) :
    hdr = recordHeader crc payload ∧ data = payload := by
  simp only [checkRecord, bind, Except.bind, pure, Except.pure, throw, throwThe, MonadExceptOf.throw]
    at h
  split at h
  · cases h
  rename_i hlen
  split at h
  · cases h
  rename_i hcrc
  split at h
  · cases h
  refine ⟨?_, Except.ok.inj h⟩
  have htake : (hdr.take 4).length = 4 := by rw [length_take, hhdr]; rfl
  have hdrop : (hdr.drop 4).length = 4 := by rw [length_drop, hhdr]
  rw [recordHeader, ← not_not.mp hlen, ← not_not.mp hcrc]
  conv => rhs; arg 1; arg 1; rw [← htake]
  conv => rhs; arg 2; arg 1; rw [← hdrop]
  rw [leBytes_ofLe, leBytes_ofLe, take_append_drop]

theorem stagedAt_hdr_length {offset len : Nat} {r : Bytes × Bytes}
    (h : log.stagedAt offset len = some r) : r.1.length = 8 := by
  unfold ValueLog.stagedAt at h
  split at h
  · rename_i rec _
    cases h
    exact rec.hdr_length
  · dsimp only at h
    split at h
    · cases h
    · rename_i hinside
      simp only [not_or, Nat.not_lt] at hinside
      cases h
      rw [length_take, length_drop]
      omega

/-- What is staged at the offset answers, whatever file is meant. -/
theorem readPtrOn_staged {hdr data : Bytes}
    (h : log.stagedAt ptr.offset ptr.len = some (hdr, data)) :
    log.readPtrOn crc dir useNew ptr =
      checkRecord crc " in vlog pending" ptr.offset ptr.len ptr.crc hdr (.ok data) := by
  rw [ValueLog.readPtrOn, ValueLog.readPending, h]
  dsimp only
  cases checkRecord crc " in vlog pending" ptr.offset ptr.len ptr.crc hdr (.ok data) with
  | error e => rfl
  | ok bytes => rfl

/-- **A record of another file is read from it exactly if** nothing is staged at its offset but
a record with the same header and payload. -/
theorem read_ptr_other_file (hother : ptr.fileNum ≠ log.path.fileNum)
    (hintact : Intact crc dir (ownFile dir useNew ptr.fileNum) ptr payload) :
    log.readPtrOn crc dir useNew ptr = .ok payload ↔
      ∀ r, log.stagedAt ptr.offset ptr.len = some r → r = (recordHeader crc payload, payload) := by
  obtain ⟨hlen, hcrc, hshort, bytes, rest, hfile, hbytes⟩ := hintact
  cases h : log.stagedAt ptr.offset ptr.len with
  | none =>
    have hhdr : readExact 8 (bytes.drop ptr.offset) =
        .ok (recordHeader crc payload, payload ++ rest) := by
      rw [hbytes]
      exact readExact_append
    refine iff_of_true ?_ (by simp)
    rw [ValueLog.readPtrOn, ValueLog.readPending, pathForPtr_other hother, h]
    simp only [readRecordAt, hfile, hhdr, hlen, hcrc, bind, Except.bind, readExact_append,
      Except.map]
    exact checkRecord_ok "" _ hshort
  | some r =>
    obtain ⟨hdr, data⟩ := r
    rw [readPtrOn_staged h, hlen, hcrc]
    constructor
    · intro hread r hr
      obtain ⟨rfl, rfl⟩ := checkRecord_inv (stagedAt_hdr_length h) hread
      exact (Option.some.inj hr).symm
    · intro hstaged
      obtain ⟨rfl, rfl⟩ := Prod.mk.inj (hstaged _ rfl)
      exact checkRecord_ok _ _ hshort

end Other

/-- Blob 1 is sealed with one record. -/
def sealedOne : Dir
  | .blob 1 => some ([80, 68, 66, 86, 76, 79, 71, 49] ++ (recordHeader crc32cAppend [7] ++ [7]))
  | _ => none

def ptrOne : VlogPtr := ⟨1, 8, 1, crc32cAppend 0 [7]⟩

theorem ptrOne_intact : Intact crc32cAppend sealedOne (ownFile sealedOne false 1) ptrOne [7] :=
  ⟨rfl, rfl, by decide, _, [], rfl, rfl⟩

/-- Blob 2 is open, with nothing in it. -/
theorem read_ptr_other_file_sealed : ValueLog.readPtrOn crc32cAppend sealedOne false
    ⟨.blob 2, 8, 8, [], []⟩ ptrOne = .ok [7] :=
  (read_ptr_other_file (by decide) ptrOne_intact).mpr (by simp [ValueLog.stagedAt])

/-- With a record staged in blob 2, the one of blob 1 is called corrupt. -/
theorem staged_answers_for_sealed : Intact crc32cAppend sealedOne (ownFile sealedOne false 1) ptrOne [7] ∧
      ValueLog.readPtrOn crc32cAppend sealedOne false ⟨.blob 2, 17, 8,
        recordHeader crc32cAppend [9] ++ [9], []⟩ ptrOne =
        .error (.corruptValue "crc mismatch in vlog pending at 8") :=
  ⟨ptrOne_intact, by decide +kernel⟩

end PedraDb.Vlog
