import PedraDb.Library.Reader
import PedraDb.Merge.Internal
import PedraDb.Sst.Bloom
import PedraDb.Wal.Record

/-! Sorted table files.

A file has a header, the entries in blocks, an index of the blocks, a filter of the keys and
a checksum. Older versions have their entries without blocks, or blocks without filter,
checksum or compression; the writer of bulk runs writes the sixth version, whose file
checksum leaves the blocks to their own. A block may end in a hash of its keys, which a
reader recognises by a magic number and two bytes of length behind it.

Opening a file decodes every block once and wants the entries in order and as many as the
header says. A block is decoded again when its entries are read. -/
namespace PedraDb.Sst
open Reading (Reader slice)
open Wal (Bytes leBytes ofLe)

inductive SstError where
  | truncated
  | keyTooShort (len : Nat)
  | unknownKind (byte : UInt8)
  | truncatedKeyEmpty
  | truncatedKeyTooShort
  | sharedPastRestart
  | badMagic
  | unsupportedVersion (version : Nat)
  | tooManyEntries (n : Nat)
  | entryCountImpossible (n : Nat)
  | blockCountImpossible (n : Nat)
  | dataOverflow
  | dataPastFile
  | trailingBytes
  | trailingIndexBytes
  | bloom (e : BloomError)
  | blockLengthOverflow
  | blockPastEof
  | blockCrcTruncated
  | blockCrcMismatch
  | lz4
  | notSorted
  | countMismatch (header decoded : Nat)
  | v6CrcRange
  | crcMismatch (stored computed : Nat)
  | payloadLengthDrift (len expected : Nat)
  | noEntriesAndNoIndex
  | emptyBulk
  | emptyRun
  deriving DecidableEq

def sstMagic : Bytes := [0x50, 0x45, 0x44, 0x52, 0x53, 0x53, 0x54, 0]

def sstVersionV6 : Nat := 6
def maxSstEntries : Nat := 64 * 1024 * 1024
def bulkSstHeaderLen : Nat := 40
def sstLegacyNoCrcMax : Nat := 32
def blockRestart : Nat := 16
def entryTruncFlag : Nat := 2 ^ 31
def blockHashMagic : Nat := 0x0236B0C4

/-- What opening a file takes from outside: the checksum of bytes, that of two pieces from
theirs, and the decompression of a block. -/
structure Codecs where
  crc32c : Bytes → UInt32
  crc32cCombine : UInt32 → UInt32 → Nat → UInt32
  lz4 : Bytes → Option Bytes

/-- The checksum of two pieces: that of the first carried over as many zeros as the second
is long, and that of the second. -/
def crc32cCombine (first second : UInt32) (len : Nat) : UInt32 :=
  (List.replicate len 0).foldl Wal.crcByte first ^^^ second

/-- The checksums of the store. -/
def castagnoli (lz4 : Bytes → Option Bytes) : Codecs := ⟨Wal.crc32cAppend 0, crc32cCombine, lz4⟩

/-! ### Entries -/

def readU32 : Reader SstError Nat := do return ofLe (← slice .truncated 4)

def readU64 : Reader SstError Nat := do return ofLe (← slice .truncated 8)

def packSequenceAndType (sequence : Nat) (kind : ValueType) : Nat :=
  (sequence <<< 8 ||| (Wal.ValueType.asU8 kind).toNat) % 2 ^ 64

def unpackSequenceAndType (packed : Nat) : Except SstError (Nat × ValueType) :=
  match Wal.ValueType.fromU8 (UInt8.ofNat (packed % 256)) with
  | none => .error (.unknownKind (UInt8.ofNat (packed % 256)))
  | some kind => .ok (packed >>> 8, kind)

def decodeInternalKey (encoded : Bytes) : Except SstError (Key × Nat × ValueType) :=
  if encoded.length < 8 then .error (.keyTooShort encoded.length)
  else (unpackSequenceAndType (ofLe (encoded.drop (encoded.length - 8)).reverse)).map
    (encoded.take (encoded.length - 8), ·)

/-- The bytes of an internal key. With the flag set in its length it has the front of its
user key in common with the entry at the last restart. -/
def readInternalKey (restart : Option Key) (rawLen : Nat) : Reader SstError Bytes := do
  if entryTruncFlag ≤ rawLen then
    let payload := rawLen - entryTruncFlag
    let body ← slice .truncated payload
    match body with
    | [] => throw .truncatedKeyEmpty
    | shared :: _ =>
      if payload < 9 then throw .truncatedKeyTooShort
      if (restart.getD []).length < shared.toNat then throw .sharedPastRestart
      return (restart.getD []).take shared.toNat ++ (body.take (payload - 8)).drop 1 ++
        body.drop (payload - 8)
  else slice .truncated rawLen

def readEntryMaybeTrunc (restart : Option Key) : Reader SstError WriteOp := do
  let encoded ← readInternalKey restart (← readU32)
  let (key, sequence, kind) ← decodeInternalKey encoded
  let value ← slice .truncated (← readU32)
  return ⟨kind, sequence, key, value⟩

/-! ### Blocks -/

/-- Where a block lies, and its first key. -/
structure BlockHandle where
  offset : Nat
  length : Nat
  firstUserKey : Key
  deriving DecidableEq

/-- A block without the hash of its keys, if it ends in what looks like one. -/
def splitBlockHash (plain : Bytes) : Bytes :=
  let nBuckets := ofLe (plain.drop (plain.length - 2))
  let start := plain.length - (4 + nBuckets + 2)
  if plain.length < 14 then plain
  else if nBuckets < 8 ∨ 4096 < nBuckets then plain
  else if plain.length < 4 + nBuckets + 2 then plain
  else if ofLe ((plain.drop start).take 4) ≠ blockHashMagic then plain
  else plain.take start

def splitBlockCrc (codecs : Codecs) (raw : Bytes) : Except SstError Bytes :=
  let body := raw.take (raw.length - 4)
  if raw.length < 4 then .error .blockCrcTruncated
  else if ofLe (raw.drop (raw.length - 4)) ≠ (codecs.crc32c body).toNat then .error .blockCrcMismatch
  else .ok body

/-- The entries of a block to its end. An entry takes at least one byte, so the length of the
block is fuel enough. -/
def readEntries : Nat → Option Key → Nat → Bytes → Except SstError (List WriteOp)
  | _, _, _, [] => .ok []
  | 0, _, _, _ :: _ => .error .truncated
  | fuel + 1, restart, i, bytes => do
    let (v, rest) ← readEntryMaybeTrunc restart bytes
    let vs ← readEntries fuel (if i % blockRestart = 0 then some v.key else restart) (i + 1) rest
    return v :: vs

def decodeBlockBytes (codecs : Codecs) (compressedBlocks blockCrc : Bool) (raw : Bytes) :
    Except SstError (List WriteOp) := do
  let raw ← if blockCrc then splitBlockCrc codecs raw else pure raw
  let plain ← if compressedBlocks
    then (match codecs.lz4 raw with | some out => pure out | none => throw .lz4) else pure raw
  let entriesPlain := splitBlockHash plain
  readEntries entriesPlain.length none 0 entriesPlain

def decodeBlockFromPayload (codecs : Codecs) (buf : Bytes) (compressedBlocks blockCrc : Bool)
    (h : BlockHandle) :
    Except SstError (List WriteOp) :=
  if 2 ^ 64 ≤ h.offset + h.length then .error .blockLengthOverflow
  else if buf.length < h.offset + h.length then .error .blockPastEof
  else decodeBlockBytes codecs compressedBlocks blockCrc ((buf.drop h.offset).take h.length)

/-! ### Files -/

/-- A file's table. A payload or entries that are not held are read from the file. -/
structure SstTable where
  payload : Bytes
  payloadLen : Nat
  compressedBlocks : Bool
  blockCrc : Bool
  entries : Option (List WriteOp)
  rangeTombstones : List WriteOp
  numEntries : Nat
  tombstoneCount : Nat
  maxSequence : Nat
  index : List BlockHandle
  bloom : BloomFilter
  smallestUserKey : Option Key
  largestUserKey : Option Key
  deriving DecidableEq

inductive SstCrcFate where
  | stripTrailer
  | wholeBuffer
  | reject
  deriving DecidableEq

def sstCrcFate (stored computed : Nat) (bufLen : Nat) : SstCrcFate :=
  if stored = computed then .stripTrailer else if bufLen < sstLegacyNoCrcMax then .wholeBuffer
    else .reject

/-- The checksum of the sixth version: of the header and of what follows the blocks. -/
def v6FileCrc (codecs : Codecs) (head : Bytes) : Option UInt32 :=
  let tailOff := bulkSstHeaderLen + ofLe ((head.drop 32).take 8)
  if head.length < bulkSstHeaderLen then none
  else if ofLe ((head.drop 8).take 4) ≠ sstVersionV6 then none
  else if head.length < tailOff then none
  else
    some (codecs.crc32cCombine (codecs.crc32c (head.take bulkSstHeaderLen))
      (codecs.crc32c (head.drop tailOff))
      (head.drop tailOff).length)

def crcStrippedBody (codecs : Codecs) (buf : Bytes) : Except SstError Bytes :=
  if 12 ≤ buf.length ∧ sstMagic.isPrefixOf buf = true then do
    let head := buf.take (buf.length - 4)
    let stored := ofLe (buf.drop (buf.length - 4))
    let computed ←
      if 12 ≤ head.length ∧ ofLe ((head.drop 8).take 4) = sstVersionV6 then
        match v6FileCrc codecs head with
        | some crc => pure crc
        | none => throw .v6CrcRange
      else pure (codecs.crc32c head)
    match sstCrcFate stored computed.toNat buf.length with
    | .stripTrailer => return head
    | .wholeBuffer => return buf
    | .reject => throw (.crcMismatch stored computed.toNat)
  else .ok buf

def checkSstEntryCount (n fileLen : Nat) (compressedBlocks : Bool) : Except SstError Unit :=
  if maxSstEntries < n then .error (.tooManyEntries n)
  else if !compressedBlocks && decide (fileLen / 8 + 1 < n) then .error (.entryCountImpossible n)
  else .ok ()

def checkSstBlockCount (numBlocks fileLen : Nat) : Except SstError Unit :=
  if fileLen / 16 + 1 < numBlocks ∨ maxSstEntries < numBlocks
    then .error (.blockCountImpossible numBlocks) else .ok ()

def readBlockHandle : Reader SstError BlockHandle := do
  let offset ← readU64
  let length ← readU32
  let firstUserKey ← slice .truncated (← readU32)
  return ⟨offset, length, firstUserKey⟩

def readIndex : Nat → Reader SstError (List BlockHandle)
  | 0 => return []
  | n + 1 => do return (← readBlockHandle) :: (← readIndex n)

/-- What the pass over the entries keeps. -/
structure OpenScan where
  rangeTombstones : List WriteOp := []
  tombstoneCount : Nat := 0
  smallestUserKey : Option Key := none
  largestUserKey : Option Key := none
  decodedN : Nat := 0
  last : Option WriteOp := none
  deriving DecidableEq

def OpenScan.entry (s : OpenScan) (v : WriteOp) : Except SstError OpenScan :=
  if s.last.any fun prev => decide (InternalBefore v prev) then .error .notSorted
  else
    .ok
      { last := some v
        decodedN := s.decodedN + 1
        smallestUserKey := s.smallestUserKey <|> some v.key
        largestUserKey := if v.kind = .rangeDeletion ∧ v.key < v.value then some v.value else some v.key
        tombstoneCount := if v.kind = .value then s.tombstoneCount else s.tombstoneCount + 1
        rangeTombstones := if v.kind = .rangeDeletion then s.rangeTombstones ++ [v]
        else s.rangeTombstones }

def skipRepeatedKeys : Option Key → List Key → List Key
  | _, [] => []
  | last, key :: keys =>
    if last = some key then skipRepeatedKeys last keys else key :: skipRepeatedKeys (some key) keys

def rebuildBloom (entries : List WriteOp) : BloomFilter :=
  if entries = [] then .mono .alwaysTrue
  else
    match fillParts entries.length (skipRepeatedKeys none (entries.map WriteOp.key)) with
    | [] => .mono .alwaysTrue
    | [p] => .mono p
    | parts => .encoded (parts.map BloomPart.encode)

def decodeBlocks (codecs : Codecs) (buf : Bytes) (compressedBlocks blockCrc : Bool)
    (index : List BlockHandle) :
    Except SstError (List WriteOp) := do
  let blocks ← index.mapM (decodeBlockFromPayload codecs buf compressedBlocks blockCrc)
  return blocks.flatten

/-- The versions with blocks. -/
def decodeV2OrV3 (codecs : Codecs) (buf : Bytes) (expectBloom compressedBlocks blockCrc : Bool) :
    Except SstError SstTable := do
  let (n, c) ← readU64 (buf.drop 12)
  checkSstEntryCount n buf.length compressedBlocks
  let (maxSequence, c) ← readU64 c
  let (numBlocks, c) ← readU32 c
  checkSstBlockCount numBlocks buf.length
  let (dataLen, _) ← readU64 c
  let dataEnd := 40 + dataLen
  if 2 ^ 64 ≤ dataEnd then throw .dataOverflow
  if buf.length < dataEnd then throw .dataPastFile
  let (index, rest) ← readIndex numBlocks (buf.drop dataEnd)
  let bloom ←
    if expectBloom then
      match BloomFilter.decode rest with
      | .ok bloom => pure bloom
      | .error e => throw (.bloom e)
    else if rest ≠ [] then throw .trailingIndexBytes
    else pure (.mono .alwaysTrue)
  let scan ← index.foldlM (fun s h => do
    let block ← decodeBlockFromPayload codecs buf compressedBlocks blockCrc h
    block.foldlM OpenScan.entry s) {}
  if scan.decodedN ≠ n then throw (.countMismatch n scan.decodedN)
  -- a filter that is missing is built from the keys
  let bloom ← if bloom.isActive then pure bloom
    else rebuildBloom <$> decodeBlocks codecs buf compressedBlocks blockCrc index
  pure
    { payload := buf
      payloadLen := buf.length
      compressedBlocks := compressedBlocks
      blockCrc := blockCrc
      entries := none
      rangeTombstones := scan.rangeTombstones
      numEntries := n
      tombstoneCount := scan.tombstoneCount
      maxSequence := maxSequence
      index := index
      bloom := bloom
      smallestUserKey := scan.smallestUserKey
      largestUserKey := scan.largestUserKey }

def readV1Entries : Nat → Reader SstError (List WriteOp)
  | 0 => return []
  | n + 1 => do return (← readEntryMaybeTrunc none) :: (← readV1Entries n)

/-- The largest key, a range deletion reaching to its end. -/
def largestBound (entries : List WriteOp) (last : Key) : Key :=
  entries.foldl (fun hi v => if v.kind = .rangeDeletion ∧ hi < v.value then v.value else hi) last

def decodeV1 (buf : Bytes) : Except SstError SstTable := do
  let (n, c) ← readU64 (buf.drop 12)
  checkSstEntryCount n buf.length false
  let (entries, c) ← readV1Entries n c
  let (fileMax, c) ← readU64 c
  if c ≠ [] then throw .trailingBytes
  if (entries.zip entries.tail).any fun w => decide (InternalBefore w.2 w.1) then throw .notSorted
  pure
    { payload := []
      payloadLen := 0
      compressedBlocks := false
      blockCrc := false
      entries := some entries
      rangeTombstones := entries.filter fun v => v.kind == .rangeDeletion
      numEntries := entries.length
      tombstoneCount := (entries.filter fun v => v.kind != .value).length
      maxSequence := entries.foldl (fun m v => max m v.sequence) fileMax
      index := []
      bloom := .mono .alwaysTrue
      smallestUserKey := entries.head?.map WriteOp.key
      largestUserKey := entries.getLast?.map fun v => largestBound entries v.key }

/-- Open the file with these bytes. -/
def SstTable.openOn (codecs : Codecs) (file : Bytes) : Except SstError SstTable := do
  let payload ← crcStrippedBody codecs file
  let (magic, c) ← slice SstError.truncated 8 payload
  if magic ≠ sstMagic then throw .badMagic
  let (version, _) ← readU32 c
  match version with
  | 1 => decodeV1 payload
  | 2 => decodeV2OrV3 codecs payload false false false
  | 3 => decodeV2OrV3 codecs payload true false false
  | 4 => decodeV2OrV3 codecs payload true true false
  | 5 => decodeV2OrV3 codecs payload true true true
  | 6 => decodeV2OrV3 codecs payload true false true
  | other => throw (.unsupportedVersion other)

/-- The body of a table's file, from memory or from the file. -/
def SstTable.body (codecs : Codecs) (t : SstTable) (file : Bytes) : Except SstError Bytes :=
  if t.payload ≠ [] then .ok t.payload
  else do
    let body ← crcStrippedBody codecs file
    if t.payloadLen ≠ 0 ∧ body.length ≠ t.payloadLen
      then throw (.payloadLengthDrift body.length t.payloadLen)
    return body

def SstTable.materializeEntries (codecs : Codecs) (t : SstTable) (file : Bytes) :
    Except SstError (List WriteOp) :=
  match t.entries with
  | some entries => .ok entries
  | none =>
    if t.index = [] then if t.numEntries = 0 then .ok [] else .error .noEntriesAndNoIndex
    else do
      let out ← decodeBlocks codecs (← t.body codecs file) t.compressedBlocks t.blockCrc t.index
      if out.length ≠ t.numEntries then throw (.countMismatch t.numEntries out.length)
      return out

end PedraDb.Sst
