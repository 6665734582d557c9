import PedraDb.Wal.Format

/-! The log reader.

It goes through the blocks, checks each physical record and puts the fragments together
again. A length that overruns the block or an unknown type makes it walk on byte by byte
until a record reads again; a bad checksum, a fragment without its beginning and a zero
header in front of live bytes stop it, except inside such a walk. -/
namespace PedraDb.Wal

inductive WalError where
  | crc (offset expected found : Nat)
  | truncated (offset : Nat)
  | zeroHeader (offset : Nat)
  | lengthExceedsMax (length offset : Nat)
  | lengthExceedsBlock (length offset : Nat)
  | unknownType (byte : UInt8) (offset : Nat)
  | orphan (t : RecordType) (offset : Nat)
  | corruptSeal (offset : Nat)
  deriving DecidableEq

/-! ### Choices -/

inductive PhysicalAct where
  | continue
  | failStop
  | truncated
  deriving DecidableEq

def physicalPayloadAct (length maxPayload payloadEnd blockEnd blockSize : Nat) : PhysicalAct :=
  if maxPayload < length then .failStop
  else if blockEnd < payloadEnd then (if blockEnd = blockSize then .failStop else .truncated)
  else .continue

inductive FragAct where
  | yield
  | start
  | accumulate
  | failStop
  | skip
  deriving DecidableEq

def fragmentAct (t : RecordType) (scratchEmpty : Bool) : FragAct :=
  match t with
  | .full => .yield
  | .first => .start
  | .middle => if scratchEmpty then .failStop else .accumulate
  | .last => if scratchEmpty then .failStop else .yield
  | .zero => .skip

inductive RecoverKind where
  | record
  | cleanEof
  | truncated
  | lengthCorrupt
  | unknownType
  | orphanFragment
  | crc
  | zeroHeaderTail
  | other
  deriving DecidableEq

def WalError.recoverKind : WalError → RecoverKind
  | .crc .. => .crc
  | .truncated _ => .truncated
  | .zeroHeader _ => .zeroHeaderTail
  | .lengthExceedsMax .. | .lengthExceedsBlock .. => .lengthCorrupt
  | .unknownType .. => .unknownType
  | .orphan .. => .orphanFragment
  | .corruptSeal _ => .other

def recoverKindFromRead : Except WalError (Option Bytes) → RecoverKind
  | .ok (some _) => .record
  | .ok none => .cleanEof
  | .error e => e.recoverKind

def isLengthResyncable (kind : RecoverKind) : Bool :=
  kind == .truncated || kind == .lengthCorrupt || kind == .unknownType

def maxConsecutiveSkips : Nat := 4 * 1024 * 1024

inductive RecoverAct where
  | keepRecord
  | stop
  | resync
  | keepPrefix
  | failStop
  deriving DecidableEq

/-- A resync at the end of the stream keeps what was read, unless that is nothing. -/
def resyncExhausted (prefixN : Nat) : RecoverAct := if prefixN = 0 then .failStop else .keepPrefix

def recoverCollectAct (kind : RecoverKind) (prefixN : Nat) (canSkip : Bool) (consecutiveSkips : Nat)
    (inResync : Bool) : RecoverAct :=
  match kind with
  | .record => .keepRecord
  | .cleanEof => .stop
  | .truncated | .lengthCorrupt | .unknownType =>
    if !canSkip then resyncExhausted prefixN
    else if maxConsecutiveSkips < consecutiveSkips then .failStop
    else .resync
  | .crc | .zeroHeaderTail =>
    if inResync then (if canSkip then .resync else resyncExhausted prefixN) else .failStop
  | .orphanFragment | .other => .failStop

/-! ### One physical record -/

structure Reader where
  /-- What has not been read from the source. -/
  src : Bytes
  /-- The valid bytes of the current block. -/
  block : Bytes
  cursor : Nat
  /-- The fragments of a record so far. -/
  scratch : Bytes
  blockStart : Nat
  lastGoodOffset : Nat
  pendingResync : Option Nat
  resyncOrigin : Option Nat
  deriving DecidableEq

/-- What one turn of the reading loop comes to. -/
inductive Turn where
  | yield (data : Bytes)
  | eof
  | fail (e : WalError)
  | next
  deriving DecidableEq

namespace Reader

def new (src : Bytes) : Reader := ⟨src, [], 0, [], 0, 0, none, none⟩

def streamOffset (r : Reader) : Nat := r.blockStart + r.cursor

def readNextBlock (r : Reader) : Bool × Reader :=
  (!(r.src.take blockSize).isEmpty,
    { r with
      blockStart := r.blockStart + r.block.length
      cursor := 0
      block := r.src.take blockSize
      src := r.src.drop blockSize })

def lacksHeader (r : Reader) : Bool := decide (r.block.length < r.cursor + headerSize)

/-- Have a whole header at the cursor, from the next block if need be. -/
def fill (r : Reader) : Bool × Reader :=
  if r.lacksHeader then
    let (some', r') := r.readNextBlock
    (some' && !r'.lacksHeader, r')
  else (true, r)

/-- The seal frame at the end of a segment. -/
def sealTurn (crc : Crc) (r : Reader) : Option Turn :=
  let window := (r.block.drop r.cursor).take sealFrameLen
  if window.length = sealFrameLen ∧ window.take 4 = leBytes 4 sealMagic then
    match parseFrameOrSeal crc window with
    | .validSeal _ => some .eof
    | .corruptFrame => some (.fail (.corruptSeal r.streamOffset))
    | .trailingZeroes => none
  else none

/-- Take in a fragment whose checksum was right. -/
def assemble (r : Reader) (t : RecordType) (payload : Bytes) : Turn × Reader :=
  match fragmentAct t r.scratch.isEmpty with
  | .yield =>
    if t = .full then (.yield payload, { r with scratch := [] })
    else (.yield (r.scratch ++ payload), { r with scratch := [] })
  | .start => (.next, { r with scratch := payload })
  | .accumulate => (.next, { r with scratch := r.scratch ++ payload })
  | .failStop => (.fail (.orphan t r.streamOffset), r)
  | .skip => (.next, r)

/-- Read the physical record at the cursor. -/
def physical (crc : Crc) (r : Reader) : Turn × Reader :=
  let rest := r.block.drop r.cursor
  let byte := rest.getD 6 0
  let length := ofLe ((rest.drop 4).take 2)
  if byte = 0 ∧ length = 0 then
    -- padding, but only if nothing follows in the block
    if (rest.drop headerSize).any (· != 0) then (.fail (.zeroHeader r.streamOffset), r)
    else (.next, { r with cursor := r.block.length })
  else match RecordType.fromByte byte with
    | none => (.fail (.unknownType byte r.streamOffset), r)
    | some t =>
      let payloadEnd := r.cursor + headerSize + length
      match physicalPayloadAct length (blockSize - headerSize) payloadEnd r.block.length blockSize with
      | .failStop =>
        if blockSize - headerSize < length then (.fail (.lengthExceedsMax length r.streamOffset), r)
        else (.fail (.lengthExceedsBlock length r.streamOffset), r)
      | .truncated => (.fail (.truncated r.streamOffset), r)
      | .continue =>
        let payload := (rest.drop headerSize).take length
        let stored := ofLe (rest.take 4)
        let found := (recordChecksum crc byte length payload).toNat
        if stored ≠ found then (.fail (.crc r.streamOffset stored found), r)
        else { r with cursor := payloadEnd }.assemble t payload

def turn (crc : Crc) (r : Reader) : Turn × Reader :=
  match r.fill with
  | (false, r) => (.eof, r)
  | (true, r) =>
    match r.sealTurn crc with
    | some t => (t, r)
    | none => r.physical crc

/-! ### Records and logs -/

/-- What is left to read. Every turn that does not end the loop reads some of it. -/
def left (r : Reader) : Nat := r.src.length + (r.block.length - r.cursor)

def readLoop (crc : Crc) : Nat → Reader → Except WalError (Option Bytes) × Reader
  | 0, r => (.ok none, r)
  | n + 1, r =>
    match r.turn crc with
    | (.yield data, r) => (.ok (some data), r)
    | (.eof, r) => (.ok none, r)
    | (.fail e, r) => (.error e, r)
    | (.next, r) => readLoop crc n r

/-- The next logical record, or none at the end of the log. -/
def readRecord (crc : Crc) (r : Reader) : Except WalError (Option Bytes) × Reader :=
  readLoop crc (r.left + 1) r

def skipByteForResync (r : Reader) : Bool × Reader :=
  let r := { r with scratch := [] }
  if r.cursor < r.block.length then (true, { r with cursor := r.cursor + 1 }) else r.readNextBlock

def keepRecord (r : Reader) (inResync : Bool) : Reader :=
  let r :=
    match inResync, r.pendingResync with
    | true, some p => { r with pendingResync := none, resyncOrigin := r.resyncOrigin.or (some p) }
    | _, _ => r
  { r with lastGoodOffset := r.streamOffset }

def beginResync (r : Reader) (inResync : Bool) : Reader :=
  if !inResync && r.pendingResync.isNone then { r with pendingResync := some r.streamOffset } else r

/-- Collect records, with the count of bytes skipped in a row and whether a walk is on. -/
def collectLoop (crc : Crc) : Nat → Reader → List Bytes → Nat → Bool →
    (List Bytes × Option WalError) × Reader
  | 0, r, out, _, _ => ((out, none), r)
  | n + 1, r, out, consecutiveSkips, inResync =>
    let (outcome, r) := r.readRecord crc
    let kind := recoverKindFromRead outcome
    let walks := isLengthResyncable kind || (inResync && (kind == .crc || kind == .zeroHeaderTail))
    let (canSkip, r) := if walks then r.skipByteForResync else (false, r)
    let skips := if canSkip then consecutiveSkips + 1 else consecutiveSkips
    match recoverCollectAct kind out.length canSkip skips inResync, outcome with
    | .keepRecord, .ok (some data) => collectLoop crc n (r.keepRecord inResync) (out ++ [data]) 0 false
    | .resync, _ => collectLoop crc n (r.beginResync inResync) out skips true
    | .failStop, .error e => ((out, some e), r)
    | _, _ => ((out, none), { r with pendingResync := none })

/-- The records read and the error that stopped the reading, if one did. A turn reads a
byte or a block. -/
def collectPrefixAll (crc : Crc) (r : Reader) : (List Bytes × Option WalError) × Reader :=
  collectLoop crc (2 * (r.src.length + r.block.length) + 2) r [] 0 false

def collectAll (crc : Crc) (r : Reader) : Except WalError (List Bytes) × Reader :=
  match r.collectPrefixAll crc with
  | ((_, some e), r) => (.error e, r)
  | ((out, none), r) => (.ok out, r)

end Reader

def recover (crc : Crc) (file : Bytes) : Except WalError (List Bytes) :=
  ((Reader.new file).collectAll crc).1

end PedraDb.Wal
