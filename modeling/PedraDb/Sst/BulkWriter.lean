import PedraDb.Library.Cursor
import PedraDb.Sst.Format

/-! Bulk runs written as files.

A run is written from its keys, values and sequences, in the order of the keys, and its
entries are cut into blocks by size. The blocks are followed from both sides: what the
writer has laid down in the end (`stage_layout`), and what a reader finds there
(`decode_layout`). So a run comes back from its file as it was
(`bulk_run_keeps_versions`), if a file can hold it (`Writable`).

Not every run is of that kind. The writer takes no kinds, and a deletion that was moved
into the run from the memtable is a value in the file. It leaves entries of one key in the
order they came, the oldest first, and the file cannot be opened. It writes no hash of keys
behind a block, yet a reader takes away what looks like one (`bulk_run_changed`). -/
namespace PedraDb.Sst
open List SstTable
open Reading (Reader slice Reads reads_slice Local local_slice)
open Wal (Bytes leBytes ofLe leBytes_length ofLe_leBytes)
variable {block : List BulkEntry} {env : Option Nat} {sequence maxSequence n : Nat} {run : BulkRun}
variable {index : List BlockHandle} {f : BloomFilter}

/-! ### The writer -/

/-- What the writer is given of an entry: an array each for keys, values and sequences. -/
structure BulkEntry where
  key : Key
  value : Value
  sequence : Nat
  deriving DecidableEq

open BulkEntry

def bulkBlockTarget : Nat := 16384

/-- The size at which a block is cut: the environment's if it names one, within bounds. -/
def blockTarget (env : Option Nat) : Nat := min (max (env.getD bulkBlockTarget) 4096) 65536

/-- An entry's bytes. Its lengths are cut to 32 bits, and it is written as a value. -/
def appendBulkEntry (v : BulkEntry) : Bytes :=
  leBytes 4 (v.key.length + 8) ++
    ((v.key ++ (leBytes 8 (packSequenceAndType v.sequence .value)).reverse) ++
    (leBytes 4 v.value.length ++ v.value))

/-- The writer on its way: the blocks it has finished with their handles, the block it is
filling and the position in the file. -/
structure BulkEncoding where
  data : Bytes := []
  index : List BlockHandle := []
  pos : Nat := bulkSstHeaderLen
  block : Bytes := []
  blockFirstUser : Option Key := none
  deriving DecidableEq

open BulkEncoding

section
variable (codecs : Codecs)

def BulkEncoding.finishStagedBlock (e : BulkEncoding) : BulkEncoding :=
  let stored := (e.block.length + 4) % 2 ^ 32
  { data := e.data ++ e.block ++ leBytes 4 (codecs.crc32c e.block).toNat
    index := e.index ++ [⟨e.pos, stored, e.blockFirstUser.getD []⟩]
    pos := e.pos + stored
    block := []
    blockFirstUser := none }

def BulkEncoding.stage (target : Nat) (e : BulkEncoding) (v : BulkEntry) : BulkEncoding :=
  let need := v.key.length + v.value.length + 16
  let e := if e.block ≠ [] ∧ target < e.block.length + need then e.finishStagedBlock codecs else e
  let e := if e.block = [] then { e with blockFirstUser := some v.key } else e
  { e with block := e.block ++ appendBulkEntry v }

def BulkEncoding.finish (e : BulkEncoding) : BulkEncoding :=
  if e.block ≠ [] then e.finishStagedBlock codecs else e

def bulkHeader (n maxSequence numBlocks dataLen : Nat) : Bytes :=
  sstMagic ++ (leBytes 4 sstVersionV6 ++
    (leBytes 8 n ++ (leBytes 8 maxSequence ++ (leBytes 4 numBlocks ++ leBytes 8 dataLen))))

def encodeBlockHandle (h : BlockHandle) : Bytes :=
  leBytes 8 h.offset ++ (leBytes 4 h.length ++ (leBytes 4 h.firstUserKey.length ++ h.firstUserKey))

/-- The file of arrays that are sorted by key, and the handle to it, which holds none of the
file's bytes. -/
def writeSstBulkArraysBody (env : Option Nat) (entries : List BulkEntry) :
    Except SstError (SstTable × Bytes) :=
  if entries = [] then .error .emptyBulk
  else
    let e := (entries.foldl (stage codecs (blockTarget env)) {}).finish codecs
    let maxSequence := entries.foldl (fun m v => max m v.sequence) 0
    let bloom := bulkFilter (entries.map key)
    let header := bulkHeader entries.length maxSequence e.index.length (e.pos - bulkSstHeaderLen)
    let tail := e.index.flatMap encodeBlockHandle ++ bloom.encode
    let fileCrc := codecs.crc32cCombine (codecs.crc32c header) (codecs.crc32c tail) tail.length
    .ok
      ({ payload := []
         payloadLen := e.pos + tail.length
         compressedBlocks := false
         blockCrc := true
         entries := none
         rangeTombstones := []
         numEntries := entries.length
         tombstoneCount := 0
         maxSequence := maxSequence
         index := e.index
         bloom := bloom
         smallestUserKey := entries.head?.map key
         largestUserKey := entries.getLast?.map key },
        header ++ e.data ++ tail ++ leBytes 4 fileCrc.toNat)

/-- Order by key; entries of one key stay in the order they have. -/
def sortByKey (entries : List BulkEntry) : List BulkEntry :=
  if (entries.zip entries.tail).any fun w => decide (w.2.key < w.1.key) then
    entries.insertionSort fun a b => a.key ≤ b.key
  else entries

def writeSstBulkArrays (env : Option Nat) (entries : List BulkEntry) :
    Except SstError (SstTable × Bytes) :=
  writeSstBulkArraysBody codecs env (sortByKey entries)

/-- The arrays of a run. Its kinds are not among them. -/
def arrays (run : BulkRun) : List BulkEntry := run.entries.map fun v => ⟨v.key, v.value, v.sequence⟩

def writeBulkRunSst (env : Option Nat) (run : BulkRun) : Except SstError (SstTable × Bytes) :=
  if run.entries = [] then .error .emptyRun else writeSstBulkArrays codecs env (arrays run)

end

/-! ### Reading entries back -/

/-- The version an entry of the arrays is read back as. -/
def BulkEntry.put (v : BulkEntry) : WriteOp := .put v.sequence v.key v.value

/-- The entry's sizes fit their fields. -/
structure BulkEntry.Fits (v : BulkEntry) : Prop where
  key : v.key.length + 8 < entryTruncFlag
  block : v.key.length + v.value.length + 20 < 2 ^ 32
  sequence : v.sequence ≤ maxSequenceNumber

theorem reads_u32 (h : n < 2 ^ 32) : Reads readU32 (leBytes 4 n) n := by
  have hread := (reads_slice (e := SstError.truncated) (leBytes_length 4 n).symm).map ofLe
  rwa [ofLe_leBytes h] at hread

theorem reads_u64 (h : n < 2 ^ 64) : Reads readU64 (leBytes 8 n) n := by
  have hread := (reads_slice (e := SstError.truncated) (leBytes_length 8 n).symm).map ofLe
  rwa [ofLe_leBytes h] at hread

section
variable (h : sequence ≤ maxSequenceNumber)
include h

theorem pack_eq (kind : ValueType) :
    packSequenceAndType sequence kind = sequence * 256 + (Wal.ValueType.asU8 kind).toNat := by
  have hkind : (Wal.ValueType.asU8 kind).toNat < 2 ^ 8 := by cases kind <;> decide
  rw [maxSequenceNumber] at h
  rw [packSequenceAndType, ← Nat.shiftLeft_add_eq_or_of_lt hkind, Nat.shiftLeft_eq,
    Nat.mod_eq_of_lt (by omega)]

theorem unpack_pack (kind : ValueType) : unpackSequenceAndType
    (packSequenceAndType sequence kind) = .ok (sequence, kind) := by
  have hkind : (Wal.ValueType.asU8 kind).toNat < 256 := by cases kind <;> decide
  have hlow : (sequence * 256 + (Wal.ValueType.asU8 kind).toNat) % 256 =
    (Wal.ValueType.asU8 kind).toNat := by omega
  have hhigh : (sequence * 256 + (Wal.ValueType.asU8 kind).toNat) >>> 8 = sequence := by
    rw [Nat.shiftRight_eq_div_pow]
    omega
  rw [unpackSequenceAndType, pack_eq h, hlow, hhigh]
  cases kind <;> rfl

theorem decodeInternalKey_encoded (key : Key) (kind : ValueType) :
    decodeInternalKey (key ++ (leBytes 8 (packSequenceAndType sequence kind)).reverse) =
    .ok (key, sequence, kind) := by
  have hpacked : packSequenceAndType sequence kind < 256 ^ 8 := Nat.mod_lt _ (by decide)
  have hsplit : (key ++ (leBytes 8 (packSequenceAndType sequence kind)).reverse).length - 8 =
    key.length := by simp
  rw [decodeInternalKey, if_neg (by simp), hsplit, drop_left, take_left, reverse_reverse,
    ofLe_leBytes hpacked, unpack_pack h]
  rfl

end

theorem reads_entry (restart : Option Key) {v : BulkEntry} (h : v.Fits) :
    Reads (readEntryMaybeTrunc restart) (appendBulkEntry v) v.put := by
  have hkey := h.key
  have hblock := h.block
  simp only [entryTruncFlag] at hkey
  have hlen : Reads readU32 (leBytes 4 (v.key.length + 8)) (v.key.length + 8) := reads_u32 (by omega)
  have hikey : Reads (readInternalKey restart (v.key.length + 8))
      (v.key ++ (leBytes 8 (packSequenceAndType v.sequence .value)).reverse)
      (v.key ++ (leBytes 8 (packSequenceAndType v.sequence .value)).reverse) := by
    rw [readInternalKey, if_neg (by simp only [entryTruncFlag]; omega)]
    exact reads_slice (by simp)
  have hdecode :
    Reads (monadLift
      (decodeInternalKey (v.key ++ (leBytes 8 (packSequenceAndType v.sequence .value)).reverse)) :
      Reader SstError _) [] (v.key, v.sequence, .value) := by
    intro rest
    rw [decodeInternalKey_encoded h.sequence]
    rfl
  have hvalue : Reads (do
        let value ← slice SstError.truncated (← readU32)
        return (⟨.value, v.sequence, v.key, value⟩ : WriteOp))
      (leBytes 4 v.value.length ++ v.value) v.put :=
    (reads_u32 (by omega)).bind ((reads_slice rfl).map fun value =>
      (⟨.value, v.sequence, v.key, value⟩ : WriteOp))
  exact Reads.bind hlen (Reads.bind hikey (Reads.then hdecode hvalue))

/-! ### Blocks -/

/-- The bytes of a block, without its checksum. -/
def blockBytes (block : List BulkEntry) : Bytes := block.flatMap appendBulkEntry

/-- The blocks the entries are cut into behind those of the block that is being filled. -/
def cutBlocks (target : Nat) : List BulkEntry → List BulkEntry → List (List BulkEntry)
  | block, [] => if block = [] then [] else [block]
  | block, v :: rest =>
    if block ≠ [] ∧ target < (blockBytes block).length + (v.key.length + v.value.length + 16)
      then block :: cutBlocks target [v] rest
    else cutBlocks target (block ++ [v]) rest

/-- The blocks' bytes with their checksums, one after the other, and their handles. -/
def layout (codecs : Codecs) : Nat → List (List BulkEntry) → Bytes × List BlockHandle
  | _, [] => ([], [])
  | pos, block :: rest =>
    let stored := ((blockBytes block).length + 4) % 2 ^ 32
    let (data, index) := layout codecs (pos + stored) rest
    (blockBytes block ++ leBytes 4 (codecs.crc32c (blockBytes block)).toNat ++ data,
      ⟨pos, stored, (block.head?.map key).getD []⟩ :: index)

theorem appendBulkEntry_length (v : BulkEntry) :
    (appendBulkEntry v).length = v.key.length + v.value.length + 16 := by
  simp only [appendBulkEntry, length_append, leBytes_length, length_reverse]
  omega

theorem blockBytes_append (block : List BulkEntry) (v : BulkEntry) :
    blockBytes (block ++ [v]) = blockBytes block ++ appendBulkEntry v := by
  simp [blockBytes]

theorem blockBytes_eq_nil : blockBytes block = [] ↔ block = [] := by
  cases block with
  | nil => simp [blockBytes]
  | cons v block =>
    have hne : appendBulkEntry v ≠ [] := ne_nil_of_length_pos (by rw [appendBulkEntry_length]; omega)
    simp [blockBytes, hne]

theorem cutBlocks_flatten (target : Nat) (block entries : List BulkEntry) :
    (cutBlocks target block entries).flatten = block ++ entries := by
  induction entries generalizing block with
  | nil =>
    rw [cutBlocks]
    split
    · next h => simp [h]
    · simp
  | cons v entries ih =>
    rw [cutBlocks]
    split
    · rw [flatten_cons, ih]
      rfl
    · rw [ih, append_assoc]
      rfl

variable {entries b : List BulkEntry}

theorem cutBlocks_ne_nil {target : Nat} (hb : b ∈ cutBlocks target block entries) : b ≠ [] := by
  induction entries generalizing block with
  | nil =>
    rw [cutBlocks] at hb
    split at hb
    · cases hb
    · next h => rwa [mem_singleton.mp hb]
  | cons v entries ih =>
    rw [cutBlocks] at hb
    split at hb
    · next h =>
      rcases mem_cons.mp hb with rfl | hb
      · exact h.1
      · exact ih hb
    · exact ih hb

/-- A block of several entries keeps to the target. -/
theorem cutBlocks_size {target bound : Nat} (htarget : target ≤ bound)
    (hblock : (blockBytes block).length ≤ bound)
    (hentries : ∀ v ∈ entries, v.key.length + v.value.length + 16 ≤ bound)
    (hb : b ∈ cutBlocks target block entries) : (blockBytes b).length ≤ bound := by
  induction entries generalizing block with
  | nil =>
    rw [cutBlocks] at hb
    split at hb
    · cases hb
    · rwa [mem_singleton.mp hb]
  | cons v entries ih =>
    obtain ⟨hv, hentries⟩ := forall_mem_cons.mp hentries
    have hone : (blockBytes [v]).length ≤ bound := by simpa [blockBytes, appendBulkEntry_length] using hv
    rw [cutBlocks] at hb
    split at hb
    · rcases mem_cons.mp hb with rfl | hb
      · exact hblock
      · exact ih hone hentries hb
    next h =>
    refine ih ?_ hentries hb
    by_cases hne : block = []
    · subst hne
      exact hone
    · rw [blockBytes_append, length_append, appendBulkEntry_length]
      have hle := Nat.le_of_not_lt fun hlt => h ⟨hne, hlt⟩
      omega

variable (codecs : Codecs)

/-- **The writer's blocks**: what it has written in the end are the blocks the entries are
cut into, laid out from where it was. -/
theorem stage_layout (target : Nat) (entries block : List BulkEntry) {e : BulkEncoding}
    (hblock : e.block = blockBytes block) (hfirst : e.blockFirstUser = block.head?.map key) :
    let e' := (entries.foldl (stage codecs target) e).finish codecs
    let laid := layout codecs e.pos (cutBlocks target block entries)
    e'.data = e.data ++ laid.1 ∧ e'.index = e.index ++ laid.2 ∧
      e'.pos = e.pos + (laid.2.map BlockHandle.length).sum := by
  induction entries generalizing block e with
  | nil =>
    rw [foldl_nil, finish, cutBlocks]
    by_cases hne : block = []
    · subst hne
      rw [if_neg (by rw [hblock]; simp [blockBytes])]
      simp [layout]
    · rw [if_pos (by rwa [hblock, Ne, blockBytes_eq_nil]), if_neg hne]
      simp [layout, finishStagedBlock, hblock, hfirst]
  | cons v entries ih =>
    have hcond : e.block ≠ [] ∧ target < e.block.length + (v.key.length + v.value.length + 16) ↔
        block ≠ [] ∧ target < (blockBytes block).length + (v.key.length + v.value.length + 16) := by
      rw [hblock]
      exact and_congr_left' (not_congr blockBytes_eq_nil)
    rw [foldl_cons, cutBlocks]
    by_cases hcut : block ≠ [] ∧ target < (blockBytes block).length + (v.key.length + v.value.length + 16)
    · -- the block is finished and the entry starts the next one
      have hstage : e.stage codecs target v =
          { e.finishStagedBlock codecs with block := blockBytes [v], blockFirstUser := some v.key } := by
        rw [stage]
        simp only
        rw [if_pos (hcond.mpr hcut)]
        simp [finishStagedBlock, blockBytes]
      obtain ⟨hdata, hindex, hpos⟩ :=
        @ih [v] (e.stage codecs target v) (by rw [hstage]) (by rw [hstage]; rfl)
      rw [if_pos hcut]
      simp only [layout]
      refine ⟨hdata.trans ?_, hindex.trans ?_, hpos.trans ?_⟩
      · simp [hstage, finishStagedBlock, hblock]
      · simp [hstage, finishStagedBlock, hblock, hfirst]
      · simp [hstage, finishStagedBlock, hblock, Nat.add_assoc]
    · have hstage : e.stage codecs target v =
          { e with
            block := blockBytes (block ++ [v]), blockFirstUser := (block ++ [v]).head?.map key } := by
        rw [stage]
        rw [if_neg fun h => hcut (hcond.mp h)]
        by_cases hne : block = []
        · subst hne
          simp [hblock, blockBytes]
        · rw [if_neg (by rwa [hblock, blockBytes_eq_nil]), blockBytes_append, ← hblock]
          obtain ⟨w, block, rfl⟩ := exists_cons_of_ne_nil hne
          simp [hfirst]
      obtain ⟨hdata, hindex, hpos⟩ :=
        @ih (block ++ [v]) (e.stage codecs target v) (by rw [hstage]) (by rw [hstage])
      rw [if_neg hcut]
      refine ⟨hdata.trans ?_, hindex.trans ?_, hpos.trans ?_⟩ <;> simp [hstage]

/-- A block with entries and a length that fit their fields. -/
structure Sized (block : List BulkEntry) : Prop where
  fits : ∀ v ∈ block, v.Fits
  size : (blockBytes block).length + 4 < 2 ^ 32

/-- What a reader finds in a block. -/
def blockEntries (block : List BulkEntry) : Except SstError (List WriteOp) :=
  readEntries (splitBlockHash (blockBytes block)).length none 0 (splitBlockHash (blockBytes block))

theorem readEntries_blockBytes (hfits : ∀ v ∈ block, v.Fits) {fuel : Nat}
    (hfuel : (blockBytes block).length ≤ fuel) (restart : Option Key) (i : Nat) :
    readEntries fuel restart i (blockBytes block) = .ok (block.map put) := by
  induction block generalizing fuel restart i with
  | nil => cases fuel <;> rfl
  | cons v block ih =>
    obtain ⟨hv, hfits⟩ := forall_mem_cons.mp hfits
    have hcons : blockBytes (v :: block) = appendBulkEntry v ++ blockBytes block := rfl
    have hlength : (appendBulkEntry v ++ blockBytes block).length =
        v.key.length + v.value.length + 16 + (blockBytes block).length := by
      rw [length_append, appendBulkEntry_length]
    obtain ⟨fuel, rfl⟩ : ∃ f, fuel = f + 1 := ⟨fuel - 1, by rw [hcons, hlength] at hfuel; omega⟩
    rw [hcons] at hfuel ⊢
    rw [readEntries, reads_entry restart hv]
    · show (readEntries fuel _ (i + 1) (blockBytes block) >>= fun vs => pure (v.put :: vs)) = _
      rw [ih hfits (by omega)]
      rfl
    · exact ne_nil_of_length_pos (by omega)

theorem local_readEntry (restart : Option Key) : Local (readEntryMaybeTrunc restart) := by
  have hu32 : Local readU32 := (local_slice _ 4).bind fun bytes => Local.pure (ofLe bytes)
  have hikey (rawLen : Nat) : Local (readInternalKey restart rawLen) := by
    unfold readInternalKey
    split
    · refine (local_slice _ _).bind fun body => ?_
      cases body with
      | nil => exact Local.throw _
      | cons shared body =>
        dsimp only
        split
        · exact Local.throw _
        · split
          · exact Local.throw _
          · exact Local.pure _
    · exact local_slice _ _
  refine hu32.bind fun rawLen => (hikey rawLen).bind fun encoded => (Local.lift _).bind fun r => ?_
  exact hu32.bind fun len => (local_slice _ len).bind fun value => Local.pure _

/-- From the front of a block's bytes fewer entries are read, or all of them. -/
theorem readEntries_front (hfits : ∀ v ∈ block, v.Fits) {fuel i : Nat} {restart : Option Key}
    {bytes more : Bytes} {vs : List WriteOp} (hsplit : bytes ++ more = blockBytes block)
    (h : readEntries fuel restart i bytes = .ok vs) :
    vs.length ≤ block.length ∧ (block.length ≤ vs.length → more = []) := by
  induction block generalizing fuel i restart bytes vs with
  | nil =>
    obtain ⟨rfl, rfl⟩ := append_eq_nil_iff.mp hsplit
    cases fuel <;> cases h <;> simp
  | cons v block ih =>
    obtain ⟨hv, hfits⟩ := forall_mem_cons.mp hfits
    cases bytes with
    | nil => cases fuel <;> cases h <;> simp
    | cons b tail =>
      cases fuel with
      | zero => cases h
      | succ fuel =>
        simp only [readEntries] at h
        obtain ⟨⟨w, rest⟩, hread, h⟩ := Wal.bind_ok h
        obtain ⟨ws, hws, h⟩ := Wal.bind_ok h
        cases h
        obtain ⟨-, hrest⟩ := (reads_entry restart hv).of_front (local_readEntry restart) hsplit hread
        obtain ⟨hle, hall⟩ := ih hfits hrest hws
        exact ⟨Nat.succ_le_succ hle, fun hlen => hall (Nat.le_of_succ_le_succ hlen)⟩

theorem blockEntries_plain (hfits : ∀ v ∈ block, v.Fits)
    (hhash : splitBlockHash (blockBytes block) = blockBytes block) :
    blockEntries block = .ok (block.map put) := by
  rw [blockEntries, hhash]
  exact readEntries_blockBytes hfits le_rfl none 0

theorem splitBlockHash_front (plain : Bytes) : ∃ hash, splitBlockHash plain ++ hash = plain := by
  unfold splitBlockHash
  dsimp only
  split
  · exact ⟨[], append_nil _⟩
  split
  · exact ⟨[], append_nil _⟩
  split
  · exact ⟨[], append_nil _⟩
  split
  · exact ⟨[], append_nil _⟩
  · exact ⟨_, take_append_drop _ _⟩

/-- A block that is cut short has fewer entries. -/
theorem blockEntries_length (hfits : ∀ v ∈ block, v.Fits) {vs : List WriteOp}
    (h : blockEntries block = .ok vs) : vs.length ≤ block.length ∧
      (block.length ≤ vs.length → splitBlockHash (blockBytes block) = blockBytes block) := by
  obtain ⟨hash, hsplit⟩ := splitBlockHash_front (blockBytes block)
  obtain ⟨hle, hall⟩ := readEntries_front hfits hsplit h
  refine ⟨hle, fun hlen => ?_⟩
  have hwhole := hsplit
  rw [hall hlen, append_nil] at hwhole
  exact hwhole

theorem decodeBlockBytes_block (block : List BulkEntry) :
    decodeBlockBytes codecs false true
        (blockBytes block ++ leBytes 4 (codecs.crc32c (blockBytes block)).toNat) =
      blockEntries block := by
  have hlen : (blockBytes block ++ leBytes 4 (codecs.crc32c (blockBytes block)).toNat).length - 4 =
      (blockBytes block).length := by simp
  have hcrc : ofLe (leBytes 4 (codecs.crc32c (blockBytes block)).toNat) =
      (codecs.crc32c (blockBytes block)).toNat := ofLe_leBytes (UInt32.toNat_lt _)
  have hsplit : splitBlockCrc codecs
      (blockBytes block ++ leBytes 4 (codecs.crc32c (blockBytes block)).toNat) =
        .ok (blockBytes block) := by
    rw [splitBlockCrc, hlen, take_left, drop_left, hcrc, if_neg (by simp), if_neg (by simp)]
  simp only [decodeBlockBytes, if_true, hsplit, bind, Except.bind, Bool.false_eq_true, if_false,
    pure, Except.pure]
  rfl

theorem layout_length {blocks : List (List BulkEntry)} (hblocks : ∀ b ∈ blocks, Sized b)
    (pos : Nat) : (layout codecs pos blocks).1.length =
      ((layout codecs pos blocks).2.map BlockHandle.length).sum := by
  induction blocks generalizing pos with
  | nil => rfl
  | cons block blocks ih =>
    obtain ⟨hblock, hblocks⟩ := forall_mem_cons.mp hblocks
    simp only [layout, length_append, leBytes_length, map_cons, sum_cons,
      Nat.mod_eq_of_lt hblock.size, ih hblocks]

/-- A reader finds block after block where the writer laid them. -/
theorem decode_layout {blocks : List (List BulkEntry)} (hblocks : ∀ b ∈ blocks, Sized b)
    (before after : Bytes)
    (hsize : before.length + (layout codecs before.length blocks).1.length < 2 ^ 64) :
    (layout codecs before.length blocks).2.mapM (decodeBlockFromPayload codecs
        (before ++ (layout codecs before.length blocks).1 ++ after) false true) =
      blocks.mapM blockEntries := by
  induction blocks generalizing before with
  | nil => rfl
  | cons block blocks ih =>
    obtain ⟨hblock, hblocks⟩ := forall_mem_cons.mp hblocks
    have hstored := Nat.mod_eq_of_lt hblock.size
    have hraw : (blockBytes block ++ leBytes 4 (codecs.crc32c (blockBytes block)).toNat).length =
        (blockBytes block).length + 4 := by simp
    simp only [layout, hstored, length_append, leBytes_length] at hsize ⊢
    have hbefore : (before ++
        (blockBytes block ++ leBytes 4 (codecs.crc32c (blockBytes block)).toNat)).length =
          before.length + ((blockBytes block).length + 4) := by
      rw [length_append, hraw]
    have htail := ih hblocks
      (before ++ (blockBytes block ++ leBytes 4 (codecs.crc32c (blockBytes block)).toNat))
      (by rw [hbefore]; omega)
    rw [hbefore, append_assoc before] at htail
    have hone : decodeBlockFromPayload codecs
        (before ++ (blockBytes block ++ leBytes 4 (codecs.crc32c (blockBytes block)).toNat ++
          (layout codecs (before.length + ((blockBytes block).length + 4)) blocks).1) ++ after)
        false true
        ⟨before.length, (blockBytes block).length + 4, (block.head?.map key).getD []⟩ =
          blockEntries block := by
      rw [decodeBlockFromPayload, if_neg (by simp only; omega), if_neg (by simp)]
      simp only
      rw [append_assoc, drop_left, append_assoc, take_left' hraw]
      exact decodeBlockBytes_block codecs block
    rw [mapM_cons, mapM_cons, hone, htail]

theorem reads_blockHandle {h : BlockHandle} (hoffset : h.offset < 2 ^ 64) (hlength : h.length < 2 ^ 32)
    (hkey : h.firstUserKey.length < 2 ^ 32) : Reads readBlockHandle (encodeBlockHandle h) h :=
  Reads.bind (reads_u64 hoffset) (Reads.bind (reads_u32 hlength) (Reads.bind (reads_u32 hkey)
    ((reads_slice rfl).map (BlockHandle.mk h.offset h.length))))

theorem reads_index (hindex : ∀ h ∈ index, h.offset < 2 ^ 64 ∧ h.length < 2 ^ 32 ∧
    h.firstUserKey.length < 2 ^ 32) :
    Reads (readIndex index.length) (index.flatMap encodeBlockHandle) index := by
  induction index with
  | nil => exact Reads.pure []
  | cons h index ih =>
    obtain ⟨hh, hindex⟩ := forall_mem_cons.mp hindex
    exact Reads.bind (reads_blockHandle hh.1 hh.2.1 hh.2.2) ((ih hindex).map (h :: ·))

theorem layout_handles {blocks : List (List BulkEntry)} (hblocks : ∀ b ∈ blocks, Sized b)
    (pos : Nat) :
    ∀ h ∈ (layout codecs pos blocks).2, h.offset ≤ pos + (layout codecs pos blocks).1.length ∧
    h.length < 2 ^ 32 ∧
      h.firstUserKey.length < 2 ^ 32 := by
  induction blocks generalizing pos with
  | nil => exact fun h hh => absurd hh not_mem_nil
  | cons block blocks ih =>
    obtain ⟨hblock, hblocks⟩ := forall_mem_cons.mp hblocks
    simp only [layout, Nat.mod_eq_of_lt hblock.size, length_append, leBytes_length]
    intro h hh
    rcases mem_cons.mp hh with rfl | hh
    · refine ⟨Nat.le_add_right _ _, hblock.size, ?_⟩
      cases block with
      | nil => exact Nat.two_pow_pos 32
      | cons v block =>
        have := (hblock.fits v mem_cons_self).block
        show v.key.length < 2 ^ 32
        omega
    · obtain ⟨hoffset, hrest⟩ := ih hblocks _ h hh
      exact ⟨by omega, hrest⟩

theorem layout_index_length (pos : Nat) (blocks : List (List BulkEntry)) :
    (layout codecs pos blocks).2.length = blocks.length := by
  induction blocks generalizing pos with
  | nil => rfl
  | cons block blocks ih => rw [layout, length_cons, length_cons, ih]

/-- No entry comes before the one ahead of it. -/
def InOrder (l : List WriteOp) : Prop := l.IsChain fun a b => ¬ InternalBefore b a

/-- The pass over entries goes through exactly if they are in order. -/
theorem scan_ok_iff {l : List WriteOp} {s : OpenScan} :
    (∃ s', l.foldlM OpenScan.entry s = .ok s') ↔ InOrder (s.last.toList ++ l) := by
  induction l generalizing s with
  | nil => exact iff_of_true ⟨s, rfl⟩ (by cases s.last <;> simp [InOrder])
  | cons v l ih =>
    have hlast : InOrder (s.last.toList ++ v :: l) ↔
        (∀ prev ∈ s.last, ¬ InternalBefore v prev) ∧ InOrder (v :: l) := by
      cases s.last <;> simp [InOrder]
    rw [hlast, foldlM_cons, OpenScan.entry]
    by_cases hpass : (s.last.any fun prev => decide (InternalBefore v prev)) = true
    · rw [if_pos hpass]
      refine iff_of_false (fun h => ?_) fun h => ?_
      · obtain ⟨s', hs'⟩ := h
        cases hs'
      · obtain ⟨prev, hprev, hbefore⟩ := (Option.any_eq_true _ _).mp hpass
        exact h.1 prev hprev (of_decide_eq_true hbefore)
    · rw [if_neg hpass]
      have hok : ∀ prev ∈ s.last, ¬ InternalBefore v prev := fun prev hprev hbefore =>
        hpass ((Option.any_eq_true _ _).mpr ⟨prev, hprev, decide_eq_true hbefore⟩)
      exact ih.trans (and_iff_right hok).symm

theorem scan_count {l : List WriteOp} {s s' : OpenScan}
    (h : l.foldlM OpenScan.entry s = .ok s') : s'.decodedN = s.decodedN + l.length := by
  induction l generalizing s with
  | nil =>
    cases h
    rfl
  | cons v l ih =>
    rw [foldlM_cons, OpenScan.entry] at h
    split at h
    · cases h
    · rw [ih h, length_cons]
      show s.decodedN + 1 + l.length = _
      omega

/-- The pass goes block by block over what the blocks decode to. -/
theorem scan_blocks {decode : BlockHandle → Except SstError (List WriteOp)} {blocks : List (List WriteOp)}
    (h : index.mapM decode = .ok blocks) (s : OpenScan) :
    index.foldlM (fun s h => do let block ← decode h; block.foldlM OpenScan.entry s) s =
    blocks.flatten.foldlM OpenScan.entry s := by
  induction index generalizing blocks s with
  | nil =>
    cases h
    rfl
  | cons handle index ih =>
    rw [mapM_cons] at h
    obtain ⟨block, hblock, h⟩ := Wal.bind_ok h
    obtain ⟨rest, hrest, h⟩ := Wal.bind_ok h
    cases h
    rw [foldlM_cons, hblock, flatten_cons, foldlM_append]
    simp only [ih hrest]
    rfl

/-! ### The file -/

section
variable {numBlocks dataLen : Nat}

theorem bulkHeader_length : (bulkHeader n maxSequence numBlocks dataLen).length = 40 := by
  simp [bulkHeader, sstMagic]

theorem bulkHeader_drop (rest : Bytes) : (bulkHeader n maxSequence numBlocks dataLen ++ rest).drop 8 =
      leBytes 4 sstVersionV6 ++ (leBytes 8 n ++
        (leBytes 8 maxSequence ++ (leBytes 4 numBlocks ++ (leBytes 8 dataLen ++ rest)))) := by
  rw [bulkHeader, append_assoc, drop_left' (by rfl)]
  simp

theorem bulkHeader_version (rest : Bytes) :
    ofLe (((bulkHeader n maxSequence numBlocks dataLen ++ rest).drop 8).take 4) = sstVersionV6 := by
  rw [bulkHeader_drop, take_left' (leBytes_length _ _)]
  exact ofLe_leBytes (by decide)

theorem bulkHeader_counts (rest : Bytes) : (bulkHeader n maxSequence numBlocks dataLen ++ rest).drop 12 =
      leBytes 8 n ++ (leBytes 8 maxSequence ++ (leBytes 4 numBlocks ++ (leBytes 8 dataLen ++ rest))) := by
  rw [show 12 = 8 + 4 from rfl, ← drop_drop, bulkHeader_drop, drop_left' (leBytes_length _ _)]

theorem bulkHeader_dataLen (hdataLen : dataLen < 2 ^ 64) (rest : Bytes) :
    ofLe (((bulkHeader n maxSequence numBlocks dataLen ++ rest).drop 32).take 8) = dataLen := by
  rw [show 32 = 12 + (8 + (8 + 4)) from rfl, ← drop_drop, bulkHeader_counts, ← drop_drop,
    drop_left' (leBytes_length _ _),
    ← drop_drop, drop_left' (leBytes_length _ _), drop_left' (leBytes_length _ _),
    take_left' (leBytes_length _ _)]
  exact ofLe_leBytes hdataLen

end

/-- Blocks a file is made of: none is empty, and their sizes and their number fit their
fields. -/
structure Blocks (blocks : List (List BulkEntry)) : Prop where
  sized : ∀ b ∈ blocks, Sized b
  nonempty : ∀ b ∈ blocks, b ≠ []
  present : blocks ≠ []
  count : blocks.flatten.length < 2 ^ 31

section
variable {blocks : List (List BulkEntry)}

theorem blockBytes_length_le (block : List BulkEntry) :
    16 * block.length ≤ (blockBytes block).length := by
  induction block with
  | nil => simp
  | cons v block ih =>
    have hcons : blockBytes (v :: block) = appendBulkEntry v ++ blockBytes block := rfl
    rw [hcons, length_append, appendBulkEntry_length, length_cons]
    omega

theorem layout_length_ge (pos : Nat) (blocks : List (List BulkEntry)) :
    16 * blocks.flatten.length ≤ (layout codecs pos blocks).1.length := by
  induction blocks generalizing pos with
  | nil => simp
  | cons block blocks ih =>
    have hblock := blockBytes_length_le block
    have hrest := ih (pos + ((blockBytes block).length + 4) % 2 ^ 32)
    simp only [layout, flatten_cons, length_append, leBytes_length]
    omega

theorem layout_length_le (hsized : ∀ b ∈ blocks, Sized b) (pos : Nat) :
    (layout codecs pos blocks).1.length ≤ blocks.length * 2 ^ 32 := by
  induction blocks generalizing pos with
  | nil => simp [layout]
  | cons block blocks ih =>
    obtain ⟨hblock, hsized⟩ := forall_mem_cons.mp hsized
    have hsize := hblock.size
    have hrest := ih hsized (pos + ((blockBytes block).length + 4) % 2 ^ 32)
    simp only [layout, length_append, leBytes_length, length_cons, Nat.add_mul]
    omega

theorem Blocks.length_le (h : Blocks blocks) : blocks.length ≤ blocks.flatten.length := by
  have hle : ∀ bs : List (List BulkEntry), (∀ b ∈ bs, b ≠ []) → bs.length ≤ bs.flatten.length := by
    intro bs hbs
    induction bs with
    | nil => simp
    | cons b bs ih =>
      obtain ⟨hb, hbs⟩ := forall_mem_cons.mp hbs
      have := length_pos_of_ne_nil hb
      have := ih hbs
      rw [flatten_cons, length_append, length_cons]
      omega
  exact hle blocks h.nonempty

def bulkBody (maxSequence : Nat) (bloom : Bytes) (blocks : List (List BulkEntry)) : Bytes :=
  bulkHeader blocks.flatten.length maxSequence blocks.length (layout codecs 40 blocks).1.length ++
    ((layout codecs 40 blocks).1 ++ ((layout codecs 40 blocks).2.flatMap encodeBlockHandle ++ bloom))

theorem Blocks.data_lt (h : Blocks blocks) : 40 + (layout codecs 40 blocks).1.length < 2 ^ 64 := by
  have hle := layout_length_le codecs h.sized 40
  have hcount := h.count
  have hlen := h.length_le
  omega

theorem Blocks.decode (h : Blocks blocks) (maxSequence : Nat) (bloom : Bytes) :
    (layout codecs 40 blocks).2.mapM
        (decodeBlockFromPayload codecs (bulkBody codecs maxSequence bloom blocks) false true) =
      blocks.mapM blockEntries := by
  have hheader : (bulkHeader blocks.flatten.length maxSequence blocks.length
      (layout codecs 40 blocks).1.length).length = 40 := bulkHeader_length
  have hdecode := decode_layout codecs h.sized
    (bulkHeader blocks.flatten.length maxSequence blocks.length (layout codecs 40 blocks).1.length)
    ((layout codecs 40 blocks).2.flatMap encodeBlockHandle ++ bloom)
    (by rw [hheader]; exact h.data_lt codecs)
  rw [hheader, append_assoc] at hdecode
  exact hdecode

theorem bulkBody_length (maxSequence : Nat) (bloom : Bytes) (blocks : List (List BulkEntry)) :
    (bulkBody codecs maxSequence bloom blocks).length =
      40 + (layout codecs 40 blocks).1.length +
      ((layout codecs 40 blocks).2.flatMap encodeBlockHandle ++ bloom).length := by
  rw [bulkBody, length_append, bulkHeader_length, length_append]
  omega

theorem bulkBody_tail (maxSequence : Nat) (bloom : Bytes) (blocks : List (List BulkEntry)) :
    (bulkBody codecs maxSequence bloom blocks).drop (40 + (layout codecs 40 blocks).1.length) =
      (layout codecs 40 blocks).2.flatMap encodeBlockHandle ++ bloom := by
  rw [bulkBody, ← drop_drop, drop_left' bulkHeader_length, drop_left]

/-- **When the body is opened**: there are not too many entries, and they are in order. The
index is then the writer's. -/
theorem Blocks.decodeV2OrV3 (h : Blocks blocks) (hmax : maxSequence < 2 ^ 64) {bloom : Bytes}
    (hbloom : BloomFilter.decode bloom = .ok f) (hactive : f.isActive = true)
    {read : List (List WriteOp)} (hread : blocks.mapM blockEntries = .ok read)
    (hlength : read.flatten.length = blocks.flatten.length) :
    (∀ t, Sst.decodeV2OrV3 codecs (bulkBody codecs maxSequence bloom blocks) true false true =
        .ok t → blocks.flatten.length ≤ maxSstEntries ∧ InOrder read.flatten) ∧
    (blocks.flatten.length ≤ maxSstEntries → InOrder read.flatten →
      ∃ t, Sst.decodeV2OrV3 codecs (bulkBody codecs maxSequence bloom blocks) true false true =
          .ok t ∧
        t.payload = bulkBody codecs maxSequence bloom blocks ∧ t.compressedBlocks = false ∧
        t.blockCrc = true ∧ t.entries = none ∧ t.numEntries = blocks.flatten.length ∧
        t.index = (layout codecs 40 blocks).2) := by
  have hdata := h.data_lt codecs
  have hcount := h.count
  have hblocks := h.length_le
  have hsize := layout_length_ge codecs 40 blocks
  have hbody := bulkBody_length codecs maxSequence bloom blocks
  have hcounts : (bulkBody codecs maxSequence bloom blocks).drop 12 = _ := bulkHeader_counts _
  have hread₁ := reads_u64 (n := blocks.flatten.length) (by omega)
  have hread₂ := reads_u64 hmax
  have hread₃ := reads_u32 (n := blocks.length) (by omega)
  have hread₄ := reads_u64 (n := (layout codecs 40 blocks).1.length) (by omega)
  simp only [Reads] at hread₁ hread₂ hread₃ hread₄
  by_cases hmany : blocks.flatten.length ≤ maxSstEntries
  swap
  · refine ⟨fun t ht => ?_, fun hfew => absurd hfew hmany⟩
    have hentries : checkSstEntryCount blocks.flatten.length
        (bulkBody codecs maxSequence bloom blocks).length false =
          .error (.tooManyEntries blocks.flatten.length) := by
      rw [checkSstEntryCount, if_pos (Nat.lt_of_not_le hmany)]
    simp only [Sst.decodeV2OrV3, hcounts, hread₁, bind, Except.bind, hentries] at ht
    cases ht
  have hentries : checkSstEntryCount blocks.flatten.length
      (bulkBody codecs maxSequence bloom blocks).length false = .ok () := by
    rw [checkSstEntryCount, if_neg (Nat.not_lt.mpr hmany),
      if_neg (by simp only [Bool.not_false, Bool.true_and, decide_eq_true_eq]; omega)]
  have hnum : checkSstBlockCount blocks.length (bulkBody codecs maxSequence bloom blocks).length =
      .ok () := by
    rw [checkSstBlockCount, if_neg (by omega)]
  have hindex : readIndex blocks.length
      ((bulkBody codecs maxSequence bloom blocks).drop (40 + (layout codecs 40 blocks).1.length)) =
        .ok ((layout codecs 40 blocks).2, bloom) := by
    have hreads := reads_index fun handle hh => by
      obtain ⟨hoffset, hrest⟩ := layout_handles codecs h.sized 40 handle hh
      exact ⟨lt_of_le_of_lt hoffset hdata, hrest⟩
    rw [bulkBody_tail, ← hreads bloom, layout_index_length]
  have hpass := scan_blocks ((h.decode codecs maxSequence bloom).trans hread) {}
  simp only [bind, Except.bind] at hpass
  have hscan : _ ↔ InOrder read.flatten := scan_ok_iff (s := {})
  simp only [Sst.decodeV2OrV3, hcounts, hread₁, hread₂, hread₃, hread₄, bind, Except.bind, hentries,
    hnum, hindex, hbloom]
  simp only [if_neg (show ¬ 2 ^ 64 ≤ 40 + (layout codecs 40 blocks).1.length by omega),
    if_neg (show ¬ (bulkBody codecs maxSequence bloom blocks).length <
      40 + (layout codecs 40 blocks).1.length by omega), if_true, pure, Except.pure, hpass]
  cases hfold : read.flatten.foldlM OpenScan.entry {} with
  | error e =>
    refine ⟨fun t ht => (by cases ht), fun _ hchain => ?_⟩
    obtain ⟨scan, hok⟩ := hscan.mpr hchain
    rw [hfold] at hok
    cases hok
  | ok scan =>
    refine ⟨fun _ _ => ⟨hmany, hscan.mp ⟨scan, hfold⟩⟩, fun _ _ => ?_⟩
    have hn : scan.decodedN = blocks.flatten.length := by
      rw [scan_count hfold, hlength]
      exact Nat.zero_add _
    simp only [hn, hactive, ne_eq, not_true_eq_false, if_false, if_true]
    exact ⟨_, rfl, rfl, rfl, rfl, rfl, rfl, rfl⟩

/-- The checksum the writer puts behind the body. -/
def bulkCrc (maxSequence : Nat) (bloom : Bytes) (blocks : List (List BulkEntry)) : UInt32 :=
  let header := bulkHeader blocks.flatten.length maxSequence blocks.length
    (layout codecs 40 blocks).1.length
  let tail := (layout codecs 40 blocks).2.flatMap encodeBlockHandle ++ bloom
  codecs.crc32cCombine (codecs.crc32c header) (codecs.crc32c tail) tail.length

section
variable (h : Blocks blocks)
include h

theorem Blocks.v6FileCrc (maxSequence : Nat) (bloom : Bytes) :
    v6FileCrc codecs (bulkBody codecs maxSequence bloom blocks) =
    some (bulkCrc codecs maxSequence bloom blocks) := by
  have hdata := h.data_lt codecs
  have hlength := bulkBody_length codecs maxSequence bloom blocks
  have hdataLen : ofLe (((bulkBody codecs maxSequence bloom blocks).drop 32).take 8) =
    (layout codecs 40 blocks).1.length :=
    bulkHeader_dataLen (by omega) _
  have hversion : ofLe (((bulkBody codecs maxSequence bloom blocks).drop 8).take 4) =
    sstVersionV6 := bulkHeader_version _
  have hhead : (bulkBody codecs maxSequence bloom blocks).take 40 =
      bulkHeader blocks.flatten.length maxSequence blocks.length
      (layout codecs 40 blocks).1.length := take_left' bulkHeader_length
  simp only [Sst.v6FileCrc, bulkSstHeaderLen, hdataLen, hversion, bulkBody_tail, hhead]
  rw [if_neg (by omega), if_neg (by simp), if_neg (by omega)]
  rfl

theorem Blocks.crcStrippedBody (maxSequence : Nat) (bloom : Bytes) :
    crcStrippedBody codecs (bulkBody codecs maxSequence bloom blocks ++
      leBytes 4 (bulkCrc codecs maxSequence bloom blocks).toNat) =
      .ok (bulkBody codecs maxSequence bloom blocks) := by
  have hlength := bulkBody_length codecs maxSequence bloom blocks
  have hversion : ofLe (((bulkBody codecs maxSequence bloom blocks).drop 8).take 4) =
    sstVersionV6 := bulkHeader_version _
  have hmagic : sstMagic.isPrefixOf (bulkBody codecs maxSequence bloom blocks ++
    leBytes 4 (bulkCrc codecs maxSequence bloom blocks).toNat) =
      true := by
    rw [ List.isPrefixOf_iff_prefix, bulkBody, bulkHeader]
    simp only [append_assoc]
    exact prefix_append _ _
  have hsplit : (bulkBody codecs maxSequence bloom blocks ++
    leBytes 4 (bulkCrc codecs maxSequence bloom blocks).toNat).length - 4 =
      (bulkBody codecs maxSequence bloom blocks).length := by simp
  have hstored : ofLe (leBytes 4 (bulkCrc codecs maxSequence bloom blocks).toNat) =
    (bulkCrc codecs maxSequence bloom blocks).toNat :=
    ofLe_leBytes (UInt32.toNat_lt _)
  rw [Sst.crcStrippedBody, if_pos ⟨by rw [length_append, leBytes_length]; omega, hmagic⟩]
  simp only [hsplit, take_left, drop_left, hstored]
  rw [if_pos ⟨by omega, hversion⟩, h.v6FileCrc codecs]
  simp [bind, Except.bind, pure, Except.pure, sstCrcFate]

theorem Blocks.openOn (maxSequence : Nat) (bloom : Bytes) :
    openOn codecs (bulkBody codecs maxSequence bloom blocks ++
        leBytes 4 (bulkCrc codecs maxSequence bloom blocks).toNat) =
      Sst.decodeV2OrV3 codecs (bulkBody codecs maxSequence bloom blocks) true false true := by
  have hslice : slice SstError.truncated 8 (bulkBody codecs maxSequence bloom blocks) =
      .ok (sstMagic, (bulkBody codecs maxSequence bloom blocks).drop 8) := by
    rw [bulkBody, bulkHeader, append_assoc, reads_slice (by rfl), drop_left' (by rfl)]
  obtain ⟨rest, hversion⟩ :
      ∃ rest, readU32 ((bulkBody codecs maxSequence bloom blocks).drop 8) = .ok (6, rest) :=
    ⟨_, (congrArg readU32 (bulkHeader_drop _)).trans (reads_u32 (by decide) _)⟩
  simp only [SstTable.openOn, h.crcStrippedBody codecs, bind, Except.bind, hslice, hversion, ne_eq,
    not_true_eq_false, if_false]

/-- A table over the body gives what is found in the blocks, if that is as much as was written,
whether it holds the body or reads the file. -/
theorem Blocks.materializeEntries (maxSequence : Nat) (bloom : Bytes) {t : SstTable} {file : Bytes}
    (hbody : t.body codecs file = .ok (bulkBody codecs maxSequence bloom blocks))
    (hplain : t.compressedBlocks = false) (hcrc : t.blockCrc = true) (hentries : t.entries = none)
    (hcount : t.numEntries = blocks.flatten.length) (hindex : t.index = (layout codecs 40 blocks).2)
    (entries : List WriteOp) : t.materializeEntries codecs file = .ok entries ↔
      ∃ read, blocks.mapM blockEntries = .ok read ∧ read.flatten = entries ∧
        entries.length = blocks.flatten.length := by
  have hne : (layout codecs 40 blocks).2 ≠ [] := by
    rw [← length_pos_iff, layout_index_length]
    exact length_pos_of_ne_nil h.present
  simp only [SstTable.materializeEntries, hentries, hindex, hplain, hcrc, hcount, if_neg hne, hbody,
    bind, Except.bind, decodeBlocks, h.decode codecs]
  cases hread : blocks.mapM blockEntries with
  | error e => simp
  | ok read =>
    simp only [pure, Except.pure, Except.ok.injEq, exists_eq_left']
    by_cases hlen : read.flatten.length = blocks.flatten.length
    · rw [if_neg (not_not.mpr hlen), Except.ok.injEq]
      exact ⟨fun heq => ⟨heq, heq ▸ hlen⟩, And.left⟩
    · rw [if_pos hlen]
      refine iff_of_false (fun heq => ?_) fun hboth => hlen (hboth.1 ▸ hboth.2)
      cases heq

end

/-- Blocks give as many entries as they hold exactly if none ends in what looks like a hash of
keys; they are then the entries that were written. -/
theorem mapM_blockEntries (hsized : ∀ b ∈ blocks, Sized b) :
    (∀ read, blocks.mapM blockEntries = .ok read → read.flatten.length ≤ blocks.flatten.length ∧
      (blocks.flatten.length ≤ read.flatten.length →
        ∀ b ∈ blocks, splitBlockHash (blockBytes b) = blockBytes b)) ∧
    ((∀ b ∈ blocks, splitBlockHash (blockBytes b) = blockBytes b) →
      blocks.mapM blockEntries = .ok (blocks.map fun b => b.map put)) := by
  induction blocks with
  | nil =>
    refine ⟨fun read h => ?_, fun _ => rfl⟩
    cases h
    simp
  | cons block blocks ih =>
    obtain ⟨hblock, hsized⟩ := forall_mem_cons.mp hsized
    obtain ⟨hless, hall⟩ := ih hsized
    constructor
    · intro read h
      rw [mapM_cons] at h
      obtain ⟨vs, hvs, h⟩ := Wal.bind_ok h
      obtain ⟨rest, hrest, h⟩ := Wal.bind_ok h
      cases h
      obtain ⟨hle, hhash⟩ := blockEntries_length hblock.fits hvs
      obtain ⟨hle', hhash'⟩ := hless rest hrest
      simp only [flatten_cons, length_append]
      refine ⟨Nat.add_le_add hle hle', fun hlen => forall_mem_cons.mpr ⟨?_, ?_⟩⟩
      · exact hhash (by omega)
      · exact hhash' (by omega)
    · intro hhash
      obtain ⟨hhash, hrest⟩ := forall_mem_cons.mp hhash
      rw [mapM_cons, blockEntries_plain hblock.fits hhash, hall hrest]
      rfl

end

/-! ### Runs -/

/-- The blocks a run's entries are cut into once they are in order. -/
def runBlocks (env : Option Nat) (run : BulkRun) : List (List BulkEntry) :=
  cutBlocks (blockTarget env) [] (sortByKey (arrays run))

/-- A run that a file can hold: it has entries, all of them values, of one key the newest
first; there are not too many; and none of the blocks they are cut into ends in what looks
like a hash of keys. -/
structure Writable (env : Option Nat) (run : BulkRun) : Prop where
  present : run.entries ≠ []
  values : ∀ v ∈ run.entries, v.kind = .value
  ordered : run.entries.Pairwise fun a b => a.key = b.key → b.sequence ≤ a.sequence
  count : run.entries.length ≤ maxSstEntries
  hash : ∀ block ∈ runBlocks env run, splitBlockHash (blockBytes block) = blockBytes block

/-- A run whose sizes fit the fields of a file. -/
structure Fitting (run : BulkRun) : Prop where
  fits : ∀ v ∈ arrays run, v.Fits
  count : run.entries.length < 2 ^ 31

variable (entries : List BulkEntry)

theorem sortByKey_perm : (sortByKey entries).Perm entries := by
  rw [sortByKey]
  split
  · exact perm_insertionSort _ _
  · exact .refl _

instance : Std.Total fun a b : BulkEntry => a.key ≤ b.key := ⟨fun a b => List.le_total a.key b.key⟩

instance : IsTrans BulkEntry fun a b => a.key ≤ b.key := ⟨fun _ _ _ => List.le_trans⟩

theorem sortByKey_sorted : (sortByKey entries).Pairwise fun a b => a.key ≤ b.key := by
  rw [sortByKey]
  split
  · exact pairwise_insertionSort _ _
  · next h =>
    exact isChain_iff_pairwise.mp (Cursor.isChain_of_zip_tail fun w hw =>
      List.not_lt.mp fun hlt => h (any_eq_true.mpr ⟨w, hw, decide_eq_true hlt⟩))

theorem runBlocks_flatten (env : Option Nat) (run : BulkRun) :
    (runBlocks env run).flatten = sortByKey (arrays run) :=
  cutBlocks_flatten _ _ _

/-- Entries of one key stay in the order they have. -/
theorem filter_sortByKey (k : Key) :
    ((sortByKey entries).filter fun v => v.key = k) = entries.filter fun v => v.key = k := by
  have hinsert (a : BulkEntry) (l : List BulkEntry) :
      ((l.orderedInsert (fun a b => a.key ≤ b.key) a).filter fun v => v.key = k) =
        (a :: l).filter fun v => v.key = k := by
    induction l with
    | nil => rfl
    | cons b l ih =>
      rw [orderedInsert]
      split
      · rfl
      · rename_i hlt
        have hne : a.key ≠ b.key := fun heq => hlt (heq ▸ List.le_refl _)
        rw [filter_cons, ih]
        by_cases ha : a.key = k
        · simp [ha, show ¬ b.key = k from fun hb => hne (ha.trans hb.symm)]
        · simp [filter_cons, ha]
  have hsort (l : List BulkEntry) :
      ((l.insertionSort fun a b => a.key ≤ b.key).filter fun v => v.key = k) =
        l.filter fun v => v.key = k := by
    induction l with
    | nil => rfl
    | cons a l ih => rw [insertionSort_cons, hinsert, filter_cons, filter_cons, ih]
  rw [sortByKey]
  split
  · exact hsort entries
  · rfl

theorem pairwise_iff_filter {R : Nat → Nat → Prop} (l : List BulkEntry) :
    (l.Pairwise fun a b => a.key = b.key → R a.sequence b.sequence) ↔
      ∀ k, (l.filter fun v => v.key = k).Pairwise fun a b => R a.sequence b.sequence := by
  induction l with
  | nil => simp
  | cons a l ih =>
    simp only [pairwise_cons, ih, filter_cons]
    constructor
    · rintro ⟨ha, hl⟩ k
      split
      · rename_i hk
        refine pairwise_cons.mpr ⟨fun b hb => ?_, hl k⟩
        obtain ⟨hb, hbk⟩ := mem_filter.mp hb
        exact ha b hb ((of_decide_eq_true hk).trans (of_decide_eq_true hbk).symm)
      · exact hl k
    · intro h
      refine ⟨fun b hb heq => ?_, fun k => ?_⟩
      · have hk := h a.key
        rw [if_pos (decide_eq_true rfl)] at hk
        exact (pairwise_cons.mp hk).1 b (mem_filter.mpr ⟨hb, decide_eq_true heq.symm⟩)
      · have hk := h k
        split at hk
        · exact (pairwise_cons.mp hk).2
        · exact hk

/-- Sorted by key, values are in the order of a file exactly if of one key the newest came
first. -/
theorem inOrder_sortByKey : InOrder ((sortByKey entries).map put) ↔
    entries.Pairwise fun a b => a.key = b.key → b.sequence ≤ a.sequence := by
  have hrel (a b : BulkEntry) : ¬ InternalBefore b.put a.put ↔
      a.key ≤ b.key ∧ (a.key = b.key → b.sequence ≤ a.sequence) := by
    simp only [InternalBefore, versionNewer_iff, BulkEntry.put, WriteOp.put, lt_irrefl, and_false,
      or_false, not_or, not_and, Nat.not_lt, List.not_lt]
    exact and_congr_right fun _ => ⟨fun h heq => h heq.symm, fun h heq => h heq.symm⟩
  have htrans : IsTrans BulkEntry fun a b =>
      a.key ≤ b.key ∧ (a.key = b.key → b.sequence ≤ a.sequence) := by
    refine ⟨fun a b c hab hbc => ⟨List.le_trans hab.1 hbc.1, fun hac => ?_⟩⟩
    have hba : b.key = a.key := List.le_antisymm (hac ▸ hbc.1) hab.1
    exact le_trans (hbc.2 (hba.trans hac)) (hab.2 hba.symm)
  rw [InOrder, isChain_map]
  simp only [hrel]
  rw [isChain_iff_pairwise, pairwise_and_iff, and_iff_right (sortByKey_sorted entries),
    pairwise_iff_filter (R := fun m n => n ≤ m), pairwise_iff_filter (R := fun m n => n ≤ m)]
  simp only [filter_sortByKey]

section
variable (hfit : Fitting run) (hne : run.entries ≠ [])
include hne

theorem sorted_ne_nil : sortByKey (arrays run) ≠ [] := fun hnil => by
  have hperm := sortByKey_perm (arrays run)
  rw [hnil] at hperm
  exact hne (map_eq_nil_iff.mp hperm.symm.eq_nil)

include hfit

/-- A run whose sizes fit is cut into blocks that a file is made of. -/
theorem Fitting.blocks (env : Option Nat) : Blocks (runBlocks env run) := by
  have hflatten := runBlocks_flatten env run
  have hperm : (sortByKey (arrays run)).Perm (arrays run) := sortByKey_perm _
  have hfits : ∀ v ∈ sortByKey (arrays run), v.Fits := fun v hv =>
    hfit.fits v (hperm.mem_iff.mp hv)
  refine ⟨fun b hb => ⟨?_, ?_⟩, fun b hb => cutBlocks_ne_nil hb, ?_, ?_⟩
  · intro v hv
    exact hfits v (hflatten ▸ mem_flatten_of_mem hb hv)
  · have hle : (blockBytes b).length ≤ 2 ^ 32 - 5 := by
      refine cutBlocks_size ?_ ?_ (fun v hv => ?_) hb
      · rw [blockTarget]
        omega
      · exact Nat.zero_le _
      · have := (hfits v hv).block
        omega
    omega
  · intro hnil
    rw [hnil, flatten_nil] at hflatten
    exact sorted_ne_nil hne hflatten.symm
  · rw [hflatten, hperm.length_eq, arrays, length_map]
    exact hfit.count

/-- What is written: a file around the blocks, and a handle to it. -/
theorem writeBulkRunSst_ok (env : Option Nat) :
    let blocks := runBlocks env run
    let maxSequence := blocks.flatten.foldl (fun m v => max m v.sequence) 0
    let bloom := (bulkFilter (blocks.flatten.map key)).encode
    ∃ t, writeBulkRunSst codecs env run =
        .ok (t, bulkBody codecs maxSequence bloom blocks ++
          leBytes 4 (bulkCrc codecs maxSequence bloom blocks).toNat) ∧
      t.payload = [] ∧ t.payloadLen = (bulkBody codecs maxSequence bloom blocks).length ∧
      t.compressedBlocks = false ∧ t.blockCrc = true ∧ t.entries = none ∧
      t.numEntries = blocks.flatten.length ∧ t.index = (layout codecs 40 blocks).2 := by
  have hflatten := runBlocks_flatten env run
  obtain ⟨hdata, hindex, hpos⟩ :
      let e := ((sortByKey (arrays run)).foldl (stage codecs (blockTarget env)) {}).finish codecs
      e.data = (layout codecs 40 (runBlocks env run)).1 ∧
        e.index = (layout codecs 40 (runBlocks env run)).2 ∧
        e.pos = 40 + (layout codecs 40 (runBlocks env run)).1.length := by
    obtain ⟨hdata, hindex, hpos⟩ :=
      stage_layout codecs (blockTarget env) (sortByKey (arrays run)) [] (e := {}) rfl rfl
    refine ⟨hdata, hindex, hpos.trans ?_⟩
    rw [layout_length codecs (hfit.blocks hne env).sized]
    rfl
  simp only [writeBulkRunSst, if_neg hne, writeSstBulkArrays, writeSstBulkArraysBody,
    if_neg (sorted_ne_nil hne), hdata, hindex, hpos, layout_index_length, hflatten]
  simp only [bulkSstHeaderLen, Nat.add_sub_cancel_left]
  refine ⟨_, by simp only [bulkBody, bulkCrc, hflatten, append_assoc]; rfl, rfl, ?_, rfl, rfl, rfl,
    rfl, rfl⟩
  rw [bulkBody_length]

end

/-- The entries in a file are the run's exactly if all of these are values. -/
theorem put_perm_iff (env : Option Nat) (run : BulkRun) :
    ((runBlocks env run).flatten.map put).Perm run.entries ↔
      ∀ v ∈ run.entries, v.kind = .value := by
  rw [runBlocks_flatten]
  have hperm := (sortByKey_perm (arrays run)).map put
  constructor
  · intro h v hv
    obtain ⟨w, -, rfl⟩ := mem_map.mp (h.mem_iff.mpr hv)
    rfl
  · intro hvalues
    refine hperm.trans ?_
    rw [arrays, map_map]
    refine .of_eq ((map_congr_left fun v hv => ?_).trans (map_id _))
    show WriteOp.put v.sequence v.key v.value = v
    rw [WriteOp.put, ← hvalues v hv]

/-- **A bulk run keeps its versions when it becomes a file exactly if** a file can hold it: the
handle that the writer returns and the file, opened again, give the entries of the run. -/
theorem bulk_run_keeps_versions (codecs : Codecs) (env : Option Nat) (run : BulkRun)
    (hfit : Fitting run) :
    (∃ t file entries, writeBulkRunSst codecs env run = .ok (t, file) ∧ entries.Perm run.entries ∧
      t.materializeEntries codecs file = .ok entries ∧
      ∃ opened, SstTable.openOn codecs file = .ok opened ∧
        opened.materializeEntries codecs file = .ok entries) ↔ Writable env run := by
  by_cases hne : run.entries = []
  · refine iff_of_false (fun h => ?_) fun h => h.present hne
    obtain ⟨t, file, -, hwrite, -⟩ := h
    rw [writeBulkRunSst, if_pos hne] at hwrite
    cases hwrite
  have hflatten := runBlocks_flatten env run
  have hblocks := hfit.blocks hne env
  have hlength : (runBlocks env run).flatten.length = run.entries.length := by
    rw [hflatten, (sortByKey_perm _).length_eq, arrays, length_map]
  obtain ⟨f, hdecode, hactive⟩ : ∃ f, BloomFilter.decode
      (bulkFilter ((runBlocks env run).flatten.map key)).encode = .ok f ∧ f.isActive = true := by
    refine decode_encode_built fun hnil => ?_
    rw [hflatten] at hnil
    exact sorted_ne_nil hne (map_eq_nil_iff.mp hnil)
  have hmax : (runBlocks env run).flatten.foldl (fun m v => max m v.sequence) 0 < 2 ^ 64 := by
    refine lt_of_le_of_lt ((foldl_max sequence _ 0 maxSequenceNumber).mpr
      ⟨Nat.zero_le _, fun v hv => ?_⟩) (by decide)
    exact (hfit.fits v ((sortByKey_perm _).mem_iff.mp (hflatten ▸ hv))).sequence
  obtain ⟨t, hwrite, hpayload, hlen, hplain, hcrc, hentries, hcount, hindex⟩ :=
    writeBulkRunSst_ok codecs hfit hne env
  generalize (bulkFilter ((runBlocks env run).flatten.map key)).encode = bloom at *
  generalize (runBlocks env run).flatten.foldl (fun m v => max m v.sequence) 0 = maxSequence at *
  -- the handle reads the body back from the file
  have hbody : t.body codecs (bulkBody codecs maxSequence bloom (runBlocks env run) ++
      leBytes 4 (bulkCrc codecs maxSequence bloom (runBlocks env run)).toNat) =
        .ok (bulkBody codecs maxSequence bloom (runBlocks env run)) := by
    simp only [body, hpayload, ne_eq, not_true_eq_false, if_false, hblocks.crcStrippedBody codecs,
      bind, Except.bind, hlen, and_false]
    rfl
  have hhandle := hblocks.materializeEntries codecs _ _ hbody hplain hcrc hentries hcount hindex
  have hopen := hblocks.openOn codecs maxSequence bloom
  obtain ⟨hless, hall⟩ := mapM_blockEntries hblocks.sized
  constructor
  · rintro ⟨t', file, entries, hwrite', hperm, hread, opened, hopened, -⟩
    obtain ⟨rfl, rfl⟩ := Prod.mk.inj (Except.ok.inj (hwrite.symm.trans hwrite'))
    obtain ⟨read, hok, rfl, hsame⟩ := (hhandle entries).mp hread
    have hhash := (hless read hok).2 hsame.ge
    rw [hall hhash] at hok
    obtain rfl := Except.ok.inj hok
    rw [hopen] at hopened
    obtain ⟨hfew, horder⟩ :=
      (hblocks.decodeV2OrV3 codecs hmax hdecode hactive (hall hhash) hsame).1 opened hopened
    rw [← map_flatten] at hperm horder
    rw [hflatten, inOrder_sortByKey] at horder
    exact ⟨hne, (put_perm_iff env run).mp hperm, pairwise_map.mp horder, hlength ▸ hfew, hhash⟩
  · intro h
    have hread := hall h.hash
    have hsame : ((runBlocks env run).map fun b => b.map put).flatten.length =
        (runBlocks env run).flatten.length := by
      rw [← map_flatten, length_map]
    have horder : InOrder ((runBlocks env run).map fun b => b.map put).flatten := by
      rw [← map_flatten, hflatten, inOrder_sortByKey]
      exact pairwise_map.mpr h.ordered
    obtain ⟨opened, hopened, hresident, hplain', hcrc', hentries', hcount', hindex'⟩ :=
      (hblocks.decodeV2OrV3 codecs hmax hdecode hactive hread hsame).2 (hlength ▸ h.count) horder
    refine ⟨t, _, _, hwrite, ?_, (hhandle _).mpr ⟨_, hread, rfl, hsame⟩, opened,
      hopen.trans hopened, ?_⟩
    · rw [← map_flatten]
      exact (put_perm_iff env run).mpr h.values
    · have hpos : opened.payload ≠ [] := by
        rw [hresident]
        exact ne_nil_of_length_pos (by rw [bulkBody_length]; omega)
      exact (hblocks.materializeEntries codecs maxSequence bloom
        (by rw [body, if_pos hpos, hresident]) hplain' hcrc' hentries' hcount' hindex' _).mpr
        ⟨_, hread, rfl, hsame⟩

/-- A run with three entries of ascending keys. -/
def loadedRun : BulkRun := ⟨defaultFamily, numberPuts 4 [([6], [5, 5]), ([7], []), ([7, 8], [5])]⟩

theorem bulk_run_keeps_versions_loaded :
    ∃ t file entries, writeBulkRunSst (castagnoli fun _ => none) none loadedRun = .ok (t, file) ∧
    entries.Perm loadedRun.entries ∧
      t.materializeEntries (castagnoli fun _ => none) file = .ok entries ∧
      ∃ opened, SstTable.openOn (castagnoli fun _ => none) file = .ok opened ∧
        opened.materializeEntries (castagnoli fun _ => none) file = .ok entries := by
  refine (bulk_run_keeps_versions _ none loadedRun ⟨fun v hv => ?_, by decide⟩).mpr
    ⟨by decide, by decide, by decide, by decide, by decide +kernel⟩
  have hsmall : v.key.length + v.value.length ≤ 3 ∧ v.sequence ≤ 6 := by
    revert v
    decide
  exact ⟨by simp only [entryTruncFlag]; omega, by omega, le_trans hsmall.2 (by decide)⟩

/-- What the handle of a run's file and the file, opened again, give. -/
def readBack (run : BulkRun) : Except SstError
    (Except SstError (List WriteOp) × Except SstError (List WriteOp)) := do
  let (t, file) ← writeBulkRunSst (castagnoli fun _ => none) none run
  return (t.materializeEntries (castagnoli fun _ => none) file, do
    (← openOn (castagnoli fun _ => none) file).materializeEntries (castagnoli fun _ => none) file)

/-- The run of a family whose memtable has a value and a deletion. -/
def absorbedRun : List BulkRun :=
  (absorbMemFamilyIntoRun [.put 1 [6] [5], .delete 2 [7]] [] defaultFamily).2

/-- A value that ends like a hash of keys. -/
def hashLike : Value := [0xc4, 0xb0, 0x36, 0x02, 255, 255, 255, 255, 255, 255, 255, 255, 8, 0]

set_option maxRecDepth 20000 in
/-- **A deletion becomes a value, a key that is put again makes a file that cannot be opened,
and so does a value that ends like a hash of keys.** -/
theorem bulk_run_changed : absorbedRun = [⟨defaultFamily, [.put 1 [6] [5], .delete 2 [7]]⟩] ∧
    absorbedRun.map readBack =
    [.ok (.ok [.put 1 [6] [5], .put 2 [7] []], .ok [.put 1 [6] [5], .put 2 [7] []])] ∧
    (pushRun defaultFamily (numberPuts 3 [([6], [8])]) absorbedRun).map readBack =
      [.ok (.ok [.put 1 [6] [5], .put 3 [6] [8], .put 2 [7] []], .error .notSorted)] ∧
    (pushRun defaultFamily (numberPuts 1 [([6], hashLike)]) []).map readBack =
    [.ok (.error .truncated, .error .truncated)] := by
  refine ⟨by decide, ?_, ?_, ?_⟩ <;> decide +kernel

end PedraDb.Sst
