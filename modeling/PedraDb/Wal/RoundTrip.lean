import PedraDb.Wal.Reader
import PedraDb.Wal.Writer

/-! What the reader makes of a framed log.

`Framed` is the shape of a record's fragments, without the loop's turns. The reader's
position in the rest of a log is `At`. One turn reads one fragment (`turn_fragment`), a
record is read in as many turns as it has fragments (`readLoop_framed`), and a log is read
record by record (`recover_frameAt`).

Two frames are not read back: one whose checksum is the magic number of a seal, and a
record whose first fragment came out empty because exactly a header was left in its
block. `legible` rules out both. -/
namespace PedraDb.Wal
open List Fragment
variable {t : RecordType} {rest : Bytes}
variable {r : Reader} {b pad : Nat} {data : Bytes} {crc : Crc} {fs : List Fragment} {stop : Nat}
    {payload more : Bytes}

/-! ### The shape of a framed record -/

/-- Where the next header goes. -/
def entry (blockOffset : Nat) : Nat := if blockSize - blockOffset < headerSize then 0 else blockOffset

def padding (blockOffset : Nat) : Nat :=
  if blockSize - blockOffset < headerSize then blockSize - blockOffset else 0

theorem entry_le (b : Nat) : entry b + headerSize ≤ blockSize := by
  unfold entry
  split <;> simp only [blockSize, headerSize] at * <;> omega

/-- Fragments that carry a record from one offset of a block to another. -/
inductive Framed : Nat → Bool → Bytes → List Fragment → Nat → Prop where
  /-- The rest of the record fits. -/
  | fits (b : Nat) (begin' : Bool) (data : Bytes)
    (hfit : entry b + headerSize + data.length ≤ blockSize) :
      Framed b begin' data [⟨padding b, fragmentType begin' true, data⟩]
      (entry b + headerSize + data.length)
  /-- It does not: the fragment fills the block. -/
  | splits (b : Nat) (begin' : Bool) {stop : Nat} {payload rest : Bytes} {more : List Fragment}
      (hfull : entry b + headerSize + payload.length = blockSize) (hrest : rest ≠ [])
      (hmore : Framed blockSize false rest more stop) :
      Framed b begin' (payload ++ rest) (⟨padding b, fragmentType begin' false, payload⟩ :: more) stop

variable {begin' : Bool}

theorem Framed.one_le (h : Framed b begin' data fs stop) : 1 ≤ fs.length := by
  cases h <;> simp

/-- There are turns enough: one for every byte left, and one more unless this fragment
takes some. -/
theorem fragmentLoop_framed (n b : Nat) (begin' : Bool) (data : Bytes)
    (hn : data.length < n ∨ 0 < blockSize - entry b - headerSize ∧ data ≠ [] ∧ data.length ≤ n) :
    Framed b begin' data (fragmentLoop n b begin' data).1 (fragmentLoop n b begin' data).2 := by
  induction n generalizing b begin' data with
  | zero =>
    rcases hn with h | ⟨_, hne, h⟩
    · omega
    · exact absurd (length_eq_zero_iff.mp (by omega)) hne
  | succ n ih =>
    have hle := entry_le b
    by_cases hrest : data.drop (blockSize - entry b - headerSize) = []
    · have hlen := drop_eq_nil_iff.mp hrest
      have htake : data.take (blockSize - entry b - headerSize) = data := take_of_length_le hlen
      simp only [fragmentLoop, ← entry.eq_def, ← padding.eq_def, hrest, htake, isEmpty_nil, if_true]
      exact .fits b begin' data (by omega)
    · have hlen : blockSize - entry b - headerSize < data.length :=
        Nat.lt_of_not_le fun h => hrest (drop_eq_nil_iff.mpr h)
      have hfull : entry b + headerSize + (data.take (blockSize - entry b - headerSize)).length =
          blockSize := by
        simp only [length_take]
        omega
      have hempty : (data.drop (blockSize - entry b - headerSize)).isEmpty = false := by
        simpa using hrest
      simp only [fragmentLoop, ← entry.eq_def, ← padding.eq_def, hempty, Bool.false_eq_true,
        if_false, hfull]
      have hmore := ih blockSize false (data.drop (blockSize - entry b - headerSize))
        (.inr ⟨by decide, hrest, by simp only [length_drop]; omega⟩)
      simpa only [take_append_drop] using Framed.splits b begin' hfull hrest hmore

theorem fragmentFrom_framed (b : Nat) (data : Bytes) :
    Framed b true data (fragmentFrom b data).1 (fragmentFrom b data).2 :=
  fragmentLoop_framed (data.length + 1) b true data (.inl (by omega))

section Header
variable (crc : Crc) (t : RecordType) (payload more : Bytes)

theorem record_checksum_field : (physicalRecord crc t payload ++ more).take 4 =
      leBytes 4 (recordChecksum crc t.toByte payload.length payload).toNat := by
  simp [physicalRecord]

theorem record_length_field : ((physicalRecord crc t payload ++ more).drop 4).take 2 =
    leBytes 2 payload.length := by
  simp [physicalRecord]

theorem record_type_field : (physicalRecord crc t payload ++ more).getD 6 0 = t.toByte := by
  simp [physicalRecord, getElem?_append]

theorem record_payload_field :
    ((physicalRecord crc t payload ++ more).drop headerSize).take payload.length = payload := by
  rw [physicalRecord, append_assoc _ payload, drop_left' (by simp [headerSize]), take_left' rfl]

end Header

/-- The reader stands before `rest`, at `b` in its block. -/
structure Reader.At (r : Reader) (b : Nat) (rest : Bytes) : Prop where
  cursor : r.cursor = b
  rest : r.block.drop b ++ r.src = rest
  le : b ≤ r.block.length
  short : r.block.length ≤ blockSize
  full : r.src = [] ∨ r.block.length = blockSize

open Reader

/-- It stands there or has not read anything yet. -/
def Reader.Before (r : Reader) (b : Nat) (rest : Bytes) : Prop :=
  r.At b rest ∨ r.block = [] ∧ r.cursor = 0 ∧ b = 0 ∧ r.src = rest

theorem readNextBlock_at (hlen : headerSize ≤ r.src.length) :
    r.readNextBlock.1 = true ∧ r.readNextBlock.2.lacksHeader = false ∧ r.readNextBlock.2.At 0 r.src := by
  have htake : headerSize ≤ (r.src.take blockSize).length := by
    simp only [length_take, blockSize, headerSize] at *
    omega
  refine ⟨?_, ?_, rfl, take_append_drop blockSize r.src, Nat.zero_le _, length_take_le _ _, ?_⟩
  · cases h : r.src.take blockSize with
    | nil => simp [h, headerSize] at htake
    | cons => simp [readNextBlock, h]
  · simpa [lacksHeader, readNextBlock] using htake
  · by_cases h : blockSize ≤ r.src.length
    · exact .inr (length_take_of_le h)
    · exact .inl (drop_eq_nil_iff.mpr (by omega))

/-- The reader steps over the padding at the end of a block. -/
theorem fill_at (hr : r.Before b (List.replicate (padding b) 0 ++ rest))
    (hlen : headerSize ≤ rest.length) :
    ∃ r', r.fill = (true, r') ∧ r'.At (entry b) rest ∧ r'.scratch = r.scratch := by
  -- in a block that is used up, the rest is what the source still has
  have next (hlack : r.lacksHeader = true) (hsrc : r.src = rest) (hentry : entry b = 0) :
      ∃ r', r.fill = (true, r') ∧ r'.At (entry b) rest ∧ r'.scratch = r.scratch := by
    obtain ⟨hsome, hhas, hat⟩ := readNextBlock_at (r := r) (by rwa [hsrc])
    refine ⟨r.readNextBlock.2, ?_, ?_, rfl⟩
    · simp [fill, hlack, hsome, hhas]
    · rwa [hentry, ← hsrc]
  rcases hr with hat | ⟨hblock, hcursor, hb, hsrc⟩
  · by_cases hb : blockSize - b < headerSize
    · simp only [padding, hb, if_true] at hat
      have hlong := congrArg List.length hat.rest
      simp only [length_append, length_drop, length_replicate] at hlong
      have hshort := hat.short
      have hblock : r.block.length = blockSize := by
        rcases hat.full with h | h
        · rw [h, length_nil] at hlong
          omega
        · exact h
      have hsrc := append_inj_right hat.rest (by simp [hblock])
      refine next ?_ hsrc (by simp [entry, hb])
      simp only [lacksHeader, hat.cursor, hblock, decide_eq_true_eq]
      have := hat.le
      omega
    · simp only [padding, entry, hb, if_false, replicate_zero, nil_append] at hat ⊢
      refine ⟨r, ?_, hat, rfl⟩
      have hlong := congrArg List.length hat.rest
      simp only [length_append, length_drop] at hlong
      have : r.lacksHeader = false := by
        simp only [lacksHeader, hat.cursor, decide_eq_false_iff_not, Nat.not_lt]
        have hpos : headerSize = 7 := rfl
        rcases hat.full with h | h
        · rw [h, length_nil] at hlong
          omega
        · omega
      simp [fill, this]
  · subst hb
    refine next ?_ ?_ rfl
    · simp [lacksHeader, hblock, hcursor, headerSize]
    · simpa [padding, blockSize, headerSize] using hsrc

/-! ### Legible frames -/

/-- The fragment is not taken for a seal, and it does not leave the reader without the
beginning of its record. -/
def Fragment.legible (crc : Crc) (f : Fragment) : Bool :=
  (recordChecksum crc f.t.toByte f.payload.length f.payload).toNat != sealMagic &&
    !(f.t == .first && f.payload.isEmpty)

theorem legible_seal (h : legible crc ⟨pad, t, payload⟩ = true) :
    (recordChecksum crc t.toByte payload.length payload).toNat ≠ sealMagic := by
  simp only [legible, Bool.and_eq_true, bne_iff_ne] at h
  exact h.1

theorem legible_first (h : legible crc ⟨pad, .first, payload⟩ = true) : payload ≠ [] := by
  rintro rfl
  simp [legible] at h

theorem checksum_toNat_lt (crc : Crc) (t : UInt8) (n : Nat) (data : Bytes) :
    (recordChecksum crc t n data).toNat < 256 ^ 4 := UInt32.toNat_lt _

/-- A record that fits its block is read whole. -/
theorem record_in_block {record : Bytes} (hr : r.At b (record ++ more))
    (hfit : b + record.length ≤ blockSize) :
    ∃ more', r.block.drop b = record ++ more' ∧ more' ++ r.src = more := by
  have hlong := congrArg List.length hr.rest
  simp only [length_append, length_drop] at hlong
  have hle : record.length ≤ (r.block.drop b).length := by
    rw [length_drop]
    rcases hr.full with h | h
    · rw [h, length_nil] at hlong
      omega
    · omega
  have htake : (r.block.drop b).take record.length = record := by
    have := congrArg (List.take record.length) hr.rest
    rwa [take_append_of_le_length hle, take_left] at this
  refine ⟨(r.block.drop b).drop record.length, ?_, ?_⟩
  · rw [← htake, length_take_of_le hle, take_append_drop]
  · have := congrArg (List.drop record.length) hr.rest
    rwa [drop_append_of_le_length hle, drop_left] at this

theorem sealTurn_record (hcursor : r.block.drop r.cursor = physicalRecord crc t payload ++ more)
    (hseal : (recordChecksum crc t.toByte payload.length payload).toNat ≠ sealMagic) :
    r.sealTurn crc = none := by
  have hne : ¬ (((r.block.drop r.cursor).take sealFrameLen).take 4 = leBytes 4 sealMagic) := by
    rw [take_take, hcursor, show min 4 sealFrameLen = 4 from rfl, record_checksum_field]
    intro h
    have := congrArg ofLe h
    rw [ofLe_leBytes (checksum_toNat_lt ..), ofLe_leBytes (by decide)] at this
    exact hseal this
  simp [sealTurn, hne]

theorem physical_record (ht : t ≠ .zero)
    (hcursor : r.block.drop r.cursor = physicalRecord crc t payload ++ more)
    (hfit : r.cursor + headerSize + payload.length ≤ blockSize) (hle : r.cursor ≤ r.block.length) :
    r.physical crc = { r with cursor := r.cursor + headerSize + payload.length }.assemble t payload := by
  have hbyte : t.toByte ≠ 0 := by
    cases t <;> first | exact absurd rfl ht | decide
  have hsmall : payload.length < 256 ^ 2 := by
    simp only [blockSize, headerSize] at hfit
    omega
  have hlong := congrArg List.length hcursor
  simp only [length_append, length_drop, physicalRecord_length] at hlong
  have hact : physicalPayloadAct payload.length (blockSize - headerSize)
      (r.cursor + headerSize + payload.length) r.block.length blockSize = .continue := by
    rw [physicalPayloadAct, if_neg (by omega), if_neg (by omega)]
  simp only [physical, hcursor, record_type_field, record_length_field, record_checksum_field,
    ofLe_leBytes hsmall, ofLe_leBytes (checksum_toNat_lt ..), record_payload_field, hbyte,
    false_and, if_false,
    RecordType.fromByte_toByte, hact, ne_eq, not_true_eq_false]

theorem physical_at (ht : t ≠ .zero) (hat : r.At b (physicalRecord crc t payload ++ more))
    (hfit : b + headerSize + payload.length ≤ blockSize) :
    r.physical crc = { r with cursor := b + headerSize + payload.length }.assemble t payload ∧
      Reader.At { r with cursor := b + headerSize + payload.length }
        (b + headerSize + payload.length) more := by
  obtain ⟨more', hblock, hmore⟩ := record_in_block hat (by simp only [physicalRecord_length]; omega)
  have hcursor : r.block.drop r.cursor = physicalRecord crc t payload ++ more' := by
    rw [hat.cursor, hblock]
  refine ⟨?_, rfl, ?_, ?_, hat.short, hat.full⟩
  · rw [physical_record ht hcursor (by rw [hat.cursor]; exact hfit) (by rw [hat.cursor]; exact hat.le),
      hat.cursor]
  · have hdrop := congrArg (List.drop (physicalRecord crc t payload).length) hblock
    rw [drop_drop, drop_left, physicalRecord_length, ← Nat.add_assoc] at hdrop
    show r.block.drop _ ++ r.src = more
    rw [hdrop, hmore]
  · have hlong := congrArg List.length hblock
    simp only [length_append, length_drop, physicalRecord_length] at hlong
    show _ ≤ r.block.length
    have := hat.le
    omega

/-- One turn reads one fragment. -/
theorem turn_fragment (ht : t ≠ .zero) (hr : r.Before b (bytes crc ⟨padding b, t, payload⟩ ++ more))
    (hfit : entry b + headerSize + payload.length ≤ blockSize)
    (hseal : (recordChecksum crc t.toByte payload.length payload).toNat ≠ sealMagic) :
    ∃ r' : Reader, r.turn crc = r'.assemble t payload ∧
    r'.At (entry b + headerSize + payload.length) more ∧
      r'.scratch = r.scratch := by
  rw [bytes, append_assoc] at hr
  obtain ⟨r', hfill, hat, hscratch⟩ := fill_at hr (by simp; omega)
  obtain ⟨more', hblock, -⟩ := record_in_block hat (by simp only [physicalRecord_length]; omega)
  obtain ⟨hphysical, hat'⟩ := physical_at ht hat hfit
  refine ⟨{ r' with cursor := entry b + headerSize + payload.length }, ?_, hat', hscratch⟩
  simp only [turn, hfill, sealTurn_record (by rw [hat.cursor, hblock]) hseal, hphysical]

theorem fragmentType_ne_zero (begin' fin : Bool) : fragmentType begin' fin ≠ .zero := by
  cases begin' <;> cases fin <;> decide

theorem frameBytes_cons (crc : Crc) (f : Fragment) (fs : List Fragment) :
    frameBytes crc (f :: fs) = f.bytes crc ++ frameBytes crc fs := flatMap_cons

theorem frameBytes_append (crc : Crc) (fs gs : List Fragment) :
    frameBytes crc (fs ++ gs) = frameBytes crc fs ++ frameBytes crc gs := flatMap_append

theorem assemble_fin (hscratch : begin' = false → r.scratch ≠ []) (data : Bytes) :
    r.assemble (fragmentType begin' true) data =
      (.yield (if begin' then data else r.scratch ++ data), { r with scratch := [] }) := by
  cases begin' with
  | true => rfl
  | false =>
    have hne : r.scratch.isEmpty = false := by simpa using hscratch rfl
    simp [assemble, fragmentType, fragmentAct, hne]

theorem assemble_split (hscratch : begin' = false → r.scratch ≠ []) (data : Bytes) :
    r.assemble (fragmentType begin' false) data =
      (.next, { r with scratch := if begin' then data else r.scratch ++ data }) := by
  cases begin' with
  | true => rfl
  | false =>
    have hne : r.scratch.isEmpty = false := by simpa using hscratch rfl
    simp [assemble, fragmentType, fragmentAct, hne]

theorem Reader.At.withScratch (h : r.At b rest) (scratch : Bytes) :
    Reader.At { r with scratch := scratch } b rest := { h with }

/-- **A record is read back.** A turn for each fragment; what was read of the record before
is in the scratch. -/
theorem readLoop_framed
    (hf : Framed b begin' data fs stop) {fuel : Nat}
    (hr : r.Before b (frameBytes crc fs ++ more)) (hlegible : fs.all (legible crc) = true)
    (hscratch : begin' = false → r.scratch ≠ []) (hfuel : fs.length ≤ fuel) :
    ∃ r' : Reader, r.readLoop crc fuel = (.ok (some (if begin' then data else r.scratch ++ data)), r') ∧
      r'.At stop more := by
  induction hf generalizing r fuel with
  | fits b begin' data hfit =>
    obtain ⟨n, rfl⟩ : ∃ n, fuel = n + 1 := ⟨fuel - 1, by simp at hfuel; omega⟩
    simp only [all_cons, all_nil, Bool.and_true] at hlegible
    rw [frameBytes_cons, append_assoc] at hr
    obtain ⟨r', hturn, hat, hsame⟩ :=
      turn_fragment (fragmentType_ne_zero begin' true) hr hfit (legible_seal hlegible)
    rw [assemble_fin (hsame ▸ hscratch)] at hturn
    exact ⟨_, by simp [readLoop, hturn, hsame], hat.withScratch []⟩
  | splits b begin' hfull hrest hmore ih =>
    rename_i stop payload rest fs
    obtain ⟨n, rfl⟩ : ∃ n, fuel = n + 1 := ⟨fuel - 1, by simp at hfuel; omega⟩
    rw [all_cons, Bool.and_eq_true] at hlegible
    rw [frameBytes_cons, append_assoc] at hr
    obtain ⟨r', hturn, hat, hsame⟩ :=
      turn_fragment (fragmentType_ne_zero begin' false) hr (Nat.le_of_eq hfull) (legible_seal hlegible.1)
    rw [assemble_split (hsame ▸ hscratch), hsame] at hturn
    rw [hfull] at hat
    generalize hkeep : (if begin' then payload else r.scratch ++ payload) = kept at hturn
    have hkept : kept ≠ [] := by
      subst hkeep
      cases begin' with
      | true => exact legible_first hlegible.1
      | false => simp [hscratch rfl]
    obtain ⟨r₂, hread, hat₂⟩ := ih (.inl (hat.withScratch kept)) hlegible.2 (fun _ => hkept)
      (by simp at hfuel; omega : fs.length ≤ n)
    refine ⟨r₂, ?_, hat₂⟩
    simp only [readLoop, hturn, hread]
    subst hkeep
    cases begin' <;> simp

/-! ### Logs -/

theorem Reader.Before.left (h : r.Before b rest) : r.left = rest.length := by
  rcases h with hat | ⟨hblock, hcursor, _, rfl⟩
  · rw [← hat.rest]
    simp [Reader.left, hat.cursor, Nat.add_comm]
  · simp [Reader.left, hblock, hcursor]

theorem length_le_frameBytes (crc : Crc) (fs : List Fragment) :
    fs.length ≤ (frameBytes crc fs).length := by
  induction fs with
  | nil => exact Nat.zero_le _
  | cons f fs ih =>
    rw [frameBytes_cons, length_append, length_cons]
    have : 1 ≤ (f.bytes crc).length := by simp [bytes, headerSize]; omega
    omega

/-- The fragments of a record are read back as the record. -/
theorem readRecord_framed (hf : Framed b true data fs stop) (hr : r.Before b (frameBytes crc fs ++ more))
    (hlegible : fs.all (legible crc) = true) :
    ∃ r' : Reader, r.readRecord crc = (.ok (some data), r') ∧ r'.At stop more := by
  have hlen := length_le_frameBytes crc fs
  have hfuel : fs.length ≤ r.left + 1 := by
    rw [hr.left, length_append]
    omega
  exact readLoop_framed hf hr hlegible (by simp) hfuel

theorem readRecord_eof (crc : Crc) (hr : r.Before b []) :
    ∃ r' : Reader, r.readRecord crc = (.ok none, r') := by
  have hleft : r.src = [] ∧ r.block.length ≤ r.cursor := by
    rcases hr with hat | ⟨hblock, hcursor, _, hsrc⟩
    · have := append_eq_nil_iff.mp hat.rest
      exact ⟨this.2, by rw [hat.cursor]; exact drop_eq_nil_iff.mp this.1⟩
    · exact ⟨hsrc, by simp [hblock]⟩
  have hlack : r.lacksHeader = true := by
    have hpos : headerSize = 7 := rfl
    simpa [lacksHeader] using (by omega : r.block.length < r.cursor + headerSize)
  have hturn : r.turn crc = (.eof, r.readNextBlock.2) := by
    simp [turn, fill, hlack, readNextBlock, hleft.1]
  exact ⟨r.readNextBlock.2, by simp [readRecord, readLoop, hturn]⟩

/-- The fragments of a list of records from an offset are all legible. -/
def legible (crc : Crc) (blockOffset : Nat) (datas : List Bytes) : Bool :=
  (fragmentAll blockOffset datas).1.all (Fragment.legible crc)

/-- What was framed is collected, record by record. -/
theorem collectLoop_frames (datas out : List Bytes) (skips : Nat) {fuel : Nat}
    (hr : r.Before b (frameBytes crc (fragmentAll b datas).1)) (hlegible : legible crc b datas = true)
    (hfuel : datas.length < fuel) : (r.collectLoop crc fuel out skips false).1 =
    (out ++ datas, none) := by
  induction datas generalizing b fuel skips r out with
  | nil =>
    obtain ⟨n, rfl⟩ : ∃ n, fuel = n + 1 := ⟨fuel - 1, by omega⟩
    obtain ⟨r', hread⟩ := readRecord_eof crc hr
    simp [Reader.collectLoop, hread, recoverKindFromRead, isLengthResyncable, recoverCollectAct]
  | cons data rest ih =>
    obtain ⟨n, rfl⟩ : ∃ n, fuel = n + 1 := ⟨fuel - 1, by omega⟩
    simp only [legible, fragmentAll, all_append, Bool.and_eq_true] at hlegible
    simp only [fragmentAll, frameBytes_append] at hr
    obtain ⟨r', hread, hat⟩ := readRecord_framed (fragmentFrom_framed b data) hr hlegible.1
    have hnext := ih (out ++ [data]) 0 (r := r'.keepRecord false)
      (.inl { hat with }) hlegible.2
      (by simpa using hfuel : rest.length < n)
    simpa [Reader.collectLoop, hread, recoverKindFromRead, isLengthResyncable, recoverCollectAct]
      using hnext

variable (crc)

theorem datas_length_le (b : Nat) (datas : List Bytes) :
    datas.length ≤ (frameBytes crc (fragmentAll b datas).1).length := by
  induction datas generalizing b with
  | nil => exact Nat.zero_le _
  | cons data rest ih =>
    have hone := (fragmentFrom_framed b data).one_le
    have hbytes := length_le_frameBytes crc (fragmentFrom b data).1
    have hrest := ih (fragmentFrom b data).2
    simp only [fragmentAll, frameBytes_append, length_append, length_cons]
    omega

/-- **A log is read back.** Recovery of framed records returns them all, in order. -/
theorem recover_frames (datas : List Bytes) (hlegible : legible crc 0 datas = true) :
    recover crc (frameBytes crc (fragmentAll 0 datas).1) = .ok datas := by
  have hlen := datas_length_le crc 0 datas
  generalize hfile : frameBytes crc (fragmentAll 0 datas).1 = file at hlen ⊢
  have hr : (Reader.new file).Before 0 (frameBytes crc (fragmentAll 0 datas).1) :=
    .inr ⟨rfl, rfl, rfl, hfile.symm⟩
  have hcollect : ((Reader.new file).collectPrefixAll crc).1 = (datas, none) :=
    collectLoop_frames datas [] 0 hr hlegible (by simp [Reader.new]; omega)
  rw [recover, collectAll]
  generalize (Reader.new file).collectPrefixAll crc = collected at hcollect ⊢
  obtain ⟨⟨out, err⟩, r⟩ := collected
  obtain ⟨rfl, rfl⟩ : out = datas ∧ err = none := by simpa using hcollect
  rfl

/-! ### Frames at an offset of the file -/

theorem padding_add (b : Nat) (hb : b ≤ blockSize) :
    b + padding b = entry b ∨ b + padding b = blockSize + entry b := by
  simp only [padding, entry]
  by_cases h : blockSize - b < headerSize
  · simp only [h, if_true]
    omega
  · simp [h]

theorem Fragment.bytes_length (f : Fragment) :
    (f.bytes crc).length = f.pad + headerSize + f.payload.length := by
  simp [bytes, Nat.add_assoc]

theorem Framed.stop_le (h : Framed b begin' data fs stop) : stop ≤ blockSize := by
  induction h with
  | fits b begin' data hfit => exact hfit
  | splits b begin' hfull hrest hmore ih => exact ih

theorem Framed.length_le (h : Framed b begin' data fs stop) :
    headerSize + data.length ≤ (frameBytes crc fs).length := by
  induction h with
  | fits b begin' data hfit | splits b begin' hfull hrest hmore ih =>
    simp only [frameBytes_cons, length_append, bytes_length]
    omega

/-- The offset a record leaves is where its bytes end. -/
theorem Framed.stop_mod (h : Framed b begin' data fs stop) (hb : b ≤ blockSize) :
    (b + (frameBytes crc fs).length) % blockSize = stop % blockSize := by
  induction h with
  | fits b begin' data hfit =>
    simp only [frameBytes_cons, length_append, bytes_length]
    rcases padding_add b hb with h | h
    · rw [show b + (padding b + headerSize + data.length + (frameBytes crc []).length) =
        entry b + headerSize + data.length by rw [← h]; simp [frameBytes]; omega]
    · rw [show b + (padding b + headerSize + data.length + (frameBytes crc []).length) =
        blockSize + (entry b + headerSize + data.length) by simp [frameBytes]; omega, Nat.add_mod_left]
  | splits b begin' hfull hrest hmore ih =>
    rename_i stop payload rest more
    rw [← ih .refl]
    simp only [frameBytes_cons, length_append, bytes_length]
    rcases padding_add b hb with h | h
    · rw [show b + (padding b + headerSize + payload.length + (frameBytes crc more).length) =
        blockSize + (frameBytes crc more).length by omega]
    · rw [show b + (padding b + headerSize + payload.length + (frameBytes crc more).length) =
        blockSize + (blockSize + (frameBytes crc more).length) by omega, Nat.add_mod_left]

/-- The end of one block is the start of the next. -/
theorem fragmentFrom_blockSize (data : Bytes) : fragmentFrom blockSize data = fragmentFrom 0 data := by
  simp [fragmentFrom, fragmentLoop, blockSize, headerSize]

theorem fragmentAll_mod (b : Nat) (hb : b ≤ blockSize) (datas : List Bytes) :
    (fragmentAll b datas).1 = (fragmentAll (b % blockSize) datas).1 := by
  rcases Nat.lt_or_eq_of_le hb with h | rfl
  · rw [Nat.mod_eq_of_lt h]
  · cases datas with
    | nil => rfl
    | cons data rest => simp [fragmentAll, fragmentFrom_blockSize]

theorem fragmentAll_stop (datas : List Bytes) (hb : b ≤ blockSize) : (fragmentAll b datas).2 ≤ blockSize ∧
      (b + (frameBytes crc (fragmentAll b datas).1).length) % blockSize =
      (fragmentAll b datas).2 % blockSize := by
  induction datas generalizing b with
  | nil => exact ⟨hb, rfl⟩
  | cons data rest ih =>
    have hframed := fragmentFrom_framed b data
    obtain ⟨hle, hmod⟩ := ih hframed.stop_le
    refine ⟨hle, ?_⟩
    simp only [fragmentAll, frameBytes_append, length_append]
    rw [← hmod, ← Nat.add_assoc, Nat.add_mod, hframed.stop_mod crc hb, ← Nat.add_mod]

theorem fragmentAll_append (b : Nat) (xs ys : List Bytes) :
    (fragmentAll b (xs ++ ys)).1 = (fragmentAll b xs).1 ++ (fragmentAll (fragmentAll b xs).2 ys).1 := by
  induction xs generalizing b with
  | nil => rfl
  | cons data xs ih => simp [fragmentAll, ih]

section
variable (crc : Crc)

/-- The frame of records that starts at an offset of the file. -/
def frameAt (offset : Nat) (datas : List Bytes) : Bytes :=
  frameBytes crc (fragmentAll (offset % blockSize) datas).1

def legibleAt (offset : Nat) (datas : List Bytes) : Bool := legible crc (offset % blockSize) datas

section
variable (offset : Nat)
include offset

@[simp] theorem frameAt_nil : frameAt crc offset [] = [] := rfl

@[simp] theorem legibleAt_nil : legibleAt crc offset [] = true := rfl

variable (xs ys : List Bytes)

theorem fragmentAll_after : (fragmentAll (fragmentAll (offset % blockSize) xs).2 ys).1 =
      (fragmentAll ((offset + (frameAt crc offset xs).length) % blockSize) ys).1 := by
  have hb : offset % blockSize ≤ blockSize := Nat.le_of_lt (Nat.mod_lt _ (by decide))
  obtain ⟨hle, hmod⟩ := fragmentAll_stop crc xs hb
  rw [fragmentAll_mod _ hle, ← hmod, Nat.mod_add_mod, frameAt]

theorem frameAt_append : frameAt crc offset (xs ++ ys) =
      frameAt crc offset xs ++ frameAt crc (offset + (frameAt crc offset xs).length) ys := by
  rw [frameAt, fragmentAll_append _ xs ys, frameBytes_append, fragmentAll_after crc]
  rfl

theorem legibleAt_append : legibleAt crc offset (xs ++ ys) =
      (legibleAt crc offset xs && legibleAt crc (offset + (frameAt crc offset xs).length) ys) := by
  rw [legibleAt, legible, fragmentAll_append _ xs ys, all_append, fragmentAll_after crc]
  rfl

theorem frameAt_pos {datas : List Bytes} (h : datas ≠ []) : 0 < (frameAt crc offset datas).length := by
  have := datas_length_le crc (offset % blockSize) datas
  have : 0 < datas.length := length_pos_iff.mpr h
  unfold frameAt
  omega

end

end

/-- A record that fits the block is one fragment. -/
theorem fragmentFrom_fits (hfit : entry b + headerSize + data.length ≤ blockSize) :
    fragmentFrom b data = ([⟨padding b, .full, data⟩], entry b + headerSize + data.length) := by
  have hdrop : data.drop (blockSize - entry b - headerSize) = [] := drop_eq_nil_iff.mpr (by omega)
  have htake : data.take (blockSize - entry b - headerSize) = data := take_of_length_le (by omega)
  simp only [fragmentFrom, fragmentLoop, ← entry.eq_def, ← padding.eq_def, hdrop, htake,
    isEmpty_nil, if_true]
  rfl

theorem frameAt_single_length (crc : Crc) (offset : Nat) (data : Bytes)
    (hfit : offset % blockSize + headerSize + data.length ≤ blockSize) :
    (frameAt crc offset [data]).length = headerSize + data.length := by
  have hleft : ¬ blockSize - offset % blockSize < headerSize := by omega
  have hentry : entry (offset % blockSize) = offset % blockSize := by simp [entry, hleft]
  have hpad : padding (offset % blockSize) = 0 := by simp [padding, hleft]
  simp [frameAt, fragmentAll, fragmentFrom_fits (hentry.symm ▸ hfit), hpad, frameBytes, bytes]

theorem takePreframedLayout_spec {b' : Nat}
    (h : takePreframedLayout b (headerSize + data.length) = some (pad, b')) :
    fragmentFrom b data = ([⟨pad, .full, data⟩], b') := by
  by_cases hleft : blockSize - b < headerSize
  · have hentry : entry b = 0 := by simp [entry, hleft]
    simp only [takePreframedLayout, hleft, if_true, Option.ite_none_left_eq_some, Option.some.injEq,
      Prod.mk.injEq] at h
    obtain ⟨_, hroom, rfl, rfl⟩ := h
    rw [fragmentFrom_fits (by omega), hentry, Nat.add_assoc]
    simp [padding, hleft]
  · have hentry : entry b = b := by simp [entry, hleft]
    simp only [takePreframedLayout, hleft, if_false, Option.ite_none_left_eq_some,
      Option.some.injEq, Prod.mk.injEq] at h
    obtain ⟨_, hroom, rfl, rfl⟩ := h
    rw [fragmentFrom_fits (by omega), hentry, Nat.add_assoc]
    simp [padding, hleft]

/-- Inside a block a frame does not depend on where it starts. -/
theorem fragmentAll_shift (crc : Crc) (n : Nat) (datas : List Bytes)
    (hfit : b + (frameBytes crc (fragmentAll b datas).1).length + n ≤ blockSize) :
    (fragmentAll (b + n) datas).1 = (fragmentAll b datas).1 := by
  induction datas generalizing b with
  | nil => rfl
  | cons data rest ih =>
    have hlen := (fragmentFrom_framed b data).length_le crc
    simp only [fragmentAll, frameBytes_append, length_append] at hfit ⊢
    have hentry (x : Nat) (h : x + headerSize ≤ blockSize) : entry x = x ∧ padding x = 0 := by
      have : ¬ blockSize - x < headerSize := by omega
      simp [entry, padding, this]
    obtain ⟨hb, hb'⟩ := hentry b (by omega)
    obtain ⟨hbn, hbn'⟩ := hentry (b + n) (by omega)
    have hfrom : fragmentFrom b data = ([⟨0, .full, data⟩], b + headerSize + data.length) := by
      rw [fragmentFrom_fits (by omega), hb, hb']
    have hfrom' : fragmentFrom (b + n) data = ([⟨0, .full, data⟩], b + headerSize + data.length + n) := by
      rw [fragmentFrom_fits (by omega), hbn, hbn', show b + n + headerSize + data.length =
        b + headerSize + data.length + n by omega]
    rw [hfrom] at hfit hlen ⊢
    dsimp only at hfit hlen ⊢
    rw [hfrom', ih (by omega)]

/-- A frame that stays in its block does not depend on where it stands. -/
theorem frameAt_shift (crc : Crc) (offset n : Nat) (datas : List Bytes)
    (hfit : offset % blockSize + (frameAt crc offset datas).length + n ≤ blockSize) :
    frameAt crc (offset + n) datas = frameAt crc offset datas ∧
      legibleAt crc (offset + n) datas = legibleAt crc offset datas := by
  have hsame : (fragmentAll ((offset + n) % blockSize) datas).1 =
      (fragmentAll (offset % blockSize) datas).1 := by
    rw [← fragmentAll_shift crc n datas hfit, fragmentAll_mod (offset % blockSize + n) (by omega),
      Nat.mod_add_mod]
  exact ⟨by rw [frameAt, hsame, frameAt], by rw [legibleAt, legible, hsame, legibleAt, legible]⟩

end PedraDb.Wal
