import PedraDb.Wal.Offsets

/-! Appending records and reading them back.

A writer is opened at the end of a file, whatever that holds, and appends records one at a
time or several with one write. What it adds is the framing of the records from the offset
it started at (`appendAll_file`). Reading from that offset gives the records back, and
reading from the start gives them after those that were there (`appended_read_back`).

There is one exception. Where exactly a header is left of the block, a record that is not
empty gets a first fragment without payload, and the reader takes the next one for an
orphan (`orphan_after_header_room`). `roomFor` says that no record is put there. -/
namespace PedraDb.Wal
open List Reader Writer
variable {crc : Crc} {datas : List Bytes} {data buf : Bytes} {r : Reader} {b : Nat}

/-! ### Appending -/

namespace Writer

/-- A writer at the end of a file; with a limit of zero nothing is staged. -/
def openEnd (stagedMax : Nat) (file : Bytes) : Writer :=
  { blockOffset := file.length % blockSize, position := file.length, frame := [],
    staged := if 0 < stagedMax then some ⟨file.length, [], stagedMax⟩ else none,
    reservedTo := file.length, completed := [], file := file }

/-- What both do with a frame: what is staged goes first. -/
def writeDirect (w : Writer) (buf : Bytes) (drain sink : Sink) : Bool × Writer :=
  match { w with frame := [] }.drainStaged drain with
  | (false, w) => (false, w)
  | (true, w) => w.writeOwned buf sink

def addRecord (crc : Crc) (w : Writer) (data : Bytes) (drain sink : Sink) : Bool × Writer :=
  let (fragments, blockOffset) := fragmentFrom w.blockOffset data
  { w with blockOffset := blockOffset }.writeDirect (frameBytes crc fragments) drain sink

/-- Several records with one write. -/
def addRecords (crc : Crc) (w : Writer) (datas : List Bytes) (drain sink : Sink) : Bool × Writer :=
  if datas.isEmpty then (true, w)
  else
    let (fragments, blockOffset) := fragmentAll w.blockOffset datas
    { w with blockOffset := blockOffset }.writeDirect (frameBytes crc fragments) drain sink

end Writer

inductive Append where
  | one (data : Bytes)
  | many (datas : List Bytes)
  deriving DecidableEq

def Append.records : Append → List Bytes
  | .one data => [data]
  | .many datas => datas

def Append.run (crc : Crc) (w : Writer) : Append → Bool × Writer
  | .one data => w.addRecord crc data .ok .ok
  | .many datas => w.addRecords crc datas .ok .ok

/-- The calls one after the other, until one fails. -/
def appendAll (crc : Crc) : Writer → List Append → Bool × Writer
  | w, [] => (true, w)
  | w, call :: rest =>
    match call.run crc w with
    | (false, w) => (false, w)
    | (true, w) => appendAll crc w rest

def recordsOf (calls : List Append) : List Bytes := calls.flatMap Append.records

/-! ### What is appended -/

theorem writeAt_end (file buf : Bytes) : writeAt file file.length buf = file ++ buf := by
  simp [writeAt]

/-- Everything that was handed over is in the file. -/
structure Writer.Idle (w : Writer) : Prop where
  staged : ∀ st, w.staged = some st → st.buf = []
  position : w.position = w.file.length
  reserved : w.reservedTo = w.file.length
  completed : w.completed = []

/-- The offset in the block is that of the end of the file. -/
structure Writer.Aligned (w : Writer) : Prop where
  le : w.blockOffset ≤ blockSize
  mod : w.blockOffset % blockSize = w.file.length % blockSize

theorem Writer.openEnd_aligned (stagedMax : Nat) (file : Bytes) : (openEnd stagedMax file).Aligned :=
  ⟨Nat.le_of_lt (Nat.mod_lt _ (by decide)), Nat.mod_mod _ _⟩

theorem Writer.openEnd_idle (stagedMax : Nat) (file : Bytes) : (openEnd stagedMax file).Idle := by
  refine ⟨fun st hst => ?_, rfl, rfl, rfl⟩
  simp only [openEnd] at hst
  split at hst
  · rw [← Option.some.inj hst]
  · cases hst

section
variable {w : Writer}

theorem drainStaged_idle (h : w.Idle) (sink : Sink) : w.drainStaged sink = (true, w) := by
  rw [drainStaged]
  cases hst : w.staged with
  | none => rfl
  | some st => simp [h.staged st hst]

theorem writeOwned_idle (h : w.Idle) (hne : buf ≠ []) :
    w.writeOwned buf .ok = (true, { w with
      file := w.file ++ buf
      position := w.file.length + buf.length
      reservedTo := w.file.length + buf.length }) := by
  simp [writeOwned, hne, reservePending, Sink.isOk, Sink.emit, h.reserved, writeAt_end, commitPwrite,
    h.position, h.completed, advance]

theorem writeDirect_idle (h : w.Idle) (hne : buf ≠ []) :
    ∃ w', w.writeDirect buf .ok .ok = (true, w') ∧ w'.Idle ∧ w'.blockOffset = w.blockOffset ∧
    w'.file = w.file ++ buf := by
  have hcleared : Writer.Idle { w with frame := [] } := { h with }
  rw [writeDirect, drainStaged_idle hcleared]
  refine ⟨_, writeOwned_idle hcleared hne, ⟨h.staged, ?_, ?_, h.completed⟩, rfl, rfl⟩
  all_goals exact length_append.symm

theorem addRecords_idle (h : w.Idle) (ha : w.Aligned) (datas : List Bytes) :
    ∃ w', w.addRecords crc datas .ok .ok = (true, w') ∧ w'.Idle ∧ w'.Aligned ∧
      w'.file = w.file ++ frameAt crc w.file.length datas := by
  rw [addRecords]
  split
  · rename_i hnil
    exact ⟨w, rfl, h, ha, by simp [List.isEmpty_iff.mp hnil]⟩
  rename_i hne
  have hframe : frameBytes crc (fragmentAll w.blockOffset datas).1 = frameAt crc w.file.length datas := by
    rw [frameAt, ← ha.mod, ← fragmentAll_mod w.blockOffset ha.le]
  have hpos := frameAt_pos crc w.file.length (by simpa using hne : datas ≠ [])
  obtain ⟨hle, hmod⟩ := fragmentAll_stop crc datas ha.le
  have hmoved : Writer.Idle { w with blockOffset := (fragmentAll w.blockOffset datas).2 } :=
    { h with }
  have hne : frameBytes crc (fragmentAll w.blockOffset datas).1 ≠ [] := by
    rw [hframe]
    exact ne_nil_of_length_pos hpos
  obtain ⟨w', hw', hidle, hblock, hfile⟩ := writeDirect_idle hmoved hne
  refine ⟨w', hw', hidle, ⟨hblock ▸ hle, ?_⟩, by rw [hfile, hframe]⟩
  rw [hblock, hfile, length_append, ← hmod, Nat.add_mod, ha.mod, ← Nat.add_mod]

theorem addRecord_eq (w : Writer) (data : Bytes) (drain sink : Sink) :
    w.addRecord crc data drain sink = w.addRecords crc [data] drain sink := by
  simp [addRecord, addRecords, fragmentAll]

variable (crc) in
theorem Append.run_idle (h : w.Idle) (ha : w.Aligned) (call : Append) :
    ∃ w', call.run crc w = (true, w') ∧ w'.Idle ∧ w'.Aligned ∧
      w'.file = w.file ++ frameAt crc w.file.length call.records := by
  cases call with
  | one data =>
    rw [Append.run, addRecord_eq]
    exact addRecords_idle h ha [data]
  | many datas => exact addRecords_idle h ha datas

variable (crc) in
/-- **What a run of appends adds** is the framing of its records. -/
theorem appendAll_file (calls : List Append) (h : w.Idle) (ha : w.Aligned) :
    ∃ w', appendAll crc w calls = (true, w') ∧ w'.file =
    w.file ++ frameAt crc w.file.length (recordsOf calls) := by
  induction calls generalizing w with
  | nil => exact ⟨w, rfl, by simp [recordsOf]⟩
  | cons call rest ih =>
    obtain ⟨w₁, hrun, hidle, haligned, hfile⟩ := call.run_idle crc h ha
    obtain ⟨w', hw', hfile'⟩ := ih hidle haligned
    refine ⟨w', by simp [appendAll, hrun, hw'], ?_⟩
    have hrecords : recordsOf (call :: rest) = call.records ++ recordsOf rest := flatMap_cons
    rw [hfile', hfile, hrecords, frameAt_append, append_assoc, length_append]

end

/-- A reader whose first record is at an offset of the file; none when that is past the end. -/
def Reader.fromOffset (file : Bytes) (offset : Nat) : Option Reader :=
  let blockStart := offset / blockSize * blockSize
  let r := { Reader.new (file.drop blockStart) with blockStart := blockStart, lastGoodOffset := offset }
  match r.readNextBlock with
  | (false, r) => some r
  | (true, r) =>
    let within := offset - blockStart
    if r.block.length < within then none else some { r with cursor := within }

theorem fromOffset_before (pre more : Bytes) :
    ∃ r : Reader, fromOffset (pre ++ more) pre.length = some r ∧ r.Before (pre.length % blockSize) more ∧
      r.total = (pre ++ more).length ∧ r.lastGoodOffset = pre.length := by
  have hpos : 0 < blockSize := by decide
  have hdiv := Nat.div_add_mod' pre.length blockSize
  have hlt := Nat.mod_lt pre.length hpos
  rw [fromOffset]
  generalize pre.length / blockSize * blockSize = start at hdiv ⊢
  generalize pre.length % blockSize = b at hdiv hlt ⊢
  have hb : (pre.drop start).length = b := by
    rw [length_drop]
    omega
  have hdrop : (pre ++ more).drop start = pre.drop start ++ more := drop_append_of_le_length (by omega)
  have hsplit : ((pre ++ more).drop start).drop b = more := by rw [hdrop, ← hb, drop_left]
  have hlong : ((pre ++ more).drop start).length = b + more.length := by rw [hdrop, length_append, hb]
  have htotal : (pre ++ more).length = start + (b + more.length) := by
    rw [length_append]
    omega
  generalize (pre ++ more).drop start = src at hsplit hlong ⊢
  by_cases hsrc : src = []
  · -- the file ends with a block
    subst hsrc
    obtain ⟨rfl, rfl⟩ : b = 0 ∧ more = [] := ⟨by simp at hlong; omega, by simpa using hsplit.symm⟩
    refine ⟨_, rfl, .inr ⟨rfl, rfl, rfl, rfl⟩, ?_, rfl⟩
    simpa [Reader.total, Reader.new, readNextBlock] using htotal.symm
  · have hsome : (!(src.take blockSize).isEmpty) = true := by
      simpa [Nat.pos_iff_ne_zero.mp hpos] using hsrc
    have hle : b ≤ (src.take blockSize).length := by
      rw [length_take]
      omega
    simp only [readNextBlock, Reader.new, hsome, length_nil, Nat.add_zero]
    rw [show pre.length - start = b by omega, if_neg (Nat.not_lt.mpr hle)]
    refine ⟨_, rfl, .inl ⟨rfl, ?_, hle, length_take_le _ _, ?_⟩, ?_, rfl⟩
    · show (src.take blockSize).drop b ++ src.drop blockSize = more
      rw [← drop_append_of_le_length hle, take_append_drop, hsplit]
    · show src.drop blockSize = [] ∨ (src.take blockSize).length = blockSize
      rw [drop_eq_nil_iff, length_take]
      omega
    · simp only [Reader.total, length_take, length_drop]
      omega

theorem collectAll_records (hr : r.Before b (frameBytes crc (fragmentAll b datas).1))
    (hlegible : legible crc b datas = true) :
    ∃ r' : Reader, r.collectAll crc = (.ok datas, r') ∧
      (datas = [] ∧ r'.lastGoodOffset = r.lastGoodOffset ∨ r'.lastGoodOffset = r.total) := by
  have hlen := datas_length_le crc b datas
  have hleft := hr.left
  obtain ⟨n, hn⟩ : ∃ n, 2 * (r.src.length + r.block.length) + 2 = datas.length + (n + 1) :=
    ⟨2 * (r.src.length + r.block.length) + 1 - datas.length, by simp only [left] at hleft; omega⟩
  obtain ⟨r₁, skips, hloop, hbefore, -, -, -, -, hgood⟩ :=
    collectLoop_records datas [] 0 (n + 1) (by rwa [append_nil]) hlegible
  obtain ⟨r', heof, hsame, -⟩ := collectLoop_eof ([] ++ datas) skips n hbefore
  refine ⟨r', ?_, ?_⟩
  · rw [collectAll, collectPrefixAll, hn, hloop, heof]
    rfl
  · rw [hsame]
    simpa using hgood

/-! ### Records that are read back -/

/-- No header carries the magic number of a seal for its checksum. -/
def unsealed (crc : Crc) (blockOffset : Nat) (datas : List Bytes) : Bool :=
  (fragmentAll blockOffset datas).1.all fun f =>
    (recordChecksum crc f.t.toByte f.payload.length f.payload).toNat != sealMagic

/-- No record that has bytes starts where exactly a header is left of the block. -/
def roomFor : Nat → List Bytes → Bool
  | _, [] => true
  | b, data :: rest =>
    (data.isEmpty || blockSize - b != headerSize) && roomFor (fragmentFrom b data).2 rest

theorem fragmentType_first {begin' fin : Bool} (h : fragmentType begin' fin = .first) :
    begin' = true ∧ fin = false := by
  revert h
  cases begin' <;> cases fin <;> decide

/-- Only there is a first fragment empty. -/
theorem Framed.first_ne_nil {stop : Nat} {begin' : Bool} {fs : List Fragment}
    (hf : Framed b begin' data fs stop) (hroom : begin' = true → data = [] ∨ blockSize - b ≠ headerSize) :
    ∀ f ∈ fs, f.t = .first → f.payload ≠ [] := by
  induction hf with
  | fits b begin' data hfit =>
    intro f hf ht
    rw [mem_singleton.mp hf] at ht
    exact absurd (fragmentType_first ht).2 (by decide)
  | splits b begin' hfull hrest hmore ih =>
    intro f hf ht
    rcases mem_cons.mp hf with rfl | hf
    · rintro (rfl : _ = [])
      have hroom := hroom (fragmentType_first ht).1
      simp only [nil_append, hrest, false_or] at hroom
      simp only [entry, length_nil] at hfull
      split at hfull <;> simp only [blockSize, headerSize] at * <;> omega
    · exact ih (fun h => absurd h (by decide)) f hf ht

theorem legible_of_roomFor (hseal : unsealed crc b datas = true)
    (hroom : roomFor b datas = true) : legible crc b datas = true := by
  induction datas generalizing b with
  | nil => rfl
  | cons data rest ih =>
    simp only [unsealed, fragmentAll, all_append, Bool.and_eq_true] at hseal
    simp only [roomFor, Bool.and_eq_true, Bool.or_eq_true, List.isEmpty_iff, bne_iff_ne] at hroom
    have hfirst := (fragmentFrom_framed b data).first_ne_nil fun _ => hroom.1
    simp only [legible, fragmentAll, all_append, Bool.and_eq_true]
    refine ⟨all_eq_true.mpr fun f hf => ?_, ih hseal.2 hroom.2⟩
    have hne := hfirst f hf
    simp only [Fragment.legible, Bool.and_eq_true, all_eq_true.mp hseal.1 f hf, true_and]
    simpa [Classical.or_iff_not_imp_left] using hne

/-- A later fragment without the beginning of its record. -/
theorem turn_orphan {t : RecordType} {payload more : Bytes}
    (ht : t = .middle ∨ t = .last) (hr : r.Before b (Fragment.bytes crc ⟨padding b, t, payload⟩ ++ more))
    (hfit : entry b + headerSize + payload.length ≤ blockSize)
    (hseal : (recordChecksum crc t.toByte payload.length payload).toNat ≠ sealMagic)
    (hscratch : r.scratch = []) :
    ∃ r' : Reader, r.turn crc = (.fail (.orphan t r'.streamOffset), r') := by
  have hzero : t ≠ .zero := by rcases ht with rfl | rfl <;> decide
  obtain ⟨r', hturn, -, hsame⟩ := turn_fragment hzero hr hfit hseal
  refine ⟨r', hturn.trans ?_⟩
  rw [assemble, hsame, hscratch]
  rcases ht with rfl | rfl <;> rfl

/-- A record that does start there is not read back: its first fragment leaves nothing in
the scratch, and so the second is an orphan. -/
theorem readRecord_header_room {more : Bytes} (hb : blockSize - b = headerSize)
    (hne : data ≠ []) (hr : r.Before b (frameBytes crc (fragmentFrom b data).1 ++ more))
    (hseal : unsealed crc b [data] = true) :
    ∃ t r', r.readRecord crc = (.error (.orphan t r'.streamOffset), r') := by
  have hentry : entry b = b := by simp [entry, hb]
  have hleft := hr.left
  have hf := fragmentFrom_framed b data
  simp only [unsealed, fragmentAll, append_nil, all_eq_true, bne_iff_ne] at hseal
  generalize fragmentFrom b data = framed at hr hf hseal hleft
  obtain ⟨fs, stop⟩ := framed
  cases hf with
  | fits _ _ _ hfit =>
    have hpos := length_pos_iff.mpr hne
    rw [hentry] at hfit
    omega
  | splits _ _ hfull hrest hmore =>
    rename_i payload rest fs
    obtain rfl : payload = [] := length_eq_zero_iff.mp (by rw [hentry] at hfull; omega)
    rw [frameBytes_cons, append_assoc] at hr
    have hseal₁ := hseal _ mem_cons_self
    obtain ⟨r₁, hturn₁, hat, -⟩ :=
      turn_fragment (fragmentType_ne_zero true false) hr (Nat.le_of_eq hfull) hseal₁
    rw [hfull] at hat
    rw [assemble_split (by simp)] at hturn₁
    rw [frameBytes_cons, append_assoc, length_append, Fragment.bytes_length] at hleft
    obtain ⟨n, hn⟩ : ∃ n, r.left = n + 1 := ⟨r.left - 1, by simp only [headerSize] at hleft; omega⟩
    have second : ∀ t, (∃ r' : Reader, { r₁ with scratch := [] }.turn crc =
      (.fail (.orphan t r'.streamOffset), r')) →
        ∃ (t : RecordType) (r' : Reader), r.readRecord crc =
        (.error (.orphan t r'.streamOffset), r') := by
      rintro t ⟨r', hturn₂⟩
      exact ⟨t, r', by simp [readRecord, hn, readLoop, hturn₁, hturn₂]⟩
    cases hmore with
    | fits _ _ _ hfit =>
      have hseal₂ := hseal _ (mem_cons_of_mem _ mem_cons_self)
      rw [frameBytes_cons, append_assoc] at hat
      exact second .last (turn_orphan (.inr rfl) (.inl (hat.withScratch [])) hfit hseal₂ rfl)
    | splits _ _ hfull' _ _ =>
      have hseal₂ := hseal _ (mem_cons_of_mem _ mem_cons_self)
      rw [frameBytes_cons, append_assoc] at hat
      exact second .middle (turn_orphan (.inl rfl) (.inl (hat.withScratch []))
        (Nat.le_of_eq hfull') hseal₂ rfl)

/-- Where `roomFor` fails there is a first record that starts where it must not. -/
theorem roomFor_split (h : roomFor b datas = false) :
    ∃ before data after, datas = before ++ data :: after ∧ roomFor b before = true ∧ data ≠ [] ∧
      blockSize - (fragmentAll b before).2 = headerSize := by
  induction datas generalizing b with
  | nil => cases h
  | cons data rest ih =>
    rw [roomFor, Bool.and_eq_false_iff] at h
    by_cases hfirst : (data.isEmpty || blockSize - b != headerSize) = true
    · rcases h with hbad | hrest
      · rw [hbad] at hfirst
        cases hfirst
      · obtain ⟨before, data', after, rfl, hroom, hne, hb⟩ := ih hrest
        exact ⟨data :: before, data', after, rfl, by rw [roomFor, hfirst, hroom]; rfl, hne, hb⟩
    · simp only [Bool.or_eq_true, List.isEmpty_iff, bne_iff_ne, not_or, not_not] at hfirst
      exact ⟨[], data, rest, rfl, rfl, hfirst⟩

theorem unsealed_append (before after : List Bytes) :
    unsealed crc b (before ++ after) =
      (unsealed crc b before && unsealed crc (fragmentAll b before).2 after) := by
  rw [unsealed, fragmentAll_append b before after, all_append]
  rfl

/-- The whole log is then refused, whatever comes after that record. -/
theorem collectAll_refused (hr : r.Before b (frameBytes crc (fragmentAll b datas).1))
    (hseal : unsealed crc b datas = true) (hroom : roomFor b datas = false) :
    ∃ (t : RecordType) (offset : Nat) (r' : Reader),
      r.collectAll crc = (.error (.orphan t offset), r') := by
  obtain ⟨before, data, after, rfl, hroom₀, hne, hb⟩ := roomFor_split hroom
  rw [unsealed_append, Bool.and_eq_true] at hseal
  have hseal₁ : unsealed crc (fragmentAll b before).2 [data] = true := by
    have hcons := hseal.2
    rw [← singleton_append, unsealed_append, Bool.and_eq_true] at hcons
    exact hcons.1
  rw [fragmentAll_append b before (data :: after), frameBytes_append, fragmentAll,
    frameBytes_append] at hr
  have hlen := datas_length_le crc b before
  have hleft := hr.left
  rw [length_append] at hleft
  obtain ⟨n, hn⟩ : ∃ n, 2 * (r.src.length + r.block.length) + 2 = before.length + (n + 1) :=
    ⟨2 * (r.src.length + r.block.length) + 1 - before.length, by simp only [left] at hleft; omega⟩
  have hlegible := legible_of_roomFor hseal.1 hroom₀
  obtain ⟨r₁, skips, hloop, hbefore, -⟩ := collectLoop_records before [] 0 (n + 1) hr hlegible
  obtain ⟨t, r', hread⟩ := readRecord_header_room hb hne hbefore hseal₁
  refine ⟨t, r'.streamOffset, r', ?_⟩
  rw [collectAll, collectPrefixAll, hn, hloop]
  simp [collectLoop, hread, recoverKindFromRead, WalError.recoverKind, isLengthResyncable,
    recoverCollectAct]

/-- **Framed records are read back exactly if** none starts where only a header is left. -/
theorem collectAll_iff (hr : r.Before b (frameBytes crc (fragmentAll b datas).1))
    (hseal : unsealed crc b datas = true) :
    (∃ r' : Reader, r.collectAll crc = (.ok datas, r') ∧
      (datas = [] ∧ r'.lastGoodOffset = r.lastGoodOffset ∨ r'.lastGoodOffset = r.total)) ↔
      roomFor b datas = true := by
  refine ⟨fun h => ?_, fun hroom => collectAll_records hr (legible_of_roomFor hseal hroom)⟩
  obtain ⟨r', hread, -⟩ := h
  by_contra hroom
  obtain ⟨t, offset, r'', hrefused⟩ := collectAll_refused hr hseal (by simpa using hroom)
  rw [hread] at hrefused
  cases hrefused

theorem roomFor_mod (hb : b ≤ blockSize) (datas : List Bytes) :
    roomFor b datas = roomFor (b % blockSize) datas := by
  rcases Nat.lt_or_eq_of_le hb with h | rfl
  · rw [Nat.mod_eq_of_lt h]
  · cases datas with
    | nil => rfl
    | cons data rest =>
      rw [roomFor, fragmentFrom_blockSize, roomFor, Nat.mod_self]
      rfl

theorem roomFor_append (before after : List Bytes) :
    roomFor b (before ++ after) =
      (roomFor b before && roomFor (fragmentAll b before).2 after) := by
  induction before generalizing b with
  | nil => rfl
  | cons data rest ih => simp [roomFor, fragmentAll, ih, Bool.and_assoc]

/-- Behind a log, the records are framed from where the log ends. -/
theorem after_log (before datas : List Bytes) :
    roomFor 0 (before ++ datas) =
        (roomFor 0 before && roomFor ((frameAt crc 0 before).length % blockSize) datas) ∧
      unsealed crc 0 (before ++ datas) =
        (unsealed crc 0 before && unsealed crc ((frameAt crc 0 before).length % blockSize) datas) := by
  obtain ⟨hle, hmod⟩ := fragmentAll_stop crc before (Nat.zero_le blockSize)
  rw [Nat.zero_add] at hmod
  rw [roomFor_append, unsealed_append, roomFor_mod hle, unsealed, unsealed, unsealed,
    fragmentAll_mod _ hle, ← hmod]
  exact ⟨rfl, rfl⟩

/-- **Records that were appended are read back exactly if** none that has bytes starts where
only a header is left of the block. The file holds any bytes when the writer is opened. Read
back means: from where it was opened, the records of all calls in order, with the last good
offset at the end of the file. If the file was a log, the same holds of reading it from its
start, with the records it had before them. -/
theorem appended_read_back (crc : Crc) (stagedMax : Nat) (file : Bytes) (calls : List Append)
    (hseal : unsealed crc (file.length % blockSize) (recordsOf calls) = true) :
    ∃ w, appendAll crc (.openEnd stagedMax file) calls = (true, w) ∧
      ((∃ r r' : Reader, Reader.fromOffset w.file file.length = some r ∧
          r.collectAll crc = (.ok (recordsOf calls), r') ∧ r'.lastGoodOffset = w.file.length) ↔
        roomFor (file.length % blockSize) (recordsOf calls) = true) ∧
      ∀ before, file = frameAt crc 0 before → unsealed crc 0 before = true →
        ((∃ r' : Reader, (Reader.new w.file).collectAll crc = (.ok (before ++ recordsOf calls), r') ∧
            r'.lastGoodOffset = w.file.length) ↔
          roomFor 0 before = true ∧ roomFor (file.length % blockSize) (recordsOf calls) = true) := by
  obtain ⟨w, hrun, hfile⟩ :=
    appendAll_file crc calls (openEnd_idle stagedMax file) (openEnd_aligned stagedMax file)
  have hfile : w.file = file ++ frameAt crc file.length (recordsOf calls) := hfile
  refine ⟨w, hrun, ?_, fun before hold hseal₀ => ?_⟩
  · obtain ⟨r, hopen, hbefore, htotal, hgood⟩ :=
      fromOffset_before file (frameAt crc file.length (recordsOf calls))
    rw [← hfile] at hopen htotal
    rw [← collectAll_iff hbefore hseal]
    constructor
    · rintro ⟨r₀, r', hopen', hread, hlast⟩
      obtain rfl : r = r₀ := Option.some.inj (hopen.symm.trans hopen')
      exact ⟨r', hread, .inr (hlast.trans htotal.symm)⟩
    · rintro ⟨r', hread, hlast⟩
      refine ⟨r, r', hopen, hread, ?_⟩
      rcases hlast with ⟨hnil, hlast⟩ | hlast
      · rw [hlast, hgood, hfile, hnil, frameAt_nil, append_nil]
      · rw [hlast, htotal]
  · have hboth : w.file = frameAt crc 0 (before ++ recordsOf calls) := by
      rw [hfile, frameAt_append, ← hold, Nat.zero_add]
    have hbefore : (Reader.new w.file).Before 0
        (frameBytes crc (fragmentAll 0 (before ++ recordsOf calls)).1) :=
      .inr ⟨rfl, rfl, rfl, hboth⟩
    obtain ⟨hroom, hunsealed⟩ := @after_log crc before (recordsOf calls)
    rw [← hold] at hroom hunsealed
    have htotal : (Reader.new w.file).total = w.file.length := by
      simp [Reader.total, Reader.new]
    rw [← Bool.and_eq_true, ← hroom,
      ← collectAll_iff hbefore (by rw [hunsealed, hseal₀, hseal]; rfl)]
    refine exists_congr fun r' => and_congr_right fun _ => ⟨fun hlast => ?_, fun hlast => ?_⟩
    · exact .inr (hlast.trans htotal.symm)
    · rcases hlast with ⟨hnil, hlast⟩ | hlast
      · rw [hlast, hboth, hnil]
        rfl
      · rw [hlast, htotal]

/-- Two calls, one of them with an empty record, behind five bytes of something else. -/
theorem appended_read_back_two :
    ∃ w, appendAll (fun _ _ => 0) (.openEnd 0 [1, 2, 3, 4, 5]) [.one [7], .many [[], [8, 8]]] =
    (true, w) ∧
      ∃ r r' : Reader, Reader.fromOffset w.file 5 = some r ∧
        r.collectAll (fun _ _ => 0) = (.ok [[7], [], [8, 8]], r') ∧
        r'.lastGoodOffset = w.file.length := by
  obtain ⟨w, hrun, hread, -⟩ := appended_read_back (fun _ _ => 0) 0 [1, 2, 3, 4, 5]
    [.one [7], .many [[], [8, 8]]] (by decide +kernel)
  exact ⟨w, hrun, hread.mpr (by decide +kernel)⟩

theorem unsealed_zero (b : Nat) (datas : List Bytes) : unsealed (fun _ _ => 0) b datas = true :=
  all_eq_true.mpr fun _ _ => (by decide : ((mask 0).toNat != sealMagic) = true)

theorem header_room_of_length (hlen : data.length = 32754) :
    blockSize - (fragmentAll 0 [data]).2 = headerSize := by
  have hfit : entry 0 + headerSize + data.length ≤ blockSize := by
    rw [hlen]
    decide
  simp only [fragmentAll, fragmentFrom_fits hfit, hlen]
  decide

theorem header_room_refused (hlen : data.length = 32754) :
    ∃ w, appendAll (fun _ _ => 0) (.openEnd 0 []) [.one data, .one [5]] = (true, w) ∧
      ∃ (t : RecordType) (offset : Nat) (r' : Reader),
        (Reader.new w.file).collectAll (fun _ _ => 0) = (.error (.orphan t offset), r') := by
  obtain ⟨w, hrun, hfile⟩ := appendAll_file (fun _ _ => 0) [.one data, .one [5]]
    (openEnd_idle 0 []) (openEnd_aligned 0 [])
  rw [show (openEnd 0 []).file = [] from rfl, nil_append, length_nil,
    show recordsOf [.one data, .one [5]] = [data, [5]] from rfl] at hfile
  have hroom : roomFor 0 [data, [5]] = false := by
    have hb := header_room_of_length hlen
    simp only [fragmentAll] at hb
    simp [roomFor, hb]
  exact ⟨w, hrun, collectAll_refused (.inr ⟨rfl, rfl, rfl, hfile⟩) (unsealed_zero _ _) hroom⟩

/-- A record of 32754 bytes leaves a header's room in the block. The log of that record and
one byte more is refused. -/
theorem orphan_after_header_room : unsealed (fun _ _ => 0) 0 [List.replicate 32754 0, [5]] = true ∧
      ∃ w, appendAll (fun _ _ => 0) (.openEnd 0 []) [.one (List.replicate 32754 0), .one [5]] =
          (true, w) ∧
        ∃ (t : RecordType) (offset : Nat) (r' : Reader),
          (Reader.new w.file).collectAll (fun _ _ => 0) = (.error (.orphan t offset), r') :=
  ⟨unsealed_zero _ _, header_room_refused length_replicate⟩

/-- **When a data frame is taken for a seal.** Wherever it stands and whatever follows it, it is
not exactly if its checksum is not the magic number or the block has fewer bytes from there on
than a seal. -/
theorem data_frame_not_seal {t : RecordType} {payload more : Bytes}
    (hcursor : r.block.drop r.cursor = physicalRecord crc t payload ++ more) :
    r.sealTurn crc = none ↔
      (recordChecksum crc t.toByte payload.length payload).toNat ≠ sealMagic ∨
        headerSize + payload.length + more.length < sealFrameLen := by
  have hlength : (r.block.drop r.cursor).length = headerSize + payload.length + more.length := by
    rw [hcursor, length_append, physicalRecord_length]
  constructor
  · intro hnone
    by_contra hseal
    rw [not_or, ne_eq, Classical.not_not, Nat.not_lt] at hseal
    -- the window is whole and begins with the magic number, so it is no run of zeroes
    have hwhole : ((r.block.drop r.cursor).take sealFrameLen).length = sealFrameLen := by
      rw [length_take, hlength]
      exact Nat.min_eq_left hseal.2
    have hmagic : ((r.block.drop r.cursor).take sealFrameLen).take 4 = leBytes 4 sealMagic := by
      rw [take_take, hcursor, show min 4 sealFrameLen = 4 from rfl, record_checksum_field, hseal.1]
    have hzeroes : ((r.block.drop r.cursor).take sealFrameLen).all (· == 0) = false := by
      rw [← take_append_drop 4 (take _ _), all_append, hmagic]
      rfl
    simp only [sealTurn, hwhole, hmagic, and_self, if_true] at hnone
    split at hnone
    · cases hnone
    · cases hnone
    · rename_i hparsed
      rw [parseFrameOrSeal, hzeroes] at hparsed
      simp only [Bool.false_eq_true, if_false] at hparsed
      split at hparsed
      · cases hparsed
      split at hparsed
      · cases hparsed
      split at hparsed <;> cases hparsed
  · rintro (hchecksum | hshort)
    · exact sealTurn_record hcursor hchecksum
    · have hwindow : ((r.block.drop r.cursor).take sealFrameLen).length ≠ sealFrameLen := by
        rw [length_take, hlength]
        omega
      simp only [sealTurn, hwindow, false_and, if_false]

theorem data_frame_not_seal_one :
    Reader.sealTurn (fun _ _ => 0)
      { Reader.new [] with block := physicalRecord (fun _ _ => 0) .full [7] } = none :=
  (data_frame_not_seal (append_nil _).symm).mpr (.inl (by decide))

/-- A record with a checksum that is the magic number, and with the checksum of a seal among
its bytes. It is appended, and the log then reads as empty. -/
theorem record_read_as_seal :
    ∃ w, appendAll crc32cAppend (.openEnd 0 [])
    [.one [5, 5, 5, 5, 5, 242, 58, 176, 96, 127, 77, 96, 230]] = (true, w) ∧
      ((Reader.new w.file).collectAll crc32cAppend).1 = .ok [] :=
  ⟨_, rfl, by decide +kernel⟩

end PedraDb.Wal
