import PedraDb.History.Tier
import PedraDb.Layers.Stored
import PedraDb.Library.Runs

/-! Restoring a store from the remote history tier.

The restore reads the manifest that `LATEST` names, or the last whole one if an upload left
`LATEST` cut short. It takes the versions up to a target out of the listed segments and
writes them, in order of sequence, to a fresh log; opening replays it. The archive holds
values in the user's form while a log holds them in the stored form, and the stored end of a
range delete was resolved as if it were a value. So a value that begins with the escape
marker loses it and one that looks like a pointer is taken for one (`restore_strips_marker`).
Where values and range ends read the same in both forms, every key reads as the newest
archived version up to the target says (`history_restore_exact`). -/
namespace PedraDb.History
open List
open Wal (Bytes Crc)
open Layers (Sees Newest Answers Distinct Formed Numbered shown plain plain_resolves storedOps)
variable {op : WriteOp} {ops : List WriteOp} {db : Restored} {s : State} {chunk : List Noted}
    {target : Option Nat}

/-! ### The restore -/

def toWriteOp (r : HistoryRecord) : WriteOp :=
  if r.kind = 1 then .delete r.seq r.key
  else if r.kind = 2 then .deleteRange r.seq r.key r.val
  else .put r.seq r.key r.val

def afterTarget (target : Option Nat) (seq : Nat) : Bool :=
  match target with
  | some t => decide (t < seq)
  | none => false

/-- The operations of the segments, up to the target. -/
def replayOps (crc : Crc) (remote : Remote) (target : Option Nat) :
    List SegmentMeta → Except HistoryError (List WriteOp)
  | [] => .ok []
  | seg :: rest =>
    match remote.readSegment seg.name with
    | .error e => .error e
    | .ok file =>
      match walkSegmentRecords crc file with
      | .error e => .error e
      | .ok rs =>
        match replayOps crc remote target rest with
        | .error e => .error e
        | .ok ops => .ok ((rs.filter fun r => !afterTarget target r.seq).map toWriteOp ++ ops)

/-- A store opened on a fresh directory with a log: no file, no value log. -/
structure Restored where
  mem : Table
  lastSequence : Nat
  deriving DecidableEq

def openLog (records : List (List WriteOp)) : Except HistoryError Restored :=
  let mem := records.flatten
  let nextSeq := max (mem.foldl (fun a op => max a op.sequence) 0 + 1) 1
  if seqExhausted nextSeq maxAssignableSequenceNumber then .error (.msg sequenceSpaceExhausted.text)
  else .ok ⟨mem, nextSeq - 1⟩

/-- Read a key; there is no value log to read a pointer from. -/
def Restored.get (db : Restored) (key : Key) : Option (Option Value) :=
  match Layers.lookup [db.mem] [] defaultFamily [] key db.lastSequence with
  | .found stored => (resolveStoredValue (fun _ => none) stored).map some
  | .deleted | .notFound => some none

def restoreHistoryFromRemote (crc : Crc) (remote : Remote) (target : Option Nat) :
    Except HistoryError Restored :=
  let segs := remote.latestSegments
  if segs.isEmpty then .error (.msg "remote history tier has no manifest — nothing to restore")
  else
    match replayOps crc remote target segs with
    | .error e => .error e
    | .ok ops => openLog (chunks 256 (ops.insertionSort fun a b => a.sequence ≤ b.sequence))

structure State where
  nextSeq : Nat
  /-- Everything written, as it is stored. -/
  written : List WriteOp
  tier : Tier
  remote : Remote
  /-- The segments that have arrived. -/
  uploaded : List Nat
  /-- Everything archived, as it was stored. -/
  archived : List WriteOp
  /-- What was archived when the manifest that a reader gets was put. -/
  mirrored : List WriteOp
  deriving DecidableEq

inductive Event where
  /-- A write; the value of a put is inline or went to the value log. -/
  | write (op : BatchOp) (ptr : Option Value)
  | archive (floor : Nat) (mem imm : Table) (files : List (Table × Bool))
  | upload (reach : Reach)
  | cap (pin : Option Nat) (bytes : Nat)
  deriving DecidableEq

section System
variable (crc : Crc) (readPtr : Value → Option Value)

def State.init : State := ⟨1, [], .open', ⟨[], [], none⟩, [], [], []⟩

def step (s : State) : Event → Option State
  | .write op ptr =>
    if seqExhausted s.nextSeq maxAssignableSequenceNumber then none
    else (storedOps readPtr s.nextSeq ptr op).map fun ops =>
      { s with nextSeq := s.nextSeq + 1, written := s.written ++ ops }
  | .archive floor mem imm files =>
    if (mem ++ imm ++ files.flatMap (·.1)).all (s.written.contains ·) then
      let (_, tier, ops) := archiveBelow crc readPtr floor mem imm files s.tier
      some { s with tier := tier, archived := s.archived ++ ops }
    else none
  | .upload reach =>
    let (remote, uploaded) := uploadHistoryStep crc s.tier reach s.remote s.uploaded
    some { s with
      remote := remote
      uploaded := uploaded
      mirrored := if remote.latestManifest = s.remote.latestManifest then s.mirrored else s.archived }
  | .cap pin bytes => some { s with tier := s.tier.enforceCap pin bytes (some s.uploaded) }

/-- The user's value of a put and the end of a range delete are plain. -/
def keepsForm (op : WriteOp) : Bool :=
  match op.kind with
  | .value => ((resolveStoredValue readPtr op.value).getD []) |> plain
  | .deletion => true
  | .rangeDeletion => plain op.value

/-- The number of the next generation has at most 16 digits. -/
def Tier.numbersFit (t : Tier) : Bool := decide (t.nextId < 10 ^ 16)

/-- Key and value have less than four gigabytes. -/
def fitsRecord (op : WriteOp) : Bool :=
  decide (op.key.length < 2 ^ 32) &&
    decide (((resolveStoredValue readPtr op.value).getD []).length < 2 ^ 32)

/-- A pass archives what reads the same in both forms and fits, and a reader gets another
manifest only while the tier's own lists every segment there was. Where it is to be found
without `LATEST` its number has no more digits than the name. -/
def restorable (s : State) : Event → Bool
  | .archive floor mem imm files =>
    (mem ++ imm ++ files.flatMap (·.1)).all fun op =>
      decide (floor ≤ op.sequence) || (keepsForm readPtr op && fitsRecord readPtr op)
  | .upload .generation => s.remote.latest.isSome || (s.tier.archiveFloor == 0 && s.tier.numbersFit)
  | .upload .tornLatest => s.tier.archiveFloor == 0 && s.tier.numbersFit
  | .upload .latest => s.tier.archiveFloor == 0
  | _ => true

end System

/-! ### Archive passes -/

variable {ops' : List WriteOp} {chunk' : List Noted}

section Pass
variable {crc : Crc} {readPtr : Value → Option Value} {floor : Nat}

def recordOf (readPtr : Value → Option Value) (op : WriteOp) : HistoryRecord :=
  ⟨op.key, (resolveStoredValue readPtr op.value).getD [], op.sequence, archiveKindTag op.kind⟩

/-- A version of these tables below the floor, resolved. -/
structure Noted.From (readPtr : Value → Option Value) (floor : Nat) (ops : List WriteOp)
    (n : Noted) : Prop where
  mem : n.op ∈ ops
  below : n.op.sequence < floor
  resolves : (resolveStoredValue readPtr n.op.value).isSome = true
  record : n.record = recordOf readPtr n.op

theorem from_append {more : List Noted} (h : ∀ n ∈ chunk, n.From readPtr floor ops)
    (h' : ∀ n ∈ more, n.From readPtr floor ops') :
    ∀ n ∈ chunk ++ more, n.From readPtr floor (ops ++ ops') :=
  forall_mem_append.mpr ⟨fun n hn => { h n hn with mem := mem_append_left _ (h n hn).mem },
    fun n hn => { h' n hn with mem := mem_append_right _ (h' n hn).mem }⟩

theorem archiveNote_some (h : archiveNote readPtr floor chunk op = some chunk') :
    ∃ more : List Noted, chunk' = chunk ++ more ∧ ∀ n ∈ more, n.From readPtr floor [op] := by
  rw [archiveNote] at h
  split at h
  · cases h
    exact ⟨[], by simp, by simp⟩
  · rename_i hlt
    obtain ⟨val, hval, rfl⟩ := Option.map_eq_some_iff.mp h
    refine ⟨_, rfl, fun n hn => ?_⟩
    obtain rfl : n = _ := by simpa using hn
    exact ⟨by simp, Nat.lt_of_not_le hlt, by simp [hval], by simp [recordOf, hval]⟩

theorem noteAll_some {t : Table} (h : t.foldlM (archiveNote readPtr floor) chunk = some chunk') :
    ∃ more : List Noted, chunk' = chunk ++ more ∧ ∀ n ∈ more, n.From readPtr floor t := by
  induction t generalizing chunk with
  | nil =>
    cases h
    exact ⟨[], by simp, by simp⟩
  | cons op t ih =>
    simp only [foldlM_cons, Option.bind_eq_bind, Option.bind_eq_some_iff] at h
    obtain ⟨mid, hmid, hrest⟩ := h
    obtain ⟨one, rfl, hone⟩ := archiveNote_some hmid
    obtain ⟨more, rfl, hmore⟩ := ih hrest
    exact ⟨one ++ more, by simp, from_append hone hmore⟩

/-- What a pass adds: segments of records, and the versions they are of. -/
structure Adds (crc : Crc) (readPtr : Value → Option Value) (floor : Nat) (ops : List WriteOp)
    (p p' : Pass)
    (noted : List Noted) (groups : List (List HistoryRecord)) : Prop where
  from' : ∀ n ∈ noted, n.From readPtr floor ops
  records : groups.flatten = noted.map (·.record)
  ops : p'.2 = p.2 ++ noted.map (·.op)
  files : p'.1.segs.map (·.file) = p.1.segs.map (·.file) ++ filesOf crc groups
  floor : p'.1.archiveFloor = p.1.archiveFloor
  next : p.1.nextId ≤ p'.1.nextId
  names : (∀ g ∈ p.1.segs, g.info.name = segmentName crc g.file) → ∀ g ∈ p'.1.segs, g.info.name =
    segmentName crc g.file

def Extends (crc : Crc) (readPtr : Value → Option Value) (floor : Nat) (ops : List WriteOp)
    (p p' : Pass) : Prop :=
  ∃ noted groups, Adds crc readPtr floor ops p p' noted groups

theorem Extends.refl (ops : List WriteOp) (p : Pass) : Extends crc readPtr floor ops p p :=
  ⟨[], [], by simp, rfl, by simp, by simp [filesOf], rfl, .refl, fun h => h⟩

theorem Extends.trans {p p' p'' : Pass} (h : Extends crc readPtr floor ops p p')
    (h' : Extends crc readPtr floor ops' p' p'') : Extends crc readPtr floor (ops ++ ops') p p'' := by
  obtain ⟨noted, groups, h⟩ := h
  obtain ⟨noted', groups', h'⟩ := h'
  refine ⟨noted ++ noted', groups ++ groups', from_append h.from' h'.from', ?_, ?_, ?_,
    h'.floor.trans h.floor,
    h.next.trans h'.next, fun hn => h'.names (h.names hn)⟩
  · simp [h.records, h'.records]
  · simp [h.ops, h'.ops]
  · simp [h.files, h'.files, filesOf]

variable (crc) in
theorem flushChunk_extends (h : ∀ n ∈ chunk, n.From readPtr floor ops) (p : Pass) :
    Extends crc readPtr floor ops p (flushChunk crc p chunk) := by
  rw [flushChunk]
  split
  · exact .refl _ _
  · obtain ⟨hfiles, hfloor⟩ := sealAll_files crc p.1 (chunks segMaxRecords (chunk.map (·.record)))
    exact ⟨chunk, _, h, flatten_chunks (by decide) _, rfl, hfiles, hfloor, sealAll_nextId crc p.1 _,
      sealAll_names crc p.1 _⟩

variable (crc) in
theorem archiveFiles_extends (files : List (Table × Bool)) {before : List WriteOp} (p : Pass)
    (hchunk : ∀ n ∈ chunk, n.From readPtr floor before) :
    Extends crc readPtr floor (before ++ files.flatMap (·.1)) p
    (archiveFiles crc readPtr floor files chunk p).2 := by
  induction files generalizing chunk before p with
  | nil => simpa [archiveFiles] using flushChunk_extends crc hchunk p
  | cons f files ih =>
    obtain ⟨t, complete⟩ := f
    simp only [archiveFiles, flatMap_cons]
    cases hnote : t.foldlM (archiveNote readPtr floor) chunk with
    | none => exact .refl _ _
    | some chunk' =>
      obtain ⟨more, rfl, hmore⟩ := noteAll_some hnote
      have hall : ∀ n ∈ chunk ++ more, n.From readPtr floor (before ++ t) := from_append hchunk hmore
      cases complete with
      | false => exact .refl _ _
      | true =>
        simp only [Bool.not_true, Bool.false_eq_true, if_false]
        split
        · have hrest : Extends crc readPtr floor ([] ++ files.flatMap (·.1))
            (flushChunk crc p (chunk ++ more))
              (archiveFiles crc readPtr floor files [] (flushChunk crc p (chunk ++ more))).2 :=
              ih _ (by simp)
          simpa using (flushChunk_extends crc hall p).trans hrest
        · simpa using ih p hall

variable (crc readPtr floor) in
theorem archiveBelow_extends (mem imm : Table) (files : List (Table × Bool)) (t : Tier) :
    Extends crc readPtr floor (mem ++ imm ++ files.flatMap (·.1)) (t, [])
    (archiveBelow crc readPtr floor mem imm files t).2 := by
  rw [archiveBelow]
  cases hnote : (mem ++ imm).foldlM (archiveNote readPtr floor) [] with
  | none => exact .refl _ _
  | some chunk =>
    obtain ⟨more, hchunk, hmore⟩ := noteAll_some hnote
    rw [nil_append] at hchunk
    subst hchunk
    have hrest : Extends crc readPtr floor ([] ++ files.flatMap (·.1)) (flushChunk crc (t, []) chunk)
        (archiveFiles crc readPtr floor files [] (flushChunk crc (t, []) chunk)).2 :=
      archiveFiles_extends crc files _ (by simp)
    simpa using (flushChunk_extends crc hmore (t, [])).trans hrest

/-- A record that says what a version is: a put with the user's value, a range delete with
its end. -/
structure Exact (readPtr : Value → Option Value) (op : WriteOp) (r : HistoryRecord) : Prop where
  key : r.key = op.key
  seq : r.seq = op.sequence
  kind : r.kind = archiveKindTag op.kind
  put : op.kind = .value → resolveStoredValue readPtr op.value = some r.val
  range : op.kind = .rangeDeletion → r.val = op.value

/-- The end of a range delete reads as it is stored. -/
def EndKept (readPtr : Value → Option Value) (op : WriteOp) : Prop :=
  op.kind = .rangeDeletion → resolveStoredValue readPtr op.value = some op.value

/-- The record of a version is exact unless it is of a range delete whose end was changed. -/
theorem Noted.From.exact_iff {n : Noted} (h : n.From readPtr floor ops) :
    Exact readPtr n.op n.record ↔ EndKept readPtr n.op := by
  obtain ⟨val, hval⟩ := Option.isSome_iff_exists.mp h.resolves
  have hrecord : n.record = ⟨n.op.key, val, n.op.sequence, archiveKindTag n.op.kind⟩ := by
    rw [h.record, recordOf, hval, Option.getD_some]
  rw [hrecord, EndKept, hval]
  constructor
  · intro hexact hkind
    exact congrArg some (hexact.range hkind)
  · intro hkept
    exact ⟨rfl, rfl, rfl, fun _ => hval, fun hkind => Option.some.inj (hkept hkind)⟩

/-- The values below the floor resolve. -/
abbrev Resolvable (readPtr : Value → Option Value) (floor : Nat) (ops : List WriteOp) : Prop :=
  ∀ op ∈ ops, op.sequence < floor → (resolveStoredValue readPtr op.value).isSome = true

theorem noteAll_of_resolvable {t : Table} (h : Resolvable readPtr floor t) (chunk : List Noted) :
    ∃ more : List Noted, t.foldlM (archiveNote readPtr floor) chunk = some (chunk ++ more) ∧
      more.map (·.op) = t.filter (·.sequence < floor) := by
  induction t generalizing chunk with
  | nil => exact ⟨[], by simp⟩
  | cons op t ih =>
    have hrest := ih fun o ho => h o (mem_cons_of_mem _ ho)
    rw [foldlM_cons, archiveNote]
    by_cases hlt : op.sequence < floor
    · obtain ⟨val, hval⟩ := Option.isSome_iff_exists.mp (h op mem_cons_self hlt)
      obtain ⟨more, hfold, hops⟩ :=
        hrest (chunk ++ [⟨op, ⟨op.key, val, op.sequence, archiveKindTag op.kind⟩⟩])
      refine ⟨⟨op, ⟨op.key, val, op.sequence, archiveKindTag op.kind⟩⟩ :: more, ?_, ?_⟩
      · simpa [hval, not_le.mpr hlt] using hfold
      · simp [hlt, hops]
    · obtain ⟨more, hfold, hops⟩ := hrest chunk
      exact ⟨more, by simpa [not_lt.mp hlt] using hfold, by simp [hlt, hops]⟩

theorem flushChunk_ops (p : Pass) (chunk : List Noted) :
    (flushChunk crc p chunk).2 = p.2 ++ chunk.map (·.op) := by
  rw [flushChunk]
  split
  · simp_all
  · rfl

theorem archiveFiles_of_resolvable {files : List (Table × Bool)} (hends : ∀ f ∈ files, f.2 = true)
    (h : Resolvable readPtr floor (files.flatMap (·.1))) (chunk : List Noted) (p : Pass) :
    (archiveFiles crc readPtr floor files chunk p).1 = true ∧
    (archiveFiles crc readPtr floor files chunk p).2.2 =
        p.2 ++ chunk.map (·.op) ++ (files.flatMap (·.1)).filter (·.sequence < floor) := by
  induction files generalizing chunk p with
  | nil => simp [archiveFiles, flushChunk_ops]
  | cons f files ih =>
    obtain ⟨t, complete⟩ := f
    obtain rfl : complete = true := hends _ mem_cons_self
    obtain ⟨more, hnote, hops⟩ := noteAll_of_resolvable (t := t) (fun o ho => h o (by simp [ho])) chunk
    have hrest := ih (fun f hf => hends f (mem_cons_of_mem _ hf)) fun o ho => h o (by
      rw [flatMap_cons]
      exact mem_append_right _ ho)
    simp only [archiveFiles, hnote, Bool.not_true, Bool.false_eq_true, if_false]
    split
    · simpa [flushChunk_ops, hops] using hrest [] (flushChunk crc p (chunk ++ more))
    · simpa [hops] using hrest (chunk ++ more) p

/-- **The archive keeps versions as they are** except for the ends of range deletes that read
otherwise than they are stored. Whatever a pass wrote, even one that failed, is one record for
each version it archived, with its key, sequence, kind and resolved value, and exact if and
only if its end is kept. Where all streams end and all points resolve, a pass archives exactly
all below the floor if and only if all ends are kept. -/
theorem archive_records_exact (crc : Crc) (readPtr : Value → Option Value) (floor : Nat)
    (mem imm : Table) (files : List (Table × Bool)) (t t' : Tier) (done : Bool)
    (ops : List WriteOp) (hpass : archiveBelow crc readPtr floor mem imm files t = (done, t', ops)) :
    ∃ groups, t'.segs.map (·.file) = t.segs.map (·.file) ++ filesOf crc groups ∧
      Forall₂ (fun op r => Exact readPtr op r ↔ EndKept readPtr op) ops groups.flatten ∧
      (∀ op ∈ ops, op ∈ mem ++ imm ++ files.flatMap (·.1) ∧ op.sequence < floor) ∧
      ((∀ f ∈ files, f.2 = true) →
        (∀ op ∈ mem ++ imm ++ files.flatMap (·.1), op.sequence < floor →
          op.kind ≠ .rangeDeletion → (resolveStoredValue readPtr op.value).isSome = true) →
        ((done = true ∧ ops = (mem ++ imm ++ files.flatMap (·.1)).filter (·.sequence < floor) ∧
            Forall₂ (Exact readPtr) ops groups.flatten) ↔
          ∀ op ∈ mem ++ imm ++ files.flatMap (·.1), op.sequence < floor → EndKept readPtr op)) := by
  obtain ⟨noted, groups, h⟩ := archiveBelow_extends crc readPtr floor mem imm files t
  rw [hpass] at h
  obtain rfl : ops = noted.map (·.op) := h.ops
  have hexact : Forall₂ (Exact readPtr) (noted.map (·.op)) groups.flatten ↔
      ∀ n ∈ noted, EndKept readPtr n.op := by
    rw [h.records, forall₂_map_left_iff, forall₂_map_right_iff, forall₂_same]
    exact forall₂_congr fun n hn => (h.from' n hn).exact_iff
  refine ⟨groups, h.files, ?_, ?_, fun hcomplete hres => ?_⟩
  · rw [h.records, forall₂_map_left_iff, forall₂_map_right_iff, forall₂_same]
    exact fun n hn => (h.from' n hn).exact_iff
  · intro op hop
    obtain ⟨n, hn, rfl⟩ := mem_map.mp hop
    exact ⟨(h.from' n hn).mem, (h.from' n hn).below⟩
  constructor
  · rintro ⟨-, hall, hrecords⟩ op hop hlt
    have hin : op ∈ noted.map (·.op) := hall ▸ mem_filter.mpr ⟨hop, decide_eq_true hlt⟩
    obtain ⟨n, hn, rfl⟩ := mem_map.mp hin
    exact hexact.mp hrecords n hn
  · intro hkept
    have hres : Resolvable readPtr floor (mem ++ imm ++ files.flatMap (·.1)) := by
      intro op hop hlt
      by_cases hkind : op.kind = .rangeDeletion
      · rw [hkept op hop hlt hkind]
        rfl
      · exact hres op hop hlt hkind
    obtain ⟨chunk, hnote, hchunk⟩ :=
      noteAll_of_resolvable (t := mem ++ imm) (fun o ho => hres o (mem_append_left _ ho)) []
    have hrest := @archiveFiles_of_resolvable crc _ _ _ hcomplete
      (fun o ho => hres o (mem_append_right _ ho)) [] (flushChunk crc (t, []) chunk)
    simp only [archiveBelow, hnote, nil_append] at hpass
    rw [hpass] at hrest
    refine ⟨hrest.1, by simpa [flushChunk_ops, hchunk] using hrest.2, hexact.mpr fun n hn => ?_⟩
    exact hkept n.op (h.from' n hn).mem (h.from' n hn).below

/-- A put that was escaped, a range delete, a delete, and a version at the floor. -/
def fourVersions : Table := [.put 1 [7] [1, 1, 9], .deleteRange 2 [6] [8], .delete 3 [5], .put 4 [5] [2]]

theorem archive_records_exact_kinds :
    ∃ t' groups, archiveBelow Wal.crc32cAppend (fun _ => none) 4 [] [] [(fourVersions, true)] .open' =
        (true, t', fourVersions.take 3) ∧ Forall₂ (Exact fun _ => none) (fourVersions.take 3)
        (flatten groups) := by
  obtain ⟨groups, -, -, -, hall⟩ := archive_records_exact Wal.crc32cAppend (fun _ => none) 4 [] []
    [(fourVersions, true)] .open' _ _ _ rfl
  obtain ⟨hdone, hops, hexact⟩ :=
    (hall (by decide) (by decide)).mpr (by unfold EndKept; decide +kernel)
  rw [hops] at hexact
  exact ⟨_, groups, Prod.ext hdone (Prod.ext rfl hops), hexact⟩

/-- **A range delete loses a byte of its end.** It ends at the marker byte and 9, stored as it
is; the record it becomes ends at 9. -/
theorem archive_strips_range_end :
    (archiveBelow Wal.crc32cAppend (fun _ => none) 2 [.deleteRange 1 [0] [1, 9]] [] [] .open').1 = true ∧
      (archiveBelow Wal.crc32cAppend (fun _ => none) 2 [.deleteRange 1 [0] [1, 9]] []
        [] .open').2.1.segs.map
        (fun g => walkSegmentRecords Wal.crc32cAppend g.file) =
        [.ok [⟨[0], [9], 1, archiveKindTag .rangeDeletion⟩]] := by
  decide +kernel

end Pass

/-! ### What every state keeps -/

section Invariant
variable {crc : Crc} {readPtr : Value → Option Value}

/-- A version that the restore brings back as it was. -/
structure Keepable (readPtr : Value → Option Value) (op : WriteOp) : Prop where
  resolves : (resolveStoredValue readPtr op.value).isSome = true
  form : keepsForm readPtr op = true
  fits : fitsRecord readPtr op = true

abbrev filesOfOps (crc : Crc) (readPtr : Value → Option Value) (groups : List (List WriteOp)) :
    List Bytes :=
  filesOf crc (groups.map fun g => g.map (recordOf readPtr))

structure Inv (crc : Crc) (readPtr : Value → Option Value) (s : State) : Prop where
  next : s.nextSeq ≤ maxAssignableSequenceNumber + 1
  numbered : Numbered s.nextSeq s.written
  archived : ∀ op ∈ s.archived, op ∈ s.written ∧ Keepable readPtr op
  mirrored : ∀ op ∈ s.mirrored, op ∈ s.written ∧ Keepable readPtr op
  names : ∀ g ∈ s.tier.segs, g.info.name = segmentName crc g.file
  /-- While the cap has dropped nothing the segments hold what was archived. -/
  segs : s.tier.archiveFloor = 0 →
    ∃ groups : List (List WriteOp), groups.flatten = s.archived ∧
    s.tier.segs.map (·.file) = filesOfOps crc readPtr groups
  latest : ∀ n, s.remote.latest = some n → ∃ m, s.remote.generations.lookup n = some (some m)
  numbers : ∀ g ∈ s.remote.generations, g.1 ≤ s.tier.nextId
  nodup : (s.remote.generations.map Prod.fst).Nodup
  /-- The listed segments are there and hold what was mirrored. -/
  remote : ∃ groups : List (List WriteOp), groups.flatten = s.mirrored ∧
    s.remote.latestSegments.map (fun m => s.remote.objects.lookup m.name) =
    (filesOfOps crc readPtr groups).map some

theorem Inv.init : Inv crc readPtr .init where
  next := by decide
  numbered := .nil
  archived := by simp [State.init]
  mirrored := by simp [State.init]
  names := by simp [State.init, Tier.open']
  segs := fun _ => ⟨[], rfl, rfl⟩
  latest := by simp [State.init]
  numbers := by simp [State.init]
  nodup := by simp [State.init]
  remote := ⟨[], rfl, rfl⟩

section Step
variable {s' : State}

theorem Inv.write (h : Inv crc readPtr s) {op : BatchOp} {ptr : Option Value}
    (hs : step crc readPtr s (.write op ptr) = some s') : Inv crc readPtr s' := by
  rw [step] at hs
  split at hs
  · cases hs
  rename_i hroom
  obtain ⟨ops, hops, rfl⟩ := Option.map_eq_some_iff.mp hs
  have hle : s.nextSeq ≤ maxAssignableSequenceNumber := by
    simpa [seqExhausted] using hroom
  exact ⟨by simpa using hle, h.numbered.write hops, fun op hop => (h.archived op
    hop).imp_left (mem_append_left _),
    fun op hop => (h.mirrored op hop).imp_left (mem_append_left _), h.names, h.segs, h.latest, h.numbers,
    h.nodup, h.remote⟩

theorem Inv.archive (h : Inv crc readPtr s) {floor : Nat} {mem imm : Table} {files : List (Table × Bool)}
    (hok : restorable readPtr s (.archive floor mem imm files) = true)
    (hs : step crc readPtr s (.archive floor mem imm files) = some s') : Inv crc readPtr s' := by
  rw [step] at hs
  split at hs
  swap
  · cases hs
  rename_i hheld
  obtain ⟨noted, groups, hadds⟩ := archiveBelow_extends crc readPtr floor mem imm files s.tier
  generalize archiveBelow crc readPtr floor mem imm files s.tier = result at hs hadds
  obtain ⟨ok, tier, ops⟩ := result
  simp only at hadds
  cases hs
  simp only [all_eq_true, contains_iff_mem] at hheld
  simp only [restorable, all_eq_true, Bool.or_eq_true, Bool.and_eq_true, decide_eq_true_eq] at hok
  obtain rfl : ops = noted.map (·.op) := by simpa using hadds.ops
  have hnew : ∀ op ∈ noted.map (·.op), op ∈ s.written ∧ Keepable readPtr op := by
    intro op hop
    obtain ⟨n, hn, rfl⟩ := mem_map.mp hop
    have hfrom := hadds.from' n hn
    rcases hok n.op hfrom.mem with hle | ⟨hform, hfits⟩
    · exact absurd hfrom.below (not_lt.mpr hle)
    · exact ⟨hheld n.op hfrom.mem, hfrom.resolves, hform, hfits⟩
  refine { h with
    archived := forall_mem_append.mpr ⟨h.archived, hnew⟩
    names := hadds.names h.names
    numbers := fun g hg => (h.numbers g hg).trans hadds.next
    segs := fun hfloor => ?_ }
  · obtain ⟨old, hold, hfiles⟩ := h.segs (hadds.floor.symm.trans hfloor)
    -- the new groups of records are groups of versions
    have hrecords : groups.flatten = (noted.map (·.op)).map (recordOf readPtr) := by
      rw [hadds.records, map_map]
      exact map_congr_left fun n hn => (hadds.from' n hn).record
    obtain ⟨fresh, hfresh, rfl⟩ : ∃ fresh : List (List WriteOp), fresh.flatten = noted.map (·.op) ∧
        groups = fresh.map fun g => g.map (recordOf readPtr) := by
      generalize noted.map (·.op) = ops at hrecords
      clear hadds hnew
      induction groups generalizing ops with
      | nil =>
        have : ops = [] := by simpa using hrecords.symm
        exact ⟨[], by simp [this], rfl⟩
      | cons g groups ih =>
        rw [flatten_cons] at hrecords
        obtain ⟨front, back, rfl, hfront, hback⟩ := map_eq_append_iff.mp hrecords.symm
        obtain ⟨fresh, rfl, rfl⟩ := ih back hback.symm
        exact ⟨front :: fresh, rfl, by simp [hfront]⟩
    exact ⟨old ++ fresh, by simp [hold, hfresh], by simp [hadds.files, hfiles, filesOfOps, filesOf]⟩

section
variable (h : Inv crc readPtr s)
include h

/-- The listed segments stay what they are. -/
theorem Inv.remote_keeps {remote : Remote} (hkeeps : s.remote.Keeps remote)
    (hsame : remote.latestManifest = s.remote.latestManifest) :
    ∃ groups : List (List WriteOp), groups.flatten = s.mirrored ∧
      remote.latestSegments.map (fun m => remote.objects.lookup m.name) =
        (filesOfOps crc readPtr groups).map some := by
  obtain ⟨groups, hgroups, hlisted⟩ := h.remote
  refine ⟨groups, hgroups, ?_⟩
  rw [Remote.latestSegments, hsame, ← Remote.latestSegments, ← hlisted]
  refine map_congr_left fun m hm => ?_
  -- a listed segment was found, and stays
  have hfound : s.remote.objects.lookup m.name ∈ (filesOfOps crc readPtr groups).map some := by
    rw [← hlisted]
    exact mem_map_of_mem hm
  obtain ⟨file, -, hfile⟩ := mem_map.mp hfound
  rw [← hfile, hkeeps.objects _ _ hfile.symm]

/-- The segments of a tier that is held are what was archived, if the cap dropped none. -/
theorem Inv.remote_holds {remote : Remote} (hfloor : s.tier.archiveFloor = 0)
    (hholds : remote.Holds crc s.tier) (hread : remote.latestManifest = some s.tier.manifest) :
    ∃ groups : List (List WriteOp), groups.flatten = s.archived ∧
      remote.latestSegments.map (fun m => remote.objects.lookup m.name) =
        (filesOfOps crc readPtr groups).map some := by
  obtain ⟨groups, hgroups, hfiles⟩ := h.segs hfloor
  refine ⟨groups, hgroups, ?_⟩
  rw [Remote.latestSegments, hread, Tier.manifest, ← hfiles, map_map, map_map]
  refine map_congr_left fun g hg => ?_
  simpa [h.names g hg] using hholds.segments g hg

section Generations
variable {file : Option Manifest} {remote : Remote}
  (hgrows : Grows s.tier.nextId file s.remote.generations remote.generations)
include hgrows

theorem Inv.numbers_grow : ∀ g ∈ remote.generations, g.1 ≤ s.tier.nextId := by
  rcases hgrows with heq | ⟨-, heq⟩
  · rw [heq]
    exact h.numbers
  · rw [heq]
    exact forall_mem_cons.mpr ⟨le_rfl, h.numbers⟩

theorem Inv.nodup_grow : (remote.generations.map Prod.fst).Nodup := by
  rcases hgrows with heq | ⟨hnone, heq⟩
  · rw [heq]
    exact h.nodup
  · rw [heq, map_cons, nodup_cons]
    refine ⟨fun hmem => ?_, h.nodup⟩
    obtain ⟨g, hg, heq⟩ := mem_map.mp hmem
    exact bne_iff_ne.mp (lookup_eq_none_iff.mp hnone g hg) heq.symm

end Generations

/-- What a reader gets after an upload: what it got, or the manifest of the tier while that
lists everything. -/
theorem Inv.upload_read {reach : Reach} {remote : Remote}
    (hok : restorable readPtr s (.upload reach) = true)
    (hkeeps : s.remote.Keeps remote) (hup : Uploads crc s.tier s.remote remote reach) :
    remote.latestManifest = s.remote.latestManifest ∨
      s.tier.archiveFloor = 0 ∧ remote.Holds crc s.tier ∧
        remote.latestManifest = some s.tier.manifest := by
  -- without `LATEST` the tier's manifest is the last of the generations
  have hback : ∀ {latest}, Puts crc s.tier s.remote remote latest → remote.latest = none →
      s.tier.numbersFit = true → remote.latestManifest = some s.tier.manifest := by
    intro latest hputs hnone hfit
    exact latestManifest_highest hnone (mem_of_lookup hputs.holds.generation)
      (h.nodup_grow hputs.grows) (h.numbers_grow hputs.grows) (of_decide_eq_true hfit)
  cases hup with
  | quiet _ hgrows hlatest => exact .inl (latestManifest_torn hgrows hlatest)
  | generation hputs =>
    cases hlatest : s.remote.latest with
    | none =>
      simp only [restorable, hlatest, Option.isSome_none, Bool.false_or, Bool.and_eq_true,
        beq_iff_eq] at hok
      exact .inr ⟨hok.1, hputs.holds, hback hputs (hputs.latest.trans hlatest) hok.2⟩
    | some n =>
      obtain ⟨m, hm⟩ := h.latest n hlatest
      rw [latestManifest_named hlatest hm]
      exact .inl (latestManifest_named (hputs.latest.trans hlatest) (hkeeps.generations n _ hm))
  | torn hputs =>
    simp only [restorable, Bool.and_eq_true, beq_iff_eq] at hok
    exact .inr ⟨hok.1, hputs.holds, hback hputs hputs.latest hok.2⟩
  | latest hputs =>
    simp only [restorable, beq_iff_eq] at hok
    exact .inr ⟨hok, hputs.holds, latestManifest_named hputs.latest hputs.holds.generation⟩

theorem Inv.upload_latest {reach : Reach} {remote : Remote} (hkeeps : s.remote.Keeps remote)
    (hup : Uploads crc s.tier s.remote remote reach) (n : Nat) (hn : remote.latest = some n) :
    ∃ m, remote.generations.lookup n = some (some m) := by
  have hold : remote.latest = s.remote.latest → ∃ m, remote.generations.lookup n = some (some m) := by
    intro hsame
    obtain ⟨m, hm⟩ := h.latest n (hsame.symm.trans hn)
    exact ⟨m, hkeeps.generations n _ hm⟩
  cases hup with
  | quiet _ _ hlatest => exact hold hlatest
  | generation hputs => exact hold hputs.latest
  | torn hputs =>
    rw [hputs.latest] at hn
    cases hn
  | latest hputs =>
    obtain rfl : s.tier.nextId = n := Option.some.inj (hputs.latest.symm.trans hn)
    exact ⟨_, hputs.holds.generation⟩

theorem Inv.upload {reach : Reach} (hok : restorable readPtr s (.upload reach) = true)
    (hs : step crc readPtr s (.upload reach) = some s') : Inv crc readPtr s' := by
  obtain ⟨hkeeps, hup⟩ := uploadHistoryStep_spec crc s.tier reach s.remote s.uploaded
  rw [step] at hs
  generalize uploadHistoryStep crc s.tier reach s.remote s.uploaded = result at hkeeps hup hs
  obtain ⟨remote, uploaded⟩ := result
  cases hs
  obtain ⟨file, hgrows⟩ := hup.grows
  by_cases hsame : remote.latestManifest = s.remote.latestManifest
  · simp only [hsame, if_true]
    exact { h with
      latest := h.upload_latest hkeeps hup
      numbers := h.numbers_grow hgrows
      nodup := h.nodup_grow hgrows
      remote := h.remote_keeps hkeeps hsame }
  · simp only [hsame, if_false]
    obtain ⟨hfloor, hholds, hread⟩ := (h.upload_read hok hkeeps hup).resolve_left hsame
    exact { h with
      mirrored := h.archived
      latest := h.upload_latest hkeeps hup
      numbers := h.numbers_grow hgrows
      nodup := h.nodup_grow hgrows
      remote := h.remote_holds hfloor hholds hread }

theorem Inv.cap {pin : Option Nat} {bytes : Nat}
    (hs : step crc readPtr s (.cap pin bytes) = some s') : Inv crc readPtr s' := by
  cases hs
  refine { h with
    names := fun g hg => h.names g (enforceCap_mem hg)
    segs := fun hfloor => ?_
    numbers := by simpa only [enforceCap_nextId] using h.numbers }
  rcases enforceCap_cases s.tier pin bytes (some s.uploaded) with heq | hpos
  · simp only [heq] at hfloor ⊢
    exact h.segs hfloor
  · exact absurd hfloor (ne_of_gt hpos)

theorem Inv.step {e : Event} (hok : restorable readPtr s e = true)
    (hs : step crc readPtr s e = some s') : Inv crc readPtr s' := by
  cases e with
  | write op ptr => exact h.write hs
  | archive floor mem imm files => exact h.archive hok hs
  | upload reach => exact h.upload hok hs
  | cap pin bytes => exact h.cap hs

end

end Step
end Invariant

/-! ### The log of a restore -/

section Replay
variable {crc : Crc} {readPtr : Value → Option Value}

def restoredOp (readPtr : Value → Option Value) (op : WriteOp) : WriteOp :=
  toWriteOp (recordOf readPtr op)

theorem recordOf_fits (h : Inv crc readPtr s) (hop : op ∈ s.written) (hkeep : Keepable readPtr op) :
    (recordOf readPtr op).fits = true := by
  have hseq := h.numbered.below op hop
  have hnext := h.next
  have hfits := hkeep.fits
  simp only [fitsRecord, Bool.and_eq_true, decide_eq_true_eq] at hfits
  simp only [maxAssignableSequenceNumber, maxSequenceNumber] at hnext
  have hseq : op.sequence < 2 ^ 64 := by omega
  simp only [HistoryRecord.fits, recordOf, Bool.and_eq_true]
  exact ⟨⟨decide_eq_true hfits.1, decide_eq_true hfits.2⟩, decide_eq_true hseq⟩

variable (readPtr) in
theorem restoredOp_sequence (op : WriteOp) : (restoredOp readPtr op).sequence = op.sequence := by
  obtain ⟨kind, seq, key, value⟩ := op
  cases kind <;> rfl

theorem restoredOp_kind (op : WriteOp) : (restoredOp readPtr op).kind = op.kind := by
  obtain ⟨kind, seq, key, value⟩ := op
  cases kind <;> rfl

section
variable (hkeep : Keepable readPtr op)
include hkeep

theorem restoredOp_range (hkind : op.kind = .rangeDeletion) : restoredOp readPtr op = op := by
  have hform := hkeep.form
  simp only [keepsForm, hkind] at hform
  obtain ⟨kind, seq, key, value⟩ := op
  cases hkind
  simp [restoredOp, toWriteOp, recordOf, archiveKindTag, WriteOp.deleteRange,
    plain_resolves hform readPtr]

theorem restoredOp_covers (key : Key) : (restoredOp readPtr op).covers key = op.covers key := by
  by_cases hkind : op.kind = .rangeDeletion
  · rw [restoredOp_range hkeep hkind]
  · obtain ⟨kind, seq, k, value⟩ := op
    cases kind with
    | rangeDeletion => exact absurd rfl hkind
    | value => rfl
    | deletion => rfl

theorem restoredOp_value (hkind : op.kind = .value) :
    ∃ v, resolveStoredValue readPtr op.value = some v ∧ (restoredOp readPtr op).value = v ∧
      resolveStoredValue (fun _ => none) v = some v := by
  obtain ⟨v, hv⟩ := Option.isSome_iff_exists.mp hkeep.resolves
  have hform := hkeep.form
  simp only [keepsForm, hkind, hv, Option.getD_some] at hform
  refine ⟨v, hv, ?_, plain_resolves hform _⟩
  obtain ⟨kind, seq, key, value⟩ := op
  cases hkind
  simp [restoredOp, toWriteOp, recordOf, archiveKindTag, WriteOp.put, hv]

end

theorem replayOps_ok {remote : Remote} (target : Option Nat) {segs : List SegmentMeta}
    {groups : List (List WriteOp)}
    (hlisted : segs.map (fun m => remote.objects.lookup m.name) =
      (filesOfOps crc readPtr groups).map some)
    (hfits : ∀ op ∈ groups.flatten, (recordOf readPtr op).fits = true) :
    replayOps crc remote target segs =
      .ok ((groups.flatten.filter fun op => !afterTarget target op.sequence).map
        (restoredOp readPtr)) := by
  induction segs generalizing groups with
  | nil =>
    have : groups = [] := by simpa [filesOfOps, filesOf] using hlisted.symm
    simp [this, replayOps]
  | cons seg segs ih =>
    cases groups with
    | nil => simp [filesOfOps, filesOf] at hlisted
    | cons g groups =>
      simp only [filesOfOps, filesOf, map_cons, List.cons.injEq] at hlisted
      have hrecords : ∀ r ∈ g.map (recordOf readPtr), r.fits = true := by
        intro r hr
        obtain ⟨op, hop, rfl⟩ := mem_map.mp hr
        exact hfits op (by simp [hop])
      have hwalk := walkSegmentRecords_bytes crc hrecords
      have hrest := ih hlisted.2 fun op hop => hfits op (by
        rw [flatten_cons]
        exact mem_append_right _ hop)
      simp only [replayOps, Remote.readSegment, hlisted.1, hwalk, hrest, flatten_cons, filter_append,
        map_append, filter_map, map_map]
      rfl

theorem openLog_ok {records : List (List WriteOp)} (h : openLog records = .ok db) :
    db.mem = records.flatten ∧ ∀ op ∈ db.mem, op.sequence ≤ db.lastSequence := by
  simp only [openLog] at h
  split at h
  · cases h
  · cases h
    refine ⟨rfl, fun op hop => ?_⟩
    have := ((foldl_max WriteOp.sequence records.flatten 0 _).mp le_rfl).2 op hop
    simp only
    omega

/-- The last sequence a target lets through. -/
def targetSnap (target : Option Nat) : Nat := target.getD maxSequenceNumber

theorem afterTarget_iff (h : Inv crc readPtr s) (hop : op ∈ s.written) (target : Option Nat) :
    afterTarget target op.sequence = false ↔ op.sequence ≤ targetSnap target := by
  cases target with
  | some t => simp [afterTarget, targetSnap]
  | none =>
    have hseq := h.numbered.below op hop
    have hnext := h.next
    simp only [maxAssignableSequenceNumber] at hnext
    simp only [afterTarget, targetSnap, Option.getD_none, true_iff]
    have : 0 < maxSequenceNumber := by decide
    omega

theorem restore_mem (h : Inv crc readPtr s)
    (hrestore : restoreHistoryFromRemote crc s.remote target = .ok db) :
    (∀ w, w ∈ db.mem ↔ ∃ op ∈ s.mirrored, op.sequence ≤ targetSnap target ∧ w = restoredOp readPtr op) ∧
      ∀ w ∈ db.mem, w.sequence ≤ db.lastSequence := by
  obtain ⟨groups, hgroups, hlisted⟩ := h.remote
  have hreplay := replayOps_ok target hlisted fun op hop =>
    recordOf_fits h (h.mirrored op (hgroups ▸ hop)).1 (h.mirrored op (hgroups ▸ hop)).2
  simp only [restoreHistoryFromRemote, hreplay] at hrestore
  split at hrestore
  · cases hrestore
  obtain ⟨hmem, hlast⟩ := openLog_ok hrestore
  refine ⟨fun w => ?_, hlast⟩
  rw [hmem, flatten_chunks (by decide), mem_insertionSort, mem_map, hgroups]
  refine ⟨fun ⟨op, hop, heq⟩ => ?_, fun ⟨op, hop, hle, heq⟩ => ⟨op, ?_, heq.symm⟩⟩
  · obtain ⟨hop, hafter⟩ := mem_filter.mp hop
    exact ⟨op, hop, (afterTarget_iff h (h.mirrored op hop).1 target).mp (by simpa using hafter), heq.symm⟩
  · exact mem_filter.mpr ⟨hop, by simpa using (afterTarget_iff h (h.mirrored op hop).1 target).mpr hle⟩

end Replay

/-- The versions of a run so far, archived below a floor and shipped. -/
def archiveAndShip (floor : Nat) (mem : Table) (reach : Reach) : List Event :=
  [.archive floor mem [] [], .upload reach]

def noVlog : Value → Option Value := fun _ => none

/-- What a run has mirrored and what a restore makes of it. -/
def mirroredAndRestored (events : List Event) (target : Option Nat) :
    Option (List WriteOp × Except HistoryError Restored) :=
  (Runs.exec (step Wal.crc32cAppend noVlog) .init events).map fun s =>
    (s.mirrored, restoreHistoryFromRemote Wal.crc32cAppend s.remote target)

theorem exec_of_mirroredAndRestored {events : List Event}
    (h : mirroredAndRestored events target = some (ops, .ok db)) :
    ∃ s, Runs.exec (step Wal.crc32cAppend noVlog) .init events = some s ∧ s.mirrored = ops ∧
      restoreHistoryFromRemote Wal.crc32cAppend s.remote target = .ok db := by
  obtain ⟨s, hs, hpair⟩ := Option.map_eq_some_iff.mp h
  rw [Prod.mk.injEq] at hpair
  exact ⟨s, hs, hpair.1, hpair.2⟩

/-- A run with a range delete and a version archived twice, where the second upload leaves
`LATEST` cut short. -/
def deletesAndTwice : List Event :=
  [.write (.put [7] [9]) none, .write (.put [8] [6]) none, .write (.deleteRange [6] [8]) none,
    .write (.put [7] [5]) none] ++
    archiveAndShip 4 [.put 1 [7] [9], .put 2 [8] [6], .deleteRange 3 [6] [8]] .latest ++
    archiveAndShip 5 [.put 1 [7] [9], .put 2 [8] [6], .deleteRange 3 [6] [8], .put 4 [7] [5]] .tornLatest

end PedraDb.History
