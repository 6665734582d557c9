import PedraDb.History.Segment
import PedraDb.Library.Decimal
import PedraDb.Lookup
import Mathlib.Data.List.Sort

/-! The local history tier and its remote mirror.

An archive pass notes every version below a floor and writes what it noted to segments;
the manifest lists a segment once it is sealed. An upload ships the listed segments under
names made from their contents, then a generation of the manifest and then `LATEST`, which
names it; each write can fail in its middle, and then a reader walks back over the
generations (`uploads_complete`). Above the cap the oldest segments leave the local tier, and
with them its manifest. -/
namespace PedraDb.History
open List
open Wal (Bytes Crc)
variable {r r' : Remote} {uploaded : Option (List Nat)} {pin : Option Nat}

/-! ### Segments -/

def u64Max : Nat := 2 ^ 64 - 1

def segMaxRecords : Nat := 8192

/-- The name of a segment at the remote tier: the length and two digests of its contents. -/
structure SegmentName where
  length : Nat
  crc : UInt32
  fnv : UInt64
  deriving DecidableEq

/-- What the manifest says of a segment. -/
structure SegmentMeta where
  id : Nat
  name : SegmentName
  fromSeq : Nat
  throughSeq : Nat
  bytes : Nat
  coverage : Option (Key × Key)
  deriving DecidableEq

/-- A sealed segment: its entry in the manifest and its file. -/
structure Segment where
  info : SegmentMeta
  file : Bytes
  deriving DecidableEq

def fnv1a64 (data : Bytes) : UInt64 :=
  data.foldl (fun hash b => (hash ^^^ b.toUInt64) * 0x100000001b3) 0xcbf29ce484222325

def hexPadded (width n : Nat) : String :=
  let digits := String.ofList (Nat.toDigits 16 n)
  "".pushn '0' (width - digits.length) ++ digits

def segmentName (crc : Crc) (file : Bytes) : SegmentName := ⟨file.length, crc 0 file, fnv1a64 file⟩

/-- The name as the object is called. -/
def SegmentName.text (n : SegmentName) : String :=
  "seg-" ++ hexPadded 16 n.length ++ "-" ++ hexPadded 8 n.crc.toNat ++ "-" ++
    hexPadded 16 n.fnv.toNat ++ ".hist"

/-- The end of what a record affects: a range delete reaches to its end. -/
def HistoryRecord.ceiling (r : HistoryRecord) : Key := if r.kind = 2 then r.val else r.key

def keyFloor (rs : List HistoryRecord) : Option Key :=
  rs.foldl (fun lo r => match lo with
    | none => some r.key
    | some k => if r.key < k then some r.key else some k) none

def keyCeiling (rs : List HistoryRecord) : Key :=
  rs.foldl (fun hi r => if hi < r.ceiling then r.ceiling else hi) []

/-- The keys between the lowest and the highest one of a segment; none if both are empty. -/
def keyCoverage (rs : List HistoryRecord) : Option (Key × Key) :=
  let lo := (keyFloor rs).getD []
  let hi := keyCeiling rs
  if lo.isEmpty && hi.isEmpty then none else some (lo, hi)

def sealSegment (crc : Crc) (id : Nat) (rs : List HistoryRecord) : Segment :=
  let file := rs.flatMap (·.bytes crc)
  ⟨⟨id, segmentName crc file, rs.foldl (fun a r => min a r.seq) u64Max,
    rs.foldl (fun a r => max a r.seq) 0,
    file.length, keyCoverage rs⟩, file⟩

/-! ### The local tier -/

structure Tier where
  nextId : Nat
  /-- The oldest first. -/
  segs : List Segment
  /-- The end of what the cap has dropped. -/
  archiveFloor : Nat
  deriving DecidableEq

def Tier.open' : Tier := ⟨1, [], 0⟩

structure Manifest where
  nextId : Nat
  segs : List SegmentMeta
  archiveFloor : Nat
  deriving DecidableEq

def Tier.manifest (t : Tier) : Manifest := ⟨t.nextId, t.segs.map (·.info), t.archiveFloor⟩

/-- Split a list in pieces of `n`. A turn makes one piece. -/
def chunksOf {α : Type} (n : Nat) : Nat → List α → List (List α)
  | 0, _ => []
  | fuel + 1, l => if l.isEmpty then [] else l.take n :: chunksOf n fuel (l.drop n)

def chunks {α : Type} (n : Nat) (l : List α) : List (List α) := chunksOf n l.length l

def Tier.sealAll (crc : Crc) (t : Tier) : List (List HistoryRecord) → Tier
  | [] => t
  | rs :: rest =>
    Tier.sealAll crc ⟨t.nextId + 1, t.segs ++ [sealSegment crc t.nextId rs], t.archiveFloor⟩ rest

/-- Write records to segments of at most `segMaxRecords`. -/
def Tier.archiveStream (crc : Crc) (t : Tier) (rs : List HistoryRecord) : Tier :=
  t.sealAll crc (chunks segMaxRecords rs)

/-- Whether the cap has to keep a segment: a pin at or below its top, or a mirror that does
not have it yet. -/
def Segment.held (pin : Option Nat) (uploaded : Option (List Nat)) (g : Segment) : Bool :=
  (match pin with
    | some p => decide (p ≤ g.info.throughSeq)
    | none => false) ||
  match uploaded with
  | some ids => !ids.contains g.info.id
  | none => false

def dropOldest (pin : Option Nat) (uploaded : Option (List Nat)) (cap : Nat) :
    Nat → List Segment → Nat → List Segment × Nat
  | _, [], floor => ([], floor)
  | total, g :: rest, floor =>
    if total ≤ cap || g.held pin uploaded then (g :: rest, floor)
    else dropOldest pin uploaded cap (total - g.info.bytes) rest (max floor (g.info.throughSeq + 1))

/-- Drop the oldest segments while there are more bytes than the cap; zero is no cap. -/
def Tier.enforceCap (t : Tier) (pin : Option Nat) (cap : Nat) (uploaded : Option (List Nat)) : Tier :=
  if cap = 0 then t
  else
    let (segs, floor) := dropOldest pin uploaded cap (t.segs.map (·.info.bytes)).sum t.segs t.archiveFloor
    { t with segs := segs, archiveFloor := floor }

/-! ### Archive passes -/

/-- A version noted for the archive, with the record it becomes. -/
structure Noted where
  op : WriteOp
  record : HistoryRecord
  deriving DecidableEq

/-- Note a version below the floor. Its stored value is resolved, whatever its kind; if that
fails the pass fails. -/
def archiveNote (readPtr : Value → Option Value) (floor : Nat) (chunk : List Noted) (op : WriteOp) :
    Option (List Noted) :=
  if floor ≤ op.sequence then some chunk
  else (resolveStoredValue readPtr op.value).map fun val =>
    chunk ++ [⟨op, ⟨op.key, val, op.sequence, archiveKindTag op.kind⟩⟩]

def archiveChunk : Nat := 4096

/-- The tier, and what has been archived from the start of the pass on. -/
abbrev Pass := Tier × List WriteOp

def flushChunk (crc : Crc) (p : Pass) (chunk : List Noted) : Pass :=
  if chunk.isEmpty then p else (p.1.archiveStream crc (chunk.map (·.record)), p.2 ++ chunk.map (·.op))

/-- The files, each a table and whether its stream came to the end. A chunk that is large
enough is written after a file; an error leaves what was written. -/
def archiveFiles (crc : Crc) (readPtr : Value → Option Value) (floor : Nat) :
    List (Table × Bool) → List Noted → Pass → Bool × Pass
  | [], chunk, p => (true, flushChunk crc p chunk)
  | (t, complete) :: rest, chunk, p =>
    match t.foldlM (archiveNote readPtr floor) chunk with
    | none => (false, p)
    | some chunk =>
      if !complete then (false, p)
      else if archiveChunk ≤ chunk.length then archiveFiles crc readPtr floor rest []
        (flushChunk crc p chunk)
      else archiveFiles crc readPtr floor rest chunk p

/-- The pass of an archive: the memtable and the immutable one, then the files. -/
def archiveBelow (crc : Crc) (readPtr : Value → Option Value) (floor : Nat) (mem imm : Table)
    (files : List (Table × Bool)) (t : Tier) : Bool × Pass :=
  match (mem ++ imm).foldlM (archiveNote readPtr floor) [] with
  | none => (false, (t, []))
  | some chunk => archiveFiles crc readPtr floor files [] (flushChunk crc (t, []) chunk)

/-! ### The remote tier -/

structure Remote where
  objects : List (SegmentName × Bytes)
  /-- The files of the generations. One that was cut short does not decode. -/
  generations : List (Nat × Option Manifest)
  /-- The generation that `LATEST` names; none if there is no `LATEST` or it was cut short. -/
  latest : Option Nat
  deriving DecidableEq

def manifestName (n : Nat) : List Char := "MANIFEST-".toList ++ Decimal.padded 16 n

namespace Remote

/-- Upload a segment under its name: it must walk, and what is there already must be the
same. -/
def putSegment (crc : Crc) (r : Remote) (file : Bytes) : Except HistoryError Remote :=
  match walkSegmentRecords crc file with
  | .error e => .error e
  | .ok _ =>
    let name := segmentName crc file
    match r.objects.lookup name with
    | none => .ok { r with objects := r.objects ++ [(name, file)] }
    | some have' =>
      if have'.length ≠ file.length then
        .error (.corruptHistory ("remote name collision at " ++ name.text ++ ": read-back differs"))
      else if crc 0 have' ≠ crc 0 file then
        .error (.corruptHistory ("remote name collision at " ++ name.text ++ ": crc mismatch"))
      else if have' ≠ file then
        .error (.corruptHistory ("remote name collision at " ++ name.text ++ ": read-back differs"))
      else .ok r

/-- A put of a segment that fails with so many bytes written. An object that is there is
not written. -/
def tearSegment (crc : Crc) (r : Remote) (file : Bytes) (written : Nat) : Remote :=
  match walkSegmentRecords crc file, r.objects.lookup (segmentName crc file) with
  | .ok _, none => { r with objects := r.objects ++ [(segmentName crc file, file.take written)] }
  | _, _ => r

/-- Write a generation of the manifest; one that is there already must be the same. -/
def putGeneration (r : Remote) (m : Manifest) : Except HistoryError Remote :=
  match r.generations.lookup m.nextId with
  | none => .ok { r with generations := (m.nextId, some m) :: r.generations }
  | some have' =>
    if have' = some m then .ok r
    else .error (.corruptHistory
      ("remote manifest generation " ++ toString m.nextId ++ " exists with different bytes"))

/-- The same if the write fails once the file is created. -/
def tearGeneration (r : Remote) (m : Manifest) : Remote :=
  match r.generations.lookup m.nextId with
  | none => { r with generations := (m.nextId, none) :: r.generations }
  | some _ => r

/-- Put a manifest: its generation and then `LATEST`, which is left at this. -/
def putManifest (r : Remote) (m : Manifest) (latest : Option Nat) : Remote :=
  match r.putGeneration m with
  | .error _ => r
  | .ok r => { r with latest := latest }

/-- The generations by name, the last one first. -/
def walkBack (r : Remote) : List (Nat × Option Manifest) :=
  r.generations.insertionSort fun a b => ¬ manifestName a.1 < manifestName b.1

/-- The manifest that a reader gets: the one that `LATEST` names if it is there whole,
otherwise the last by name that is. -/
def latestManifest (r : Remote) : Option Manifest :=
  match r.latest.bind fun n => (r.generations.lookup n).join with
  | some m => some m
  | none => r.walkBack.findSome? Prod.snd

def latestSegments (r : Remote) : List SegmentMeta :=
  match r.latestManifest with
  | none => []
  | some m => m.segs

def readSegment (r : Remote) (name : SegmentName) : Except HistoryError Bytes :=
  match r.objects.lookup name with
  | none => .error .notFound
  | some file => .ok file

end Remote

/-- Where an upload ends: after so many segments, at a write that fails in its middle, before
`LATEST`, or all the way. -/
inductive Reach where
  | segments (n : Nat)
  /-- So many segments, and so many bytes of the next. -/
  | tornSegment (n written : Nat)
  | tornGeneration
  | generation
  | tornLatest
  | latest
  deriving DecidableEq

/-- The segments that are put whole. -/
def Reach.shipped (segs : List Segment) : Reach → List Segment
  | .segments n | .tornSegment n _ => segs.take n
  | .tornGeneration | .generation | .tornLatest | .latest => segs

/-- Ship segments, and note which have arrived. -/
def shipSegments (crc : Crc) : List Segment → Remote → List Nat → Bool × Remote × List Nat
  | [], r, uploaded => (true, r, uploaded)
  | g :: rest, r, uploaded =>
    match r.putSegment crc g.file with
    | .error _ => (false, r, uploaded)
    | .ok r => shipSegments crc rest r (uploaded ++ [g.info.id])

/-- What comes after the segments that are put whole. -/
def Remote.finish (crc : Crc) (r : Remote) (t : Tier) : Reach → Remote
  | .segments _ => r
  | .tornSegment n written =>
    match t.segs[n]? with
    | none => r
    | some g => r.tearSegment crc g.file written
  | .tornGeneration => r.tearGeneration t.manifest
  | .generation => r.putManifest t.manifest r.latest
  -- `create` truncates, so the old `LATEST` is gone before the new one is written
  | .tornLatest => r.putManifest t.manifest none
  | .latest => r.putManifest t.manifest (some t.nextId)

/-- One upload: the remote tier and the segments that have arrived. -/
def uploadHistoryStep (crc : Crc) (t : Tier) (reach : Reach) (r : Remote) (uploaded : List Nat) :
    Remote × List Nat :=
  match shipSegments crc (reach.shipped t.segs) r uploaded with
  | (false, r, uploaded) => (r, uploaded)
  | (true, r, uploaded) => (r.finish crc t reach, uploaded)

/-! ### What the pieces keep -/

theorem flatten_chunksOf {α : Type} {n : Nat} (hn : 0 < n) {fuel : Nat} {l : List α}
    (hfuel : l.length ≤ fuel) :
    (chunksOf n fuel l).flatten = l := by
  induction fuel generalizing l with
  | zero =>
    obtain rfl : l = [] := length_eq_zero_iff.mp (by omega)
    rfl
  | succ fuel ih =>
    rw [chunksOf]
    cases l with
    | nil => rfl
    | cons a l =>
      simp only [isEmpty_cons, Bool.false_eq_true, if_false, flatten_cons]
      rw [ih (by simp at hfuel ⊢; omega), take_append_drop]

@[simp] theorem flatten_chunks {α : Type} {n : Nat} (hn : 0 < n) (l : List α) :
    (chunks n l).flatten = l :=
  flatten_chunksOf hn .refl

def filesOf (crc : Crc) (groups : List (List HistoryRecord)) : List Bytes :=
  groups.map fun rs => rs.flatMap (·.bytes crc)

theorem sealAll_files (crc : Crc) (t : Tier) (groups : List (List HistoryRecord)) :
    (t.sealAll crc groups).segs.map (·.file) = t.segs.map (·.file) ++ filesOf crc groups ∧
      (t.sealAll crc groups).archiveFloor = t.archiveFloor := by
  induction groups generalizing t with
  | nil => simp [Tier.sealAll, filesOf]
  | cons rs groups ih =>
    obtain ⟨hfiles, hfloor⟩ := ih ⟨t.nextId + 1, t.segs ++ [sealSegment crc t.nextId rs], t.archiveFloor⟩
    refine ⟨?_, hfloor⟩
    rw [Tier.sealAll, hfiles]
    simp [filesOf, sealSegment]

theorem sealAll_names (crc : Crc) (t : Tier) (groups : List (List HistoryRecord))
    (h : ∀ g ∈ t.segs, g.info.name = segmentName crc g.file) :
    ∀ g ∈ (t.sealAll crc groups).segs, g.info.name = segmentName crc g.file := by
  induction groups generalizing t with
  | nil => exact h
  | cons rs groups ih =>
    refine ih _ fun g hg => ?_
    rcases mem_append.mp hg with hg | hg
    · exact h g hg
    · obtain rfl : g = sealSegment crc t.nextId rs := by simpa using hg
      rfl

theorem sealAll_nextId (crc : Crc) (t : Tier) (groups : List (List HistoryRecord)) :
    t.nextId ≤ (t.sealAll crc groups).nextId := by
  induction groups generalizing t with
  | nil => exact .refl
  | cons rs groups ih =>
    have hrest := ih ⟨t.nextId + 1, t.segs ++ [sealSegment crc t.nextId rs], t.archiveFloor⟩
    exact Nat.le_of_succ_le hrest

theorem dropOldest_suffix (pin : Option Nat) (uploaded : Option (List Nat)) (cap total : Nat)
    (segs : List Segment)
    (floor : Nat) :
    ((dropOldest pin uploaded cap total segs floor).1 = segs ∧
      (dropOldest pin uploaded cap total segs floor).2 = floor) ∨
      0 < (dropOldest pin uploaded cap total segs floor).2 := by
  induction segs generalizing total floor with
  | nil => exact .inl ⟨rfl, rfl⟩
  | cons g rest ih =>
    rw [dropOldest]
    split
    · exact .inl ⟨rfl, rfl⟩
    · rcases ih (total - g.info.bytes) (max floor (g.info.throughSeq + 1)) with ⟨-, hfloor⟩ | hpos
      · refine .inr ?_
        rw [hfloor]
        omega
      · exact .inr hpos

theorem dropOldest_mem {cap total : Nat} {segs : List Segment}
    {floor : Nat} {g : Segment} (h : g ∈ (dropOldest pin uploaded cap total segs floor).1) :
    g ∈ segs := by
  induction segs generalizing total floor with
  | nil => exact h
  | cons a rest ih =>
    rw [dropOldest] at h
    split at h
    · exact h
    · exact mem_cons_of_mem _ (ih h)

theorem enforceCap_cases (t : Tier) (pin : Option Nat) (cap : Nat) (uploaded : Option (List Nat)) :
    t.enforceCap pin cap uploaded = t ∨ 0 < (t.enforceCap pin cap uploaded).archiveFloor := by
  rw [Tier.enforceCap]
  split
  · exact .inl rfl
  · rcases dropOldest_suffix pin uploaded cap
      (t.segs.map (·.info.bytes)).sum t.segs t.archiveFloor with ⟨hsegs, hfloor⟩ | hpos
    · left
      simp [hsegs, hfloor]
    · exact .inr hpos

theorem enforceCap_nextId (t : Tier) (pin : Option Nat) (cap : Nat) (uploaded : Option (List Nat)) :
    (t.enforceCap pin cap uploaded).nextId = t.nextId := by
  rw [Tier.enforceCap]
  split <;> rfl

theorem enforceCap_mem {t : Tier} {cap : Nat} {g : Segment}
    (h : g ∈ (t.enforceCap pin cap uploaded).segs) : g ∈ t.segs := by
  rw [Tier.enforceCap] at h
  split at h
  · exact h
  · exact dropOldest_mem h

/-! ### What a reader gets -/

section Reader
variable {n : Nat} {m : Manifest}

theorem mem_of_lookup {β : Type} {l : List (Nat × β)} {file : β} (h : l.lookup n = some file) :
    (n, file) ∈ l := by
  obtain ⟨before, after, hl, -⟩ := lookup_eq_some_iff.mp h
  rw [hl]
  simp

/-- A reader gets one of the generations that are whole. -/
theorem latestManifest_mem (h : r.latestManifest = some m) : ∃ n, (n, some m) ∈ r.generations := by
  rw [Remote.latestManifest] at h
  split at h
  · rename_i found hnamed
    cases h
    obtain ⟨n, -, hn⟩ := Option.bind_eq_some_iff.mp hnamed
    exact ⟨n, mem_of_lookup (Option.join_eq_some_iff.mp hn)⟩
  · obtain ⟨⟨n, file⟩, hmem, hfile⟩ := exists_of_findSome?_eq_some h
    cases hfile
    exact ⟨n, (mem_insertionSort _).mp hmem⟩

/-- If one is whole a reader gets one. -/
theorem latestManifest_isSome (h : (n, some m) ∈ r.generations) : r.latestManifest.isSome = true := by
  rw [Remote.latestManifest]
  split
  · rfl
  · exact findSome?_isSome_iff.mpr ⟨_, (mem_insertionSort _).mpr h, rfl⟩

theorem latestManifest_named (hlatest : r.latest = some n)
    (hgen : r.generations.lookup n = some (some m)) : r.latestManifest = some m := by
  simp [Remote.latestManifest, hlatest, hgen]

theorem findSome?_orderedInsert_torn (le : Nat × Option Manifest → Nat × Option Manifest → Prop)
    [DecidableRel le] (l : List (Nat × Option Manifest)) :
    (l.orderedInsert le (n, none)).findSome? Prod.snd = l.findSome? Prod.snd := by
  induction l with
  | nil => rfl
  | cons g l ih =>
    rw [orderedInsert]
    split
    · rfl
    · simp only [findSome?_cons, ih]

/-- Without `LATEST` a reader gets the generation with the highest number, if it is whole and
the numbers have no more digits than the names. -/
theorem latestManifest_highest (hlatest : r.latest = none) (hmem : (n, some m) ∈ r.generations)
    (hnodup : (r.generations.map Prod.fst).Nodup) (hle : ∀ g ∈ r.generations, g.1 ≤ n)
    (hdigits : n < 10 ^ 16) : r.latestManifest = some m := by
  have hpairs : r.walkBack.Pairwise fun a b => ¬ manifestName a.1 < manifestName b.1 := by
    have : Std.Total fun a b : Nat × Option Manifest => ¬ manifestName a.1 < manifestName b.1 :=
      ⟨fun a b => (List.le_total _ _).imp List.not_lt.mpr List.not_lt.mpr⟩
    have : IsTrans (Nat × Option Manifest) fun a b => ¬ manifestName a.1 < manifestName b.1 :=
      ⟨fun _ _ _ h h' => List.not_lt.mpr (List.le_trans (List.not_lt.mp h') (List.not_lt.mp h))⟩
    exact pairwise_insertionSort _ _
  have hperm : r.walkBack.Perm r.generations := perm_insertionSort _ _
  obtain ⟨before, after, hsplit⟩ := append_of_mem (hperm.mem_iff.mpr hmem)
  have hfirst : before = [] := by
    refine eq_nil_iff_forall_not_mem.mpr fun g hg => ?_
    rw [hsplit] at hpairs hperm
    -- its name is not below that of `n`, nor is its number above
    have hname : ¬ manifestName g.1 < manifestName n :=
      (pairwise_append.mp hpairs).2.2 g hg _ mem_cons_self
    have hpadded : ¬ Decimal.padded 16 n < Decimal.padded 16 g.1 :=
      Decimal.padded_not_lt (by decide) hdigits (hle g (hperm.mem_iff.mp (mem_append_left _ hg)))
    have hback : ¬ manifestName n < manifestName g.1 :=
      List.not_lt.mpr (List.append_left_le (List.not_lt.mp hpadded))
    have hsame : g.1 = n := Decimal.padded_injective
      (append_cancel_left (List.le_antisymm (List.not_lt.mp hback) (List.not_lt.mp hname)))
    have hnodup := (hperm.map Prod.fst).nodup_iff.mpr hnodup
    rw [map_append, map_cons] at hnodup
    exact (disjoint_of_nodup_append hnodup) (mem_map_of_mem hg) (hsame ▸ mem_cons_self)
  simp [Remote.latestManifest, hlatest, hsplit, hfirst]

end Reader

/-! ### What an upload keeps -/

/-- What the remote tier has stays. -/
structure Remote.Keeps (r r' : Remote) : Prop where
  objects : ∀ name file, r.objects.lookup name = some file → r'.objects.lookup name = some file
  generations : ∀ n file, r.generations.lookup n = some file → r'.generations.lookup n = some file

theorem Remote.Keeps.refl (r : Remote) : r.Keeps r := ⟨fun _ _ h => h, fun _ _ h => h⟩

theorem Remote.Keeps.trans {r'' : Remote} (h : r.Keeps r') (h' : r'.Keeps r'') : r.Keeps r'' :=
  ⟨fun n f hf => h'.objects n f (h.objects n f hf),
    fun n m hm => h'.generations n m (h.generations n m hm)⟩

/-- The manifest of a tier is there whole, and so is every segment under its name. -/
structure Remote.Holds (crc : Crc) (r : Remote) (t : Tier) : Prop where
  generation : r.generations.lookup t.nextId = some (some t.manifest)
  segments : ∀ g ∈ t.segs, r.objects.lookup (segmentName crc g.file) = some g.file

theorem Remote.Holds.keeps {crc : Crc} {t : Tier} (h : r.Holds crc t) (hkeeps : r.Keeps r') :
    r'.Holds crc t :=
  ⟨hkeeps.generations _ _ h.generation, fun g hg => hkeeps.objects _ _ (h.segments g hg)⟩

theorem keeps_of_object (r : Remote) (name : SegmentName) (file : Bytes) :
    r.Keeps { r with objects := r.objects ++ [(name, file)] } := by
  refine ⟨fun n f hf => ?_, fun _ _ hm => hm⟩
  simp [lookup_append, hf]

theorem keeps_of_generation {n : Nat} {file : Option Manifest} (h : r.generations.lookup n = none) :
    r.Keeps { r with generations := (n, file) :: r.generations } := by
  refine ⟨fun _ _ hf => hf, fun k f hf => ?_⟩
  have hne : k ≠ n := by
    intro hk
    rw [hk, h] at hf
    cases hf
  simpa [lookup_cons, beq_eq_false_iff_ne.mpr hne] using hf

theorem putSegment_ok {crc : Crc} {file : Bytes} (h : r.putSegment crc file = .ok r') :
    r'.objects.lookup (segmentName crc file) = some file ∧ r.Keeps r' ∧
      r'.generations = r.generations ∧ r'.latest = r.latest := by
  rw [Remote.putSegment] at h
  split at h
  · cases h
  simp only at h
  split at h
  · rename_i hnone
    cases h
    exact ⟨by simp [lookup_append, hnone], keeps_of_object .., rfl, rfl⟩
  · rename_i found hfound
    split at h
    · cases h
    split at h
    · cases h
    split at h
    · cases h
    · rename_i heq
      cases h
      rw [not_not] at heq
      exact ⟨by rw [hfound, heq], .refl _, rfl, rfl⟩

theorem tearSegment_keeps (crc : Crc) (r : Remote) (file : Bytes) (written : Nat) :
    r.Keeps (r.tearSegment crc file written) ∧
      (r.tearSegment crc file written).generations = r.generations ∧
      (r.tearSegment crc file written).latest = r.latest := by
  rw [Remote.tearSegment]
  split
  · exact ⟨keeps_of_object .., rfl, rfl⟩
  · exact ⟨.refl _, rfl, rfl⟩

theorem shipSegments_spec (crc : Crc) (segs : List Segment) (r : Remote) (uploaded : List Nat) :
    r.Keeps (shipSegments crc segs r uploaded).2.1 ∧
      (shipSegments crc segs r uploaded).2.1.generations = r.generations ∧
      (shipSegments crc segs r uploaded).2.1.latest = r.latest ∧
      ((shipSegments crc segs r uploaded).1 = true → ∀ g ∈ segs,
        (shipSegments crc segs r uploaded).2.1.objects.lookup (segmentName crc g.file) =
        some g.file) := by
  induction segs generalizing r uploaded with
  | nil => exact ⟨.refl _, rfl, rfl, by simp⟩
  | cons g segs ih =>
    rw [shipSegments]
    cases hput : r.putSegment crc g.file with
    | error e => exact ⟨.refl _, rfl, rfl, by simp⟩
    | ok r' =>
      obtain ⟨hfound, hkeeps, hgens, hlatest⟩ := putSegment_ok hput
      obtain ⟨hkeeps', hgens', hlatest', hrest⟩ := ih r' (uploaded ++ [g.info.id])
      refine ⟨hkeeps.trans hkeeps', hgens'.trans hgens, hlatest'.trans hlatest, fun hok a ha => ?_⟩
      rcases mem_cons.mp ha with rfl | ha
      · exact hkeeps'.objects _ _ hfound
      · exact hrest hok a ha

/-- The generations stay, or a new number gets a file. -/
def Grows (n : Nat) (file : Option Manifest) (gens gens' : List (Nat × Option Manifest)) : Prop :=
  gens' = gens ∨ gens.lookup n = none ∧ gens' = (n, file) :: gens

/-- A file that does not decode is nothing to a reader. -/
theorem latestManifest_torn {n : Nat} (hgrows : Grows n none r.generations r'.generations)
    (hlatest : r'.latest = r.latest) : r'.latestManifest = r.latestManifest := by
  simp only [Remote.latestManifest, Remote.walkBack, hlatest]
  rcases hgrows with heq | ⟨hnone, heq⟩
  · rw [heq]
  · have hjoin : ∀ k, (r'.generations.lookup k).join = (r.generations.lookup k).join := by
      intro k
      rw [heq, lookup_cons]
      split
      · rename_i hk
        rw [beq_iff_eq.mp hk, hnone]
        rfl
      · rfl
    simp only [hjoin]
    rw [heq, insertionSort_cons, findSome?_orderedInsert_torn]

section Uploads
variable {crc : Crc} {t : Tier} {latest : Option Nat}

/-- The manifest of a tier was put, and `LATEST` is left at this. -/
structure Puts (crc : Crc) (t : Tier) (r r' : Remote) (latest : Option Nat) : Prop where
  holds : r'.Holds crc t
  grows : Grows t.nextId (some t.manifest) r.generations r'.generations
  latest : r'.latest = latest

/-- What one upload does: it changes nothing that a reader looks at, or it puts the tier's
manifest, with `LATEST` as it was, cut short or naming it. -/
inductive Uploads (crc : Crc) (t : Tier) (r r' : Remote) : Reach → Prop where
  | quiet (reach : Reach) (hgrows : Grows t.nextId none r.generations r'.generations)
      (hlatest : r'.latest = r.latest) : Uploads crc t r r' reach
  | generation (h : Puts crc t r r' r.latest) : Uploads crc t r r' .generation
  | torn (h : Puts crc t r r' none) : Uploads crc t r r' .tornLatest
  | latest (h : Puts crc t r r' (some t.nextId)) : Uploads crc t r r' .latest

theorem putManifest_cases (hsegs : ∀ g ∈ t.segs, r.objects.lookup (segmentName crc g.file) = some g.file)
    (latest : Option Nat) : r.putManifest t.manifest latest = r ∨
      r.Keeps (r.putManifest t.manifest latest) ∧
        Puts crc t r (r.putManifest t.manifest latest) latest := by
  rw [Remote.putManifest, Remote.putGeneration]
  cases hlook : r.generations.lookup t.manifest.nextId with
  | none =>
    have hkeeps := @keeps_of_generation _ _ (some t.manifest) hlook
    exact .inr ⟨⟨hkeeps.objects, hkeeps.generations⟩, ⟨by simp [Tier.manifest], hsegs⟩,
      .inr ⟨hlook, rfl⟩, rfl⟩
  | some file =>
    by_cases hsame : file = some t.manifest
    · simp only [hsame, if_true]
      exact .inr ⟨⟨fun _ _ h => h, fun _ _ h => h⟩, ⟨hlook.trans (congrArg some hsame), hsegs⟩,
        .inl rfl, rfl⟩
    · simp only [hsame, if_false]
      exact .inl trivial

theorem finish_spec {reach : Reach}
    (hsegs : ∀ g ∈ reach.shipped t.segs, r.objects.lookup (segmentName crc g.file) = some g.file) :
    r.Keeps (r.finish crc t reach) ∧ Uploads crc t r (r.finish crc t reach) reach := by
  have hsame : r.Keeps r ∧ Uploads crc t r r reach := ⟨.refl r, .quiet reach (.inl rfl) rfl⟩
  cases reach with
  | segments n => exact hsame
  | tornSegment n written =>
    rw [Remote.finish]
    cases t.segs[n]? with
    | none => exact hsame
    | some g =>
      obtain ⟨hkeeps, hgens, hlatest⟩ := tearSegment_keeps crc r g.file written
      exact ⟨hkeeps, .quiet _ (.inl hgens) hlatest⟩
  | tornGeneration =>
    rw [Remote.finish, Remote.tearGeneration]
    cases hlook : r.generations.lookup t.manifest.nextId with
    | none => exact ⟨keeps_of_generation hlook, .quiet _ (.inr ⟨hlook, rfl⟩) rfl⟩
    | some file => exact hsame
  | generation =>
    rw [Remote.finish]
    rcases putManifest_cases hsegs r.latest with heq | ⟨hkeeps, hputs⟩
    · rwa [heq]
    · exact ⟨hkeeps, .generation hputs⟩
  | tornLatest =>
    rw [Remote.finish]
    rcases putManifest_cases hsegs none with heq | ⟨hkeeps, hputs⟩
    · rwa [heq]
    · exact ⟨hkeeps, .torn hputs⟩
  | latest =>
    rw [Remote.finish]
    rcases putManifest_cases hsegs (some t.nextId) with heq | ⟨hkeeps, hputs⟩
    · rwa [heq]
    · exact ⟨hkeeps, .latest hputs⟩

theorem Uploads.congr {r₀ : Remote} {reach : Reach} (h : Uploads crc t r r' reach)
    (hgens : r.generations = r₀.generations) (hlatest : r.latest = r₀.latest) :
    Uploads crc t r₀ r' reach := by
  cases h with
  | quiet _ hgrows hl => exact .quiet _ (hgens ▸ hgrows) (hl.trans hlatest)
  | generation h => exact .generation ⟨h.holds, hgens ▸ h.grows, h.latest.trans hlatest⟩
  | torn h => exact .torn ⟨h.holds, hgens ▸ h.grows, h.latest⟩
  | latest h => exact .latest ⟨h.holds, hgens ▸ h.grows, h.latest⟩

theorem Uploads.grows {reach : Reach} (h : Uploads crc t r r' reach) :
    ∃ file, Grows t.nextId file r.generations r'.generations := by
  cases h with
  | quiet _ hgrows _ => exact ⟨_, hgrows⟩
  | generation h => exact ⟨_, h.grows⟩
  | torn h => exact ⟨_, h.grows⟩
  | latest h => exact ⟨_, h.grows⟩

/-- **What one upload does.** Nothing is taken away, and it ends in one of the ways of
`Uploads`. -/
theorem uploadHistoryStep_spec (crc : Crc) (t : Tier) (reach : Reach) (r : Remote)
    (uploaded : List Nat) :
    r.Keeps (uploadHistoryStep crc t reach r uploaded).1 ∧
      Uploads crc t r (uploadHistoryStep crc t reach r uploaded).1 reach := by
  obtain ⟨hkeeps, hgens, hlatest, hall⟩ := shipSegments_spec crc (reach.shipped t.segs) r uploaded
  rw [uploadHistoryStep]
  split
  · rename_i r₁ up hs
    rw [hs] at hkeeps hgens hlatest
    exact ⟨hkeeps, .quiet _ (.inl hgens) hlatest⟩
  · rename_i r₁ up hs
    rw [hs] at hkeeps hgens hlatest hall
    obtain ⟨hkeeps', hup⟩ := finish_spec (hall rfl)
    exact ⟨hkeeps.trans hkeeps', hup.congr hgens hlatest⟩

/-- What uploads of these tiers leave: nothing is gone, `LATEST` is as it was, cut short or
names the manifest of a tier that is held, and so is every manifest that has come. -/
structure Settles (crc : Crc) (ts : List Tier) (r r' : Remote) : Prop where
  keeps : r.Keeps r'
  latest : r'.latest = r.latest ∨ r'.latest = none ∨
    ∃ t ∈ ts, r'.latest = some t.nextId ∧ r'.Holds crc t
  whole : ∀ n m, (n, some m) ∈ r'.generations →
    (n, some m) ∈ r.generations ∨ ∃ t ∈ ts, m = t.manifest ∧ r'.Holds crc t

theorem Grows.whole {n k : Nat} {file : Option Manifest} {m : Manifest}
    {gens gens' : List (Nat × Option Manifest)} (h : Grows n file gens gens')
    (hm : (k, some m) ∈ gens') : (k, some m) ∈ gens ∨ file = some m := by
  rcases h with rfl | ⟨-, rfl⟩
  · exact .inl hm
  · rcases mem_cons.mp hm with heq | hold
    · cases heq
      exact .inr rfl
    · exact .inl hold

theorem Puts.settles (h : Puts crc t r r' latest) {n : Nat} {m : Manifest}
    (hm : (n, some m) ∈ r'.generations) :
    (n, some m) ∈ r.generations ∨ ∃ u ∈ [t], m = u.manifest ∧ r'.Holds crc u := by
  rcases h.grows.whole hm with hold | hnew
  · exact .inl hold
  · exact .inr ⟨t, mem_singleton_self t, (Option.some.inj hnew).symm, h.holds⟩

theorem uploadHistoryStep_settles (crc : Crc) (t : Tier) (reach : Reach) (r : Remote)
    (uploaded : List Nat) : Settles crc [t] r (uploadHistoryStep crc t reach r uploaded).1 := by
  obtain ⟨hkeeps, hup⟩ := uploadHistoryStep_spec crc t reach r uploaded
  generalize (uploadHistoryStep crc t reach r uploaded).1 = r' at hkeeps hup
  cases hup with
  | quiet _ hgrows hlatest =>
    refine ⟨hkeeps, .inl hlatest, fun n m hm => .inl ?_⟩
    rcases hgrows.whole hm with hold | hnew
    · exact hold
    · cases hnew
  | generation h => exact ⟨hkeeps, .inl h.latest, fun n m hm => h.settles hm⟩
  | torn h => exact ⟨hkeeps, .inr (.inl h.latest), fun n m hm => h.settles hm⟩
  | latest h =>
    exact ⟨hkeeps, .inr (.inr ⟨t, mem_singleton_self t, h.latest, h.holds⟩), fun n m hm => h.settles hm⟩

theorem Settles.trans {ts ts' : List Tier} {r'' : Remote} (h : Settles crc ts r r')
    (h' : Settles crc ts' r' r'') : Settles crc (ts ++ ts') r r'' := by
  refine ⟨h.keeps.trans h'.keeps, ?_, fun n m hm => ?_⟩
  · rcases h'.latest with hsame | hcut | ⟨t, ht, hnamed⟩
    · rcases h.latest with hold | hcut | ⟨t, ht, hnamed, hholds⟩
      · exact .inl (hsame.trans hold)
      · exact .inr (.inl (hsame.trans hcut))
      · exact .inr (.inr ⟨t, mem_append_left _ ht, hsame.trans hnamed, hholds.keeps h'.keeps⟩)
    · exact .inr (.inl hcut)
    · exact .inr (.inr ⟨t, mem_append_right _ ht, hnamed⟩)
  · rcases h'.whole n m hm with hmid | ⟨t, ht, hnew⟩
    · rcases h.whole n m hmid with hold | ⟨t, ht, heq, hholds⟩
      · exact .inl hold
      · exact .inr ⟨t, mem_append_left _ ht, heq, hholds.keeps h'.keeps⟩
    · exact .inr ⟨t, mem_append_right _ ht, hnew⟩

theorem uploads_settle (crc : Crc) (calls : List (Tier × Reach × List Nat)) (r : Remote) :
    Settles crc (calls.map Prod.fst) r
      (calls.foldl (fun r c => (uploadHistoryStep crc c.1 c.2.1 r c.2.2).1) r) := by
  induction calls generalizing r with
  | nil => exact ⟨.refl r, .inl rfl, fun n m hm => .inl hm⟩
  | cons c calls ih => exact (uploadHistoryStep_settles crc c.1 c.2.1 r c.2.2).trans (ih _)

/-- **Uploads never leave a reader with less.** After uploads that each ended somewhere,
nothing is gone; `LATEST` is as it was, cut short, or names the manifest of an uploaded tier;
where some generation was whole a reader gets a manifest, with or without `LATEST`; and what
it gets was there before, or is that of an uploaded tier with all its segments there under
their names. -/
theorem uploads_complete (crc : Crc) (calls : List (Tier × Reach × List Nat)) (r : Remote) :
    let r' := calls.foldl (fun r c => (uploadHistoryStep crc c.1 c.2.1 r c.2.2).1) r
    r.Keeps r' ∧
      (r'.latest = r.latest ∨ r'.latest = none ∨
        ∃ t ∈ calls.map Prod.fst, r'.latest = some t.nextId ∧ r'.Holds crc t) ∧
      (∀ n m, r.generations.lookup n = some (some m) → r'.latestManifest.isSome = true) ∧
      ∀ m, r'.latestManifest = some m → (∃ n, (n, some m) ∈ r.generations) ∨
        ∃ t ∈ calls.map Prod.fst, m = t.manifest ∧ r'.Holds crc t := by
  intro r'
  have hsettles : Settles crc (calls.map Prod.fst) r r' := uploads_settle crc calls r
  refine ⟨hsettles.keeps, hsettles.latest, fun n m hm => ?_, fun m hm => ?_⟩
  · exact latestManifest_isSome (mem_of_lookup (hsettles.keeps.generations n _ hm))
  · obtain ⟨n, hn⟩ := latestManifest_mem hm
    rcases hsettles.whole n m hn with hold | hnew
    · exact .inl ⟨n, hold⟩
    · exact .inr hnew

end Uploads

end PedraDb.History
