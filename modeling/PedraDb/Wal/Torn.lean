import PedraDb.Wal.Fate

/-! A log that was cut.

The file ends somewhere in the frames of a record. Where the cut leaves less than a header,
the reader is at the end of the log. Where it leaves a header, the length overruns the
block, and the reader goes on byte by byte through what there is of the payload. It takes
what it finds there for the log: the bytes of a payload may hold a frame whose checksum is
right, and then a record comes out that nobody appended (`embedded_record`).

What is kept are the records before the cut exactly if the walk through the torn fragment
finds nothing (`torn_tail_keeps_whole`). A log of which nothing can be read is refused
exactly if the walk comes to a fault that stops it (`torn_log_refused`), and mostly it does
not (`torn_log_reads_empty`). -/
namespace PedraDb.Wal
open List Fragment RecordType Reader
variable {fs : List Fragment} {crc : Crc} {r : Reader}

/-! ### A record and the cut -/

/-- What reading a record that was written comes to, of which there may be only a part. -/
inductive Meets where
  | record
  | ends
  | stops
  /-- A fragment is there in part. -/
  | torn (s : Bytes)
  deriving DecidableEq

/-- Go through the fragments of a record from the offset `b` of a block, with the bytes that
there are from there on. A later fragment needs a beginning that is not empty. -/
def meets (crc : Crc) : Nat → Bool → List Fragment → Bytes → Meets
  | _, _, [], _ => .record
  | b, begun, f :: fs, seen =>
    let s := (seen.drop f.pad).take (blockSize - entry b)
    if s.length < headerSize then .ends
    else if sealHere s then if validSeal crc s then .ends else .stops
    else if s.length < headerSize + f.payload.length then .torn s
    else if fragmentAct f.t (!begun) = .failStop then .stops
    else meets crc (entry b + headerSize + f.payload.length)
      (if f.t = .first then decide (0 < f.payload.length) else begun) fs
      (seen.drop (f.bytes crc).length)

theorem Reader.At.view {b : Nat} {rest : Bytes} (h : r.At b rest) :
    r.block.drop r.cursor = rest.take (blockSize - b) := by
  rw [h.cursor, ← h.rest]
  have hshort := h.short
  rcases h.full with hsrc | hfull
  · rw [hsrc, append_nil, take_of_length_le (by rw [length_drop]; omega)]
  · rw [take_append_of_le_length (by rw [length_drop]; omega),
      take_of_length_le (by rw [length_drop]; omega)]

/-- Less than a header is the end of the log. -/
theorem fill_short {b : Nat} {rest : Bytes} (hr : r.Before b rest)
    (hlen : rest.length < padding b + headerSize) : r.fill.1 = false := by
  have hpos : headerSize = 7 := rfl
  have hlack : r.lacksHeader = true := by
    rw [lacksHeader, decide_eq_true_eq]
    rcases hr with hat | ⟨hblock, hcursor, -, -⟩
    · have hlong := congrArg List.length hat.rest
      have := hat.short
      simp only [length_append, length_drop] at hlong
      rw [hat.cursor]
      simp only [padding] at hlen
      split at hlen <;> omega
    · simp [hblock, hcursor, hpos]
  have hsrc : r.src.length < headerSize := by
    rcases hr with hat | ⟨-, -, rfl, hsrc⟩
    · have hlong := congrArg List.length hat.rest
      simp only [length_append, length_drop] at hlong
      rcases hat.full with h | h
      · simp [h, hpos]
      · simp only [padding] at hlen
        split at hlen <;> omega
    · rw [hsrc]
      simpa [padding, blockSize, headerSize] using hlen
  have hlack' : r.readNextBlock.2.lacksHeader = true := by
    simp only [readNextBlock, lacksHeader, length_take, decide_eq_true_eq]
    omega
  simp [fill, hlack, hlack']

/-- The header of a record whose payload is cut. -/
theorem physical_torn {t : RecordType} {payload : Bytes} {k : Nat} (ht : t ≠ .zero)
    (hcursor : r.block.drop r.cursor = (physicalRecord crc t payload).take k)
    (hheader : headerSize ≤ k) (hcut : k < headerSize + payload.length)
    (hfit : r.cursor + headerSize + payload.length ≤ blockSize) :
    r.physical crc = (.fail (.truncated r.streamOffset), r) := by
  have hpos : headerSize = 7 := rfl
  have hlong := congrArg List.length hcursor
  simp only [length_drop, length_take, physicalRecord_length] at hlong
  have hbyte : ((physicalRecord crc t payload).take k).getD 6 0 = t.toByte := by
    rw [← record_type_field crc t payload [], append_nil, getD_eq_getElem?_getD, getD_eq_getElem?_getD,
      getElem?_take_of_lt (by omega)]
  have hlength : (((physicalRecord crc t payload).take k).drop 4).take 2 = leBytes 2 payload.length := by
    rw [← record_length_field crc t payload [], append_nil, drop_take, take_take,
      Nat.min_eq_left (by omega)]
  have hne : t.toByte ≠ 0 := by
    cases t <;> first | exact absurd rfl ht | decide
  have hsmall : payload.length < 256 ^ 2 := by
    simp only [blockSize] at hfit
    omega
  have hact : physicalPayloadAct payload.length (blockSize - headerSize)
      (r.cursor + headerSize + payload.length) r.block.length blockSize = .truncated := by
    rw [physicalPayloadAct, if_neg (by omega), if_pos (by omega), if_neg (by omega)]
  simp only [physical, hcursor, hbyte, hlength, ofLe_leBytes hsmall, hne, false_and, if_false,
    fromByte_toByte, hact]

section
variable {b n : Nat} {t : RecordType} {payload more : Bytes}

/-- Where a header is left, the reader finds it. -/
theorem fill_seen (hr : r.Before b ((bytes crc ⟨padding b, t, payload⟩ ++ more).take n))
    (hlen : padding b + headerSize ≤ ((bytes crc ⟨padding b, t, payload⟩ ++ more).take n).length) :
    ∃ r₁ : Reader, r.fill = (true, r₁) ∧
      r₁.At (entry b) ((physicalRecord crc t payload ++ more).take (n - padding b)) ∧
      r₁.scratch = r.scratch := by
  have hn : padding b ≤ n := by
    rw [length_take] at hlen
    omega
  have hsplit : (bytes crc ⟨padding b, t, payload⟩ ++ more).take n =
      List.replicate (padding b) 0 ++ (physicalRecord crc t payload ++ more).take (n - padding b) := by
    rw [bytes, append_assoc, take_append, length_replicate, take_of_length_le (by simpa using hn)]
  rw [hsplit] at hr hlen
  refine fill_at hr ?_
  rw [length_append, length_replicate] at hlen
  omega

/-- A turn at a fragment that is there, in part or whole. -/
theorem turn_seen (ht : t ≠ .zero) (hfit : entry b + headerSize + payload.length ≤ blockSize)
    (hr : r.Before b ((bytes crc ⟨padding b, t, payload⟩ ++ more).take n)) {s : Bytes}
    (hs : s = (((bytes crc ⟨padding b, t, payload⟩ ++ more).take n).drop (padding b)).take
      (blockSize - entry b)) (hlen : headerSize ≤ s.length) :
    ∃ r₁ : Reader, r₁.scratch = r.scratch ∧ r₁.block.drop r₁.cursor = s ∧
      (sealHere s = true → r.turn crc = (if validSeal crc s then .eof
        else .fail (.corruptSeal r₁.streamOffset), r₁)) ∧
      (sealHere s = false → s.length < headerSize + payload.length →
        r.turn crc = (.fail (.truncated r₁.streamOffset), r₁) ∧ r₁.src = []) ∧
      (sealHere s = false → headerSize + payload.length ≤ s.length →
        r.turn crc = { r₁ with cursor := entry b + headerSize + payload.length }.assemble t payload ∧
          Reader.At { r₁ with cursor := entry b + headerSize + payload.length }
            (entry b + headerSize + payload.length)
            (((bytes crc ⟨padding b, t, payload⟩ ++ more).take n).drop
              (bytes crc ⟨padding b, t, payload⟩).length)) := by
  have hpos : headerSize = 7 := rfl
  have hdrop : ((bytes crc ⟨padding b, t, payload⟩ ++ more).take n).drop (padding b) =
      (physicalRecord crc t payload ++ more).take (n - padding b) := by
    rw [drop_take, bytes, append_assoc, drop_left' length_replicate]
  have hleft := congrArg List.length hdrop
  rw [hdrop] at hs
  have hlong := congrArg List.length hs
  rw [length_drop] at hleft
  rw [length_take] at hlong
  obtain ⟨r₁, hfill, hat, hscratch⟩ := fill_seen hr (by omega)
  have hview : r₁.block.drop r₁.cursor = s := hat.view.trans hs.symm
  refine ⟨r₁, hscratch, hview, fun hseal => ?_, fun hseal hcut => ?_, fun hseal hwhole => ?_⟩
  · rw [← hview] at hseal
    simp only [turn, hfill, sealTurn_some hseal, hview]
  · rw [← hview] at hseal
    rw [length_take, length_append, physicalRecord_length] at hlong
    have hprefix : s = (physicalRecord crc t payload).take s.length := by
      have hmin : min (blockSize - entry b) (n - padding b) = s.length := by omega
      rw [take_take, hmin, take_append_of_le_length (by rw [physicalRecord_length]; omega)] at hs
      exact hs
    refine ⟨?_, hat.full.resolve_right fun hfull => ?_⟩
    · simp only [turn, hfill, sealTurn_none hseal]
      exact physical_torn ht (hview.trans hprefix) hlen hcut (by rw [hat.cursor]; exact hfit)
    · have := congrArg List.length hview
      rw [length_drop, hfull, hat.cursor] at this
      omega
  · rw [← hview] at hseal
    have hrest : (physicalRecord crc t payload ++ more).take (n - padding b) =
        physicalRecord crc t payload ++ more.take (n - (bytes crc ⟨padding b, t, payload⟩).length) := by
      rw [length_take] at hleft hlong
      rw [take_append, take_of_length_le (by rw [physicalRecord_length]; omega), bytes_length,
        physicalRecord_length, Nat.sub_sub, Nat.add_assoc]
    rw [hrest] at hat
    rw [drop_take, drop_left]
    simp only [turn, hfill, sealTurn_none hseal]
    exact physical_at ht hat hfit

/-- A read of the record comes to that. -/
inductive ReadsTo (data : Bytes) (stop : Nat) (rest : Bytes) :
    Except WalError (Option Bytes) × Reader → Meets → Prop where
  | record (r' : Reader) (hat : r'.At stop rest) : ReadsTo data stop rest (.ok (some data), r') .record
  | ends (r' : Reader) : ReadsTo data stop rest (.ok none, r') .ends
  | stops (e : WalError) (r' : Reader) (he : e.walkable = false) :
      ReadsTo data stop rest (.error e, r') .stops
  | torn (offset : Nat) (r' : Reader) (hsrc : r'.src = []) :
      ReadsTo data stop rest (.error (.truncated offset), r') (.torn (r'.block.drop r'.cursor))

/-- The fragment before the reader, and what comes of it where it is whole. -/
theorem readRecord_fragment {data rest : Bytes} {stop : Nat} {begun : Bool} (ht : t ≠ .zero)
    (hfit : entry b + headerSize + payload.length ≤ blockSize)
    (hr : r.Before b ((bytes crc ⟨padding b, t, payload⟩ ++ more).take n))
    (hwhole : ∀ r₂ : Reader, r₂.scratch = r.scratch → r.turn crc = r₂.assemble t payload →
      r₂.At (entry b + headerSize + payload.length)
        (((bytes crc ⟨padding b, t, payload⟩ ++ more).take n).drop
          (bytes crc ⟨padding b, t, payload⟩).length) →
      ReadsTo data stop rest (r.readRecord crc)
        (if fragmentAct t (!begun) = .failStop then .stops
          else meets crc (entry b + headerSize + payload.length)
            (if t = .first then decide (0 < payload.length) else begun) fs
            (((bytes crc ⟨padding b, t, payload⟩ ++ more).take n).drop
              (bytes crc ⟨padding b, t, payload⟩).length))) :
    ReadsTo data stop rest (r.readRecord crc) (meets crc b begun (⟨padding b, t, payload⟩ :: fs)
      ((bytes crc ⟨padding b, t, payload⟩ ++ more).take n)) := by
  rw [meets]
  dsimp only
  generalize hs : (((bytes crc ⟨padding b, t, payload⟩ ++ more).take n).drop (padding b)).take
    (blockSize - entry b) = s
  have hlong := congrArg List.length hs
  rw [length_take, length_drop] at hlong
  have hentry := entry_le b
  by_cases hshort : s.length < headerSize
  · rw [if_pos hshort]
    have hfill := fill_short hr (by omega)
    have hread : r.readRecord crc = (.ok none, r.fill.2) := by
      refine readRecord_eofTurn ?_
      rw [turn]
      generalize r.fill = filled at hfill ⊢
      obtain ⟨ok, r'⟩ := filled
      cases hfill
      rfl
    rw [hread]
    exact .ends _
  rw [if_neg hshort]
  obtain ⟨r₁, hscratch, hview, hsealed, hcut, hrest⟩ :=
    turn_seen ht hfit hr hs.symm (Nat.not_lt.mp hshort)
  cases hseal : sealHere s with
  | true =>
    have hturn := hsealed hseal
    simp only [if_true]
    cases hvalid : validSeal crc s with
    | true =>
      rw [hvalid] at hturn
      rw [readRecord_eofTurn hturn]
      exact .ends r₁
    | false =>
      rw [hvalid] at hturn
      rw [readRecord_fail hturn]
      exact .stops _ r₁ rfl
  | false =>
    simp only [Bool.false_eq_true, if_false]
    by_cases htorn : s.length < headerSize + payload.length
    · obtain ⟨hturn, hsrc⟩ := hcut hseal htorn
      rw [if_pos htorn, readRecord_fail hturn, ← hview]
      exact .torn _ r₁ hsrc
    · obtain ⟨hturn, hat⟩ := hrest hseal (Nat.not_lt.mp htorn)
      rw [if_neg htorn]
      exact hwhole { r₁ with cursor := entry b + headerSize + payload.length } hscratch hturn hat

end

/-- **What reading a record comes to**, where the log may end in it. -/
theorem readRecord_meets {b stop n : Nat} {begin' begun : Bool} {data more : Bytes}
    (hf : Framed b begin' data fs stop) (hr : r.Before b ((frameBytes crc fs ++ more).take n))
    (hbegun : begin' = false → begun = !r.scratch.isEmpty) :
    ReadsTo (if begin' then data else r.scratch ++ data) stop
      (more.take (n - (frameBytes crc fs).length)) (r.readRecord crc)
      (meets crc b begun fs ((frameBytes crc fs ++ more).take n)) := by
  induction hf generalizing r n begun with
  | fits b begin' data hfit =>
    have hone : frameBytes crc [⟨padding b, fragmentType begin' true, data⟩] =
        bytes crc ⟨padding b, fragmentType begin' true, data⟩ := by simp [frameBytes]
    rw [hone] at hr ⊢
    refine readRecord_fragment (fragmentType_ne_zero begin' true) hfit hr
      fun r₂ hscratch hturn hat => ?_
    rw [drop_take, drop_left] at hat
    cases begin' with
    | true =>
      rw [readRecord_yield hturn]
      exact .record _ (hat.withScratch [])
    | false =>
      rw [hbegun rfl, Bool.not_not, ← hscratch]
      cases hempty : r₂.scratch.isEmpty with
      | true =>
        have hturn : r.turn crc = (.fail (.orphan .last r₂.streamOffset), r₂) := by
          simp [hturn, assemble, fragmentType, fragmentAct, hempty]
        rw [readRecord_fail hturn]
        exact .stops _ r₂ rfl
      | false =>
        have hturn : r.turn crc = (.yield (r₂.scratch ++ data), { r₂ with scratch := [] }) := by
          simp [hturn, assemble, fragmentType, fragmentAct, hempty]
        rw [readRecord_yield hturn]
        exact .record _ (hat.withScratch [])
  | splits b begin' hfull hrest hmore ih =>
    rename_i stop payload rest fs
    rw [frameBytes_cons, append_assoc] at hr ⊢
    refine readRecord_fragment (fragmentType_ne_zero begin' false) (Nat.le_of_eq hfull) hr
      fun r₂ hscratch hturn hat => ?_
    rw [drop_take, drop_left] at hat ⊢
    rw [hfull] at hat ⊢
    rw [length_append, ← Nat.sub_sub]
    generalize n - (bytes crc ⟨padding b, fragmentType begin' false, payload⟩).length = k at hat ⊢
    -- the fragment is taken in, and the rest of the record is before the reader
    have goesOn : ∀ (scratch : Bytes) (begun' : Bool), (!scratch.isEmpty) = begun' →
        r.turn crc = (.next, { r₂ with scratch }) → ∀ all, scratch ++ rest = all →
        ReadsTo all stop (more.take (k - (frameBytes crc fs).length)) (r.readRecord crc)
          (meets crc blockSize begun' fs ((frameBytes crc fs ++ more).take k)) := by
      intro scratch begun' hempty hnext all hall
      rw [readRecord_next hnext, ← hall]
      exact ih (.inl (hat.withScratch scratch)) fun _ => hempty.symm
    cases begin' with
    | true => exact goesOn payload _ (by cases payload <;> rfl) hturn _ rfl
    | false =>
      rw [hbegun rfl, Bool.not_not, ← hscratch]
      cases hempty : r₂.scratch.isEmpty with
      | true =>
        have hturn : r.turn crc = (.fail (.orphan .middle r₂.streamOffset), r₂) := by
          simp [hturn, assemble, fragmentType, fragmentAct, hempty]
        rw [readRecord_fail hturn]
        exact .stops _ r₂ rfl
      | false =>
        refine goesOn (r₂.scratch ++ payload) _ ?_ ?_ _ (append_assoc ..)
        · cases hr : r₂.scratch with
          | nil => simp [hr] at hempty
          | cons => rfl
        · simp [hturn, assemble, fragmentType, fragmentAct, hempty]

/-- A reading that is torn at a fragment finds part of it; one that goes past it all. -/
theorem meets_cons {b : Nat} {f : Fragment} {begun : Bool} {seen : Bytes} {x : Meets}
    (hpad : f.pad = padding b) (hfit : entry b + headerSize + f.payload.length ≤ blockSize)
    (hends : x ≠ .ends) (hstops : x ≠ .stops) (h : meets crc b begun (f :: fs) seen = x) :
    seen.length < (f.bytes crc).length ∧ x ≠ .record ∨ (f.bytes crc).length ≤ seen.length ∧
      ∃ begun', meets crc (entry b + headerSize + f.payload.length) begun' fs
        (seen.drop (f.bytes crc).length) = x := by
  have hpos : headerSize = 7 := rfl
  have hpart : headerSize + f.payload.length ≤
      ((seen.drop f.pad).take (blockSize - entry b)).length ↔ (f.bytes crc).length ≤ seen.length := by
    rw [length_take, length_drop, bytes_length]
    omega
  rw [meets] at h
  generalize (seen.drop f.pad).take (blockSize - entry b) = s at h hpart
  split_ifs at h with hshort hseal hvalid htorn hact
  · exact absurd h.symm hends
  · exact absurd h.symm hends
  · exact absurd h.symm hstops
  · refine .inl ⟨?_, fun hrecord => by cases h.trans hrecord⟩
    omega
  · exact absurd h.symm hstops
  all_goals exact .inr ⟨by omega, _, h⟩

/-- How much of a record there is, by what its reading comes to. -/
theorem meets_length {b stop : Nat} {begin' begun : Bool} {data seen : Bytes} {x : Meets}
    (hf : Framed b begin' data fs stop) (hends : x ≠ .ends) (hstops : x ≠ .stops)
    (h : meets crc b begun fs seen = x) :
    x = .record ↔ (frameBytes crc fs).length ≤ seen.length := by
  induction hf generalizing seen begun with
  | fits b begin' data hfit =>
    have hone : frameBytes crc [⟨padding b, fragmentType begin' true, data⟩] =
      bytes crc ⟨padding b, fragmentType begin' true, data⟩ := by simp [frameBytes]
    rw [hone]
    rcases meets_cons (f := ⟨padding b, fragmentType begin' true, data⟩) rfl hfit hends hstops h
      with ⟨hlt, hx⟩ | ⟨hle, begun', hx⟩
    · exact iff_of_false hx (Nat.not_le.mpr hlt)
    · exact iff_of_true hx.symm hle
  | splits b begin' hfull hrest hmore ih =>
    rename_i payload rest fs
    rw [frameBytes_cons, length_append]
    rcases meets_cons (f := ⟨padding b, fragmentType begin' false, payload⟩) rfl (Nat.le_of_eq hfull)
      hends hstops h with ⟨hlt, hx⟩ | ⟨hle, begun', hx⟩
    · exact iff_of_false hx (by omega)
    · dsimp only at hx
      rw [hfull] at hx
      rw [ih hx, length_drop]
      omega

/-! ### Collecting up to the cut -/

/-- Behind a first fault that a walk goes over. -/
theorem collectLoop_walks {e : WalError} {r₁ : Reader} (n : Nat) (out : List Bytes)
    (he : isLengthResyncable e.recoverKind = true) (hread : r.readRecord crc = (.error e, r₁))
    (hn : r.left ≤ n) :
    Comes out r (fate crc r₁.src (r₁.block.drop r₁.cursor)) (r.collectLoop crc (n + 1) out 0 false) := by
  have hfollows := r.readRecord_follows crc
  rw [hread] at hfollows
  have hfollows : r.Follows r₁ := hfollows
  obtain ⟨hlt, hle⟩ := readRecord_walkable hread (by rw [WalError.walkable, he]; rfl)
  have hact : recoverCollectAct e.recoverKind out.length true 1 false = .resync := by
    cases e <;> first | (cases he; done) | rfl
  have hloop : r.collectLoop crc (n + 1) out 0 false = collectLoop crc n
      (beginResync { r₁ with scratch := [], cursor := r₁.cursor + 1 } false) out 1 true := by
    rw [collectLoop]
    simp only [hread, recoverKindFromRead, he, Bool.true_or, if_true, skipByteForResync_here hlt,
      Nat.zero_add, hact]
  generalize hr₂ : beginResync { r₁ with scratch := [], cursor := r₁.cursor + 1 } false = r₂ at hloop
  have hsame : r₂.src = r₁.src ∧ r₂.block = r₁.block ∧ r₂.cursor = r₁.cursor + 1 ∧ r₂.scratch = [] ∧
      r₂.lastGoodOffset = r₁.lastGoodOffset ∧ r₂.resyncOrigin = r₁.resyncOrigin := by
    rw [← hr₂, beginResync]
    split <;> exact ⟨rfl, rfl, rfl, rfl, rfl, rfl⟩
  obtain ⟨hsrc, hblock, hcursor, hscratch, hgood, horigin⟩ := hsame
  have hleft : r₂.left < r₁.left := by
    simp only [left, hsrc, hblock, hcursor]
    omega
  have hlong : r₁.left = r₁.src.length + (r₁.block.drop r₁.cursor).length := by
    rw [left, length_drop]
  have hcomes := @collectLoop_fate crc r₂ (r₁.src.length + (r₁.block.drop r₁.cursor).length + 1)
    n out 1 true (by omega) (by omega)
  have hs : (r₁.block.drop r₁.cursor).drop 1 = r₂.block.drop r₂.cursor := by
    rw [drop_drop, hblock, hcursor]
  rw [hscratch, hsrc, ← hs] at hcomes
  rw [hloop, fate]
  exact hcomes.of_same (hgood.trans hfollows.good) (horigin.trans hfollows.origin)

/-- The records whose frames lie in the first `n` bytes. -/
def wholeIn (crc : Crc) (n b : Nat) : List Bytes → List Bytes
  | [] => []
  | data :: rest =>
    let length := (frameBytes crc (fragmentFrom b data).1).length
    if length ≤ n then data :: wholeIn crc (n - length) (fragmentFrom b data).2 rest else []

/-- Every record that is whole is read, and what there is of the next is taken for the end:
there is less than a header of its next fragment, a valid seal, or bytes in which a walk
comes to the end. -/
def keepsWhole (crc : Crc) (b : Nat) : List Bytes → Bytes → Bool
  | [], _ => true
  | data :: rest, seen =>
    let framed := fragmentFrom b data
    match meets crc b false framed.1 seen with
    | .record => keepsWhole crc framed.2 rest (seen.drop (frameBytes crc framed.1).length)
    | .ends => decide (seen.length < (frameBytes crc framed.1).length)
    | .stops => false
    | .torn s => fate crc [] s == (0, false)

/-- The records were kept: collecting ends, with nothing found on a walk. -/
structure Kept (crc : Crc) (b : Nat) (out whole : List Bytes) (r : Reader)
    (result : (List Bytes × Option WalError) × Reader) : Prop where
  records : result.1 = (out ++ whole, none)
  origin : result.2.resyncOrigin = r.resyncOrigin
  good : whole = [] ∧ result.2.lastGoodOffset = r.lastGoodOffset ∨
    result.2.lastGoodOffset + r.left =
      r.total + (frameBytes crc (fragmentAll b whole).1).length

theorem Kept.nil {b : Nat} {out : List Bytes} {r' : Reader}
    (hgood : r'.lastGoodOffset = r.lastGoodOffset) (horigin : r'.resyncOrigin = r.resyncOrigin) :
    Kept crc b out [] r ((out, none), r') :=
  ⟨by rw [append_nil], horigin, .inl ⟨rfl, hgood⟩⟩

theorem Comes.kept_iff {b : Nat} {out : List Bytes} {x : Nat × Bool}
    {result : (List Bytes × Option WalError) × Reader} (h : Comes out r x result) :
    Kept crc b out [] r result ↔ x = (0, false) := by
  constructor
  · intro hkept
    have hcount := h.count
    have hstopped := h.stopped
    rw [hkept.records, append_nil] at hcount hstopped
    exact Prod.ext (Nat.left_eq_add.mp hcount) hstopped.symm
  · intro hx
    obtain ⟨hrecords, hgood, horigin⟩ := h.kept hx
    exact ⟨by rw [hrecords, append_nil], horigin, .inl ⟨rfl, hgood⟩⟩

/-- One record more, behind which the last good offset is where the reader is. -/
theorem Kept.cons_iff {b : Nat} {out whole : List Bytes} {data : Bytes} {r₁ : Reader}
    {result : (List Bytes × Option WalError) × Reader} (horigin : r₁.resyncOrigin = r.resyncOrigin)
    (htotal : r₁.total = r.total) (hgood : r₁.lastGoodOffset + r₁.left = r₁.total)
    (hleft : r.left = r₁.left + (frameBytes crc (fragmentFrom b data).1).length) :
    Kept crc (fragmentFrom b data).2 (out ++ [data]) whole r₁ result ↔
      Kept crc b out (data :: whole) r result := by
  have hrecords : out ++ [data] ++ whole = out ++ data :: whole := by simp
  have hlong : (frameBytes crc (fragmentAll b (data :: whole)).1).length =
      (frameBytes crc (fragmentFrom b data).1).length +
        (frameBytes crc (fragmentAll (fragmentFrom b data).2 whole).1).length := by
    simp only [fragmentAll, frameBytes_append, length_append]
  constructor
  · intro h
    refine ⟨hrecords ▸ h.records, h.origin.trans horigin, .inr ?_⟩
    rcases h.good with ⟨rfl, hsame⟩ | hmore
    · have hnil : (frameBytes crc (fragmentAll (fragmentFrom b data).2 []).1).length = 0 := rfl
      omega
    · omega
  · intro h
    refine ⟨hrecords ▸ h.records, h.origin.trans horigin.symm, .inr ?_⟩
    have hmore := h.good.resolve_left (by simp)
    omega

/-- **Collecting up to a cut** keeps what is whole exactly if the rest is taken for the end. -/
theorem collectLoop_keepsWhole {b n m : Nat} (datas out : List Bytes)
    (hr : r.Before b ((frameBytes crc (fragmentAll b datas).1).take n)) (hm : r.left < m) :
    Kept crc b out (wholeIn crc n b datas) r (r.collectLoop crc m out 0 false) ↔
      keepsWhole crc b datas ((frameBytes crc (fragmentAll b datas).1).take n) = true := by
  induction datas generalizing b n m r out with
  | nil =>
    obtain ⟨m, rfl⟩ : ∃ k, m = k + 1 := ⟨m - 1, by omega⟩
    obtain ⟨r', heof, hgood, horigin⟩ := @collectLoop_eof _ _ crc out 0 m
      (by simpa [fragmentAll, frameBytes] using hr)
    rw [heof]
    exact iff_of_true (.nil hgood horigin) rfl
  | cons data rest ih =>
    obtain ⟨m, rfl⟩ : ∃ k, m = k + 1 := ⟨m - 1, by omega⟩
    have hframed := fragmentFrom_framed b data
    simp only [fragmentAll, frameBytes_append, keepsWhole, wholeIn] at hr ⊢
    have hnext := fun m r out => @ih r (fragmentFrom b data).2
      (n - (frameBytes crc (fragmentFrom b data).1).length) m out
    generalize frameBytes crc (fragmentAll (fragmentFrom b data).2 rest).1 = more at hr hnext ⊢
    have hleft := hr.left
    have hmeets := readRecord_meets hframed hr ((fun h => by cases h) : true = false → false = _)
    generalize hlen : (frameBytes crc (fragmentFrom b data).1).length = len at hmeets hnext ⊢
    have hseen : (frameBytes crc (fragmentFrom b data).1).length ≤
        ((frameBytes crc (fragmentFrom b data).1 ++ more).take n).length ↔ len ≤ n := by
      rw [length_take, length_append]
      omega
    generalize hx : meets crc b false (fragmentFrom b data).1
      ((frameBytes crc (fragmentFrom b data).1 ++ more).take n) = x at hmeets ⊢
    have hlong := fun hends hstops => (meets_length hframed hends hstops hx).trans hseen
    generalize hread : r.readRecord crc = read at hmeets
    cases hmeets with
    | record r' hat =>
      have hwhole := (hlong (by simp) (by simp)).mp rfl
      have hfollows := r.readRecord_follows crc
      rw [hread] at hfollows
      have hfollows : r.Follows r' := hfollows
      have hloop : r.collectLoop crc (m + 1) out 0 false =
          (r'.keepRecord false).collectLoop crc m (out ++ [data]) 0 false := by
        simp [collectLoop, hread, recoverKindFromRead, isLengthResyncable, recoverCollectAct]
      have hkept : (r'.keepRecord false).At (fragmentFrom b data).2 (more.take (n - len)) :=
        { hat with }
      have hrest : (r'.keepRecord false).left = (more.take (n - len)).length :=
        Before.left (.inl hkept)
      have hsum : r.left = (r'.keepRecord false).left + len := by
        rw [hleft, hrest, length_take, length_take, length_append]
        omega
      have hone := hframed.length_le crc
      simp only [headerSize] at hone
      rw [if_pos hwhole, ← hlen, drop_take, drop_left, hlen, hloop,
        ← hnext m _ (out ++ [data]) (.inl hkept) (by omega)]
      have horigin : (r'.keepRecord false).resyncOrigin = r.resyncOrigin := hfollows.origin
      refine (Kept.cons_iff horigin hfollows.total ?_ (hlen ▸ hsum)).symm
      rw [hrest]
      exact hat.streamOffset
    | ends r' =>
      obtain ⟨r'', hend, hgood, horigin⟩ := collectLoop_end out 0 m false hread
      rw [hend, decide_eq_true_iff, ← Nat.not_le, ← hlen, hseen]
      by_cases hwhole : len ≤ n
      · refine iff_of_false (fun h => ?_) (not_not.mpr hwhole)
        have := h.records
        simp [hlen, hwhole] at this
      · rw [hlen, if_neg hwhole]
        exact iff_of_true (.nil hgood horigin) hwhole
    | stops e r' he =>
      rw [collectLoop_fault m out 0 false he hread]
      exact iff_of_false (fun h => by cases congrArg Prod.snd h.records) (by simp)
    | torn offset r' hsrc =>
      have hcut := (hlong (by simp) (by simp)).not.mp (by simp)
      have hcomes := collectLoop_walks m out rfl hread (by omega)
      rw [hsrc] at hcomes
      rw [if_neg hcut, hcomes.kept_iff, beq_iff_eq]

/-! ### Cut logs -/

/-- A seal before the frame hides it. -/
example :
    let data := leBytes 4 sealMagic ++ List.replicate 12 0 ++
      physicalRecord (fun _ _ => 0) .full [9] ++ [5, 5]
    keepsWhole (fun _ _ => 0) 0 [data] ((frameAt (fun _ _ => 0) 0 [data]).take 32) = true := by
  decide +kernel

/-! ### A log that gives nothing -/

/-- What there is of a log's only record stops the reading: a seal with a wrong checksum in
the place of a fragment, or a fault in the bytes of the torn one. -/
def refuses (crc : Crc) (data seen : Bytes) : Bool :=
  match meets crc 0 false (fragmentFrom 0 data).1 seen with
  | .record | .ends => false
  | .stops => true
  | .torn s => (fate crc [] s).2

theorem collectAll_error (r : Reader) : (∃ e, (r.collectAll crc).1 = .error e) ↔
    (r.collectPrefixAll crc).1.2.isSome = true := by
  rw [collectAll]
  generalize r.collectPrefixAll crc = result
  obtain ⟨⟨out, stopped⟩, r'⟩ := result
  cases stopped <;> simp

end PedraDb.Wal
