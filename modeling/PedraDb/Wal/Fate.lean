import PedraDb.Wal.Append

/-! What the bytes of a log come to.

The reader takes whatever checks out for the log. What stands at a place is a fact about the
bytes of the block from there on (`here`): a seal, a header of zeros, a whole frame with the
right checksum, or nothing that reads. A turn of the reader goes by that (`turn_here`), and
so does the collection: the bytes say how many records it finds from a place on and whether
a fault stops it (`fateLoop`, `collectLoop_fate`). -/
namespace PedraDb.Wal
open List RecordType Reader
variable {crc : Crc} {r : Reader}

/-! ### What stands at a place -/

/-- The first bytes are those of a seal. -/
def sealHere (s : Bytes) : Bool :=
  decide ((s.take sealFrameLen).length = sealFrameLen ∧
    (s.take sealFrameLen).take 4 = leBytes 4 sealMagic)

inductive Here where
  | sealed (valid : Bool)
  /-- A header of zeros with nothing behind it. -/
  | blank
  /-- A whole frame with the right checksum. -/
  | frame (t : RecordType) (length : Nat)
  /-- Nothing that reads. A wrong checksum, or a header of zeros before other bytes, is not
  counted against the limit of a walk. -/
  | noise (counted : Bool)
  deriving DecidableEq

def validSeal (crc : Crc) (s : Bytes) : Bool :=
  parseFrameOrSeal crc (s.take sealFrameLen) != .corruptFrame

/-- What the rest of a block begins with. -/
def here (crc : Crc) (s : Bytes) : Here :=
  let byte := s.getD 6 0
  let length := ofLe ((s.drop 4).take 2)
  if sealHere s then .sealed (validSeal crc s)
  else if byte = 0 ∧ length = 0 then
    if (s.drop headerSize).any (· != 0) then .noise false else .blank
  else match fromByte byte with
    | none => .noise true
    | some t =>
      if blockSize - headerSize < length ∨ s.length < headerSize + length then .noise true
      else if ofLe (s.take 4) =
          (recordChecksum crc byte length ((s.drop headerSize).take length)).toNat then
        .frame t length
      else .noise false

/-! ### The turn of a reader -/

/-- The faults that a walk goes over. -/
def WalError.walkable (e : WalError) : Bool :=
  isLengthResyncable e.recoverKind || e.recoverKind == .crc || e.recoverKind == .zeroHeaderTail

/-- What a turn makes of what it finds. -/
inductive TurnsAt (crc : Crc) (r : Reader) : Here → Prop where
  | ends (h : r.turn crc = (.eof, r)) : TurnsAt crc r (.sealed true)
  | broken (h : r.turn crc = (.fail (.corruptSeal r.streamOffset), r)) :
      TurnsAt crc r (.sealed false)
  | blank (h : r.turn crc = (.next, { r with cursor := r.block.length })) : TurnsAt crc r .blank
  | frame (t : RecordType) (length : Nat) (hfit : r.cursor + headerSize + length ≤ r.block.length)
      (h : r.turn crc = { r with cursor := r.cursor + headerSize + length }.assemble t
        (((r.block.drop r.cursor).drop headerSize).take length)) : TurnsAt crc r (.frame t length)
  | noise (e : WalError) (he : e.walkable = true) (h : r.turn crc = (.fail e, r)) :
      TurnsAt crc r (.noise (isLengthResyncable e.recoverKind))

theorem sealTurn_none (h : sealHere (r.block.drop r.cursor) = false) : r.sealTurn crc = none := by
  rw [sealHere, decide_eq_false_iff_not] at h
  simp only [sealTurn]
  exact if_neg h

theorem sealTurn_some (h : sealHere (r.block.drop r.cursor) = true) :
    r.sealTurn crc = some (if validSeal crc (r.block.drop r.cursor) then .eof
      else .fail (.corruptSeal r.streamOffset)) := by
  rw [sealHere, decide_eq_true_eq] at h
  have hzero : ((r.block.drop r.cursor).take sealFrameLen).all (· == 0) = false := by
    rw [← take_append_drop 4 ((r.block.drop r.cursor).take sealFrameLen), h.2, all_append]
    rfl
  simp only [sealTurn]
  rw [if_pos h]
  simp only [validSeal, parseFrameOrSeal, hzero, Bool.false_eq_true, if_false]
  split_ifs <;> simp_all

theorem fill_true (hlen : r.cursor + headerSize ≤ r.block.length) : r.fill = (true, r) := by
  simp [fill, lacksHeader, Nat.not_lt.mpr hlen]

theorem physical_here (hlen : r.cursor + headerSize ≤ r.block.length)
    (hseal : sealHere (r.block.drop r.cursor) = false) (hturn : r.turn crc = r.physical crc) :
    TurnsAt crc r (here crc (r.block.drop r.cursor)) := by
  simp only [here, hseal, Bool.false_eq_true, if_false, length_drop]
  simp only [physical] at hturn
  generalize (r.block.drop r.cursor).getD 6 0 = byte at hturn ⊢
  generalize ofLe (((r.block.drop r.cursor).drop 4).take 2) = length at hturn ⊢
  by_cases hzero : byte = 0 ∧ length = 0
  · rw [if_pos hzero] at hturn ⊢
    split at hturn
    · rename_i hany
      rw [if_pos hany]
      exact .noise (.zeroHeader r.streamOffset) rfl hturn
    · rename_i hany
      rw [if_neg hany]
      exact .blank hturn
  rw [if_neg hzero] at hturn ⊢
  cases htype : fromByte byte with
  | none =>
    simp only [htype] at hturn ⊢
    exact .noise (.unknownType byte r.streamOffset) rfl hturn
  | some t =>
    simp only [htype, physicalPayloadAct] at hturn ⊢
    by_cases hlong : blockSize - headerSize < length
    · simp only [hlong, true_or, if_true] at hturn ⊢
      exact .noise (.lengthExceedsMax length r.streamOffset) rfl hturn
    by_cases hover : r.block.length - r.cursor < headerSize + length
    · rw [if_pos (.inr hover)]
      rw [if_neg hlong, if_pos (by omega)] at hturn
      split at hturn
      · rw [if_neg hlong] at hturn
        exact .noise (.lengthExceedsBlock length r.streamOffset) rfl hturn
      · exact .noise (.truncated r.streamOffset) rfl hturn
      · rename_i hact
        split at hact <;> cases hact
    · rw [if_neg (by tauto)]
      simp only [if_neg hlong,
        if_neg (show ¬ r.block.length < r.cursor + headerSize + length by omega)] at hturn
      split at hturn
      · rename_i hcrc
        rw [if_neg hcrc]
        exact .noise (.crc r.streamOffset _ _) rfl hturn
      · rename_i hcrc
        rw [if_pos (not_not.mp hcrc)]
        exact .frame t length (by omega) hturn

theorem turn_here (hlen : r.cursor + headerSize ≤ r.block.length) :
    TurnsAt crc r (here crc (r.block.drop r.cursor)) := by
  cases hseal : sealHere (r.block.drop r.cursor) with
  | false =>
    refine physical_here hlen hseal ?_
    simp [turn, fill_true hlen, sealTurn_none hseal]
  | true =>
    have hturn : r.turn crc = (if validSeal crc (r.block.drop r.cursor) then .eof
        else .fail (.corruptSeal r.streamOffset), r) := by
      simp only [turn, fill_true hlen, sealTurn_some hseal]
    simp only [here, hseal, if_true]
    cases hvalid : validSeal crc (r.block.drop r.cursor) with
    | true => exact .ends (by simpa [hvalid] using hturn)
    | false => exact .broken (by simpa [hvalid] using hturn)

/-! ### Reading on -/

/-- The reader has a header before it, or the log is at its end. -/
theorem fill_cases (r : Reader) : r.fill.2.left ≤ r.left ∧
    (r.fill.1 = true → r.fill.2.cursor + headerSize ≤ r.fill.2.block.length) := by
  rw [fill]
  split
  · refine ⟨?_, fun h => ?_⟩
    · simp only [readNextBlock, left, length_drop, length_take]
      omega
    · simpa [lacksHeader] using (Bool.and_eq_true_iff.mp h).2
  · rename_i hhas
    exact ⟨.refl, fun _ => by simpa [lacksHeader] using hhas⟩

theorem turn_filled {r₁ : Reader} (hfill : r.fill = (true, r₁)) : r.turn crc = r₁.turn crc := by
  have hlen : r₁.cursor + headerSize ≤ r₁.block.length := by
    have := (fill_cases r).2
    rw [hfill] at this
    exact this rfl
  simp only [turn, hfill, fill_true hlen]

theorem assemble_left (r : Reader) (t : RecordType) (payload : Bytes) :
    (r.assemble t payload).2.left = r.left := by
  rw [assemble]
  split
  · split <;> rfl
  all_goals rfl

/-- A turn asks for a header, and then goes by what stands there. -/
theorem turn_cases (crc : Crc) (r : Reader) : (∃ r₁, r.turn crc = (.eof, r₁)) ∨
    ∃ r₁ : Reader, r.turn crc = r₁.turn crc ∧ r₁.cursor + headerSize ≤ r₁.block.length ∧
      r₁.left ≤ r.left ∧ TurnsAt crc r₁ (here crc (r₁.block.drop r₁.cursor)) := by
  obtain ⟨hle, hlen⟩ := fill_cases r
  cases hfill : r.fill with
  | mk ok r₁ =>
    rw [hfill] at hle hlen
    cases ok with
    | false => exact .inl ⟨r₁, by simp [turn, hfill]⟩
    | true => exact .inr ⟨r₁, turn_filled hfill, hlen rfl, hle, turn_here (hlen rfl)⟩

theorem turn_next_left {r' : Reader} (h : r.turn crc = (.next, r')) : r'.left < r.left := by
  have hpos : headerSize = 7 := rfl
  rcases turn_cases crc r with ⟨r₁, hturn⟩ | ⟨r₁, hfilled, hlen, hle, hturns⟩
  · rw [hturn] at h
    cases h
  rw [hfilled] at h
  generalize here crc (r₁.block.drop r₁.cursor) = found at hturns
  cases hturns with
  | ends hturn | broken hturn | noise e _ hturn =>
    rw [hturn] at h
    cases h
  | blank hturn =>
    rw [hturn] at h
    cases h
    simp only [left] at hle ⊢
    omega
  | frame t length hfit hturn =>
    rw [hturn] at h
    have hsame := assemble_left { r₁ with cursor := r₁.cursor + headerSize + length } t
      (((r₁.block.drop r₁.cursor).drop headerSize).take length)
    rw [h] at hsame
    rw [hsame]
    simp only [left] at hle ⊢
    omega

/-- The turns are enough. -/
theorem readLoop_enough (n m : Nat) (hn : r.left < n) (hm : r.left < m) :
    r.readLoop crc n = r.readLoop crc m := by
  induction n generalizing r m with
  | zero => omega
  | succ n ih =>
    obtain ⟨m, rfl⟩ : ∃ k, m = k + 1 := ⟨m - 1, by omega⟩
    simp only [readLoop]
    cases hturn : r.turn crc with
    | mk outcome r' =>
      cases outcome with
      | next =>
        have := turn_next_left hturn
        exact ih m (by omega) (by omega)
      | yield _ | eof | fail _ => rfl

theorem readRecord_next {r' : Reader} (h : r.turn crc = (.next, r')) :
    r.readRecord crc = r'.readRecord crc := by
  have hleft := turn_next_left h
  rw [readRecord, readLoop, h]
  exact readLoop_enough _ _ hleft (Nat.lt_succ_self _)

theorem readRecord_eofTurn {r' : Reader} (h : r.turn crc = (.eof, r')) :
    r.readRecord crc = (.ok none, r') := by
  rw [readRecord, readLoop, h]

theorem readRecord_fail {e : WalError} {r' : Reader} (h : r.turn crc = (.fail e, r')) :
    r.readRecord crc = (.error e, r') := by
  rw [readRecord, readLoop, h]

theorem readRecord_yield {data : Bytes} {r' : Reader} (h : r.turn crc = (.yield data, r')) :
    r.readRecord crc = (.ok (some data), r') := by
  rw [readRecord, readLoop, h]

/-- Where a walk can go over a fault, the reader stands before a byte. -/
theorem turn_walkable {e : WalError} {r' : Reader} (h : r.turn crc = (.fail e, r'))
    (he : e.walkable = true) : r'.cursor < r'.block.length ∧ r'.left ≤ r.left := by
  rcases turn_cases crc r with ⟨r₁, hturn⟩ | ⟨r₁, hfilled, hlen, hle, hturns⟩
  · rw [hturn] at h
    cases h
  rw [hfilled] at h
  generalize here crc (r₁.block.drop r₁.cursor) = found at hturns
  cases hturns with
  | ends hturn | blank hturn =>
    rw [hturn] at h
    cases h
  | broken hturn =>
    rw [hturn] at h
    cases h
    cases he
  | noise e _ hturn =>
    rw [hturn] at h
    cases h
    exact ⟨Nat.lt_of_lt_of_le (by simp [headerSize]) hlen, hle⟩
  | frame t length hfit hturn =>
    rw [hturn, assemble] at h
    split at h
    · split at h <;> cases h
    · cases h
    · cases h
    · cases h
      cases he
    · cases h

theorem readRecord_walkable {e : WalError} {r' : Reader} (h : r.readRecord crc = (.error e, r'))
    (he : e.walkable = true) : r'.cursor < r'.block.length ∧ r'.left ≤ r.left := by
  induction hk : r.left using Nat.strongRecOn generalizing r with
  | _ k ih =>
    cases hturn : r.turn crc with
    | mk outcome r₁ =>
      cases outcome with
      | yield data =>
        rw [readRecord_yield hturn] at h
        cases h
      | eof =>
        rw [readRecord_eofTurn hturn] at h
        cases h
      | fail e' =>
        rw [readRecord_fail hturn] at h
        cases h
        exact hk ▸ turn_walkable hturn he
      | next =>
        have hlt := turn_next_left hturn
        rw [readRecord_next hturn] at h
        obtain ⟨hbyte, hle⟩ := ih r₁.left (hk ▸ hlt) h rfl
        exact ⟨hbyte, by omega⟩

/-! ### What reading on comes to -/

/-- How many records the bytes give from a place on, and whether a fault stops the reading:
`s` is left of the block and `src` behind it, `begun` tells whether there is the beginning of
a record, `walking` whether a fault is being gone over, and `skips` how many bytes were. -/
def fateLoop (crc : Crc) : Nat → Bytes → Bytes → Bool → Nat → Bool → Nat × Bool
  | 0, _, _, _, _, _ => (0, false)
  | n + 1, src, s, begun, skips, walking =>
    let block := if s.length < headerSize then src.take blockSize else s
    let rest := if s.length < headerSize then src.drop blockSize else src
    if block.length < headerSize then (0, false)
    else match here crc block with
      | .sealed valid => (0, !valid)
      | .blank => fateLoop crc n rest [] begun skips walking
      | .noise counted =>
        if (if counted then decide (maxConsecutiveSkips < skips + 1) else !walking) then (0, true)
        else fateLoop crc n rest (block.drop 1) false (skips + 1) true
      | .frame t length =>
        let behind := block.drop (headerSize + length)
        match fragmentAct t (!begun) with
        | .yield =>
          let found := fateLoop crc n rest behind false 0 false
          (found.1 + 1, found.2)
        | .failStop => (0, true)
        | .start => fateLoop crc n rest behind (decide (0 < length)) skips walking
        | .accumulate | .skip => fateLoop crc n rest behind begun skips walking

/-- The same of a walk that begins at a fault. -/
def fate (crc : Crc) (src s : Bytes) : Nat × Bool :=
  fateLoop crc (src.length + s.length + 1) src (s.drop 1) false 1 true

/-- Where collecting gets to, with what was collected before. -/
structure Comes (out : List Bytes) (r : Reader) (x : Nat × Bool)
    (result : (List Bytes × Option WalError) × Reader) : Prop where
  count : result.1.1.length = out.length + x.1
  stopped : result.1.2.isSome = x.2
  kept : x = (0, false) → result.1 = (out, none) ∧
    result.2.lastGoodOffset = r.lastGoodOffset ∧ result.2.resyncOrigin = r.resyncOrigin

namespace Comes
variable {out : List Bytes} {x : Nat × Bool} {result : (List Bytes × Option WalError) × Reader}

theorem of_same {r₁ : Reader} (h : Comes out r₁ x result)
    (hgood : r₁.lastGoodOffset = r.lastGoodOffset) (horigin : r₁.resyncOrigin = r.resyncOrigin) :
    Comes out r x result :=
  ⟨h.count, h.stopped, fun hx => ⟨(h.kept hx).1, (h.kept hx).2.1.trans hgood,
    (h.kept hx).2.2.trans horigin⟩⟩

theorem stops (e : WalError) (r' : Reader) : Comes out r (0, true) ((out, some e), r') :=
  ⟨rfl, rfl, fun h => by cases h⟩

theorem record {data : Bytes} {r₁ : Reader} (h : Comes (out ++ [data]) r₁ x result) :
    Comes out r (x.1 + 1, x.2) result := by
  refine ⟨?_, h.stopped, fun hx => by cases congrArg Prod.fst hx⟩
  rw [h.count, length_append, length_singleton, Nat.add_right_comm, Nat.add_assoc]

end Comes

theorem beginResync_eq (r : Reader) (inResync : Bool) :
    ∃ pending, r.beginResync inResync = { r with pendingResync := pending } := by
  rw [beginResync]
  split
  · exact ⟨_, rfl⟩
  · exact ⟨r.pendingResync, rfl⟩

theorem keepRecord_same (r : Reader) (inResync : Bool) :
    (r.keepRecord inResync).src = r.src ∧ (r.keepRecord inResync).block = r.block ∧
      (r.keepRecord inResync).cursor = r.cursor ∧ (r.keepRecord inResync).scratch = r.scratch := by
  simp only [keepRecord]
  split <;> exact ⟨rfl, rfl, rfl, rfl⟩

theorem collectLoop_yield {data : Bytes} {r₁ : Reader} (n : Nat) (out : List Bytes) (skips : Nat)
    (inResync : Bool) (hread : r.readRecord crc = (.ok (some data), r₁)) :
    r.collectLoop crc (n + 1) out skips inResync =
      (r₁.keepRecord inResync).collectLoop crc n (out ++ [data]) 0 false := by
  simp [collectLoop, hread, recoverKindFromRead, isLengthResyncable, recoverCollectAct]

theorem skipByteForResync_here (hlt : r.cursor < r.block.length) :
    r.skipByteForResync = (true, { r with scratch := [], cursor := r.cursor + 1 }) := by
  simp [skipByteForResync, hlt]

/-- A fault is gone over, unless it is too far or, outside a walk, of a kind that is not. -/
theorem collectLoop_noise {e : WalError} {r₁ : Reader} (n : Nat) (out : List Bytes) (skips : Nat)
    (inResync : Bool) (he : e.walkable = true) (hread : r.readRecord crc = (.error e, r₁))
    (hlt : r₁.cursor < r₁.block.length) :
    (if isLengthResyncable e.recoverKind then decide (maxConsecutiveSkips < skips + 1)
        else !inResync) = true ∧
        (∃ r₂, r.collectLoop crc (n + 1) out skips inResync = ((out, some e), r₂)) ∨
      (if isLengthResyncable e.recoverKind then decide (maxConsecutiveSkips < skips + 1)
        else !inResync) = false ∧
        r.collectLoop crc (n + 1) out skips inResync = collectLoop crc n
          (beginResync { r₁ with scratch := [], cursor := r₁.cursor + 1 } inResync) out
          (skips + 1) true := by
  rw [collectLoop]
  cases hcounted : isLengthResyncable e.recoverKind with
  | true =>
    simp only [hread, recoverKindFromRead, hcounted, Bool.true_or, if_true,
      skipByteForResync_here hlt]
    by_cases hlimit : maxConsecutiveSkips < skips + 1
    · have hact : recoverCollectAct e.recoverKind out.length true (skips + 1) inResync = .failStop := by
        cases e <;> first | (cases hcounted; done) | exact if_pos hlimit
      exact .inl ⟨decide_eq_true hlimit, _, by rw [hact]⟩
    · have hact : recoverCollectAct e.recoverKind out.length true (skips + 1) inResync = .resync := by
        cases e <;> first | (cases hcounted; done) | exact if_neg hlimit
      exact .inr ⟨decide_eq_false hlimit, by rw [hact]⟩
  | false =>
    have hwalks : (e.recoverKind == .crc || e.recoverKind == .zeroHeaderTail) = true := by
      rw [WalError.walkable, hcounted] at he
      exact he
    cases inResync with
    | true =>
      have hact : recoverCollectAct e.recoverKind out.length true (skips + 1) true = .resync := by
        cases e <;> first | (cases he; done) | (cases hcounted; done) | rfl
      simp only [hread, recoverKindFromRead, hcounted, hwalks, Bool.false_or, Bool.true_and, if_true,
        skipByteForResync_here hlt, hact]
      exact .inr ⟨by simp, trivial⟩
    | false =>
      have hact : recoverCollectAct e.recoverKind out.length false skips false = .failStop := by
        cases e <;> first | (cases he; done) | (cases hcounted; done) | rfl
      simp only [hread, recoverKindFromRead, hcounted, Bool.false_or, Bool.false_and, Bool.false_eq_true,
        if_false, hact]
      exact .inl ⟨by simp, _, rfl⟩

/-- A fault that no walk goes over stops the reading. -/
theorem collectLoop_fault {e : WalError} {r₁ : Reader} (n : Nat) (out : List Bytes) (skips : Nat)
    (inResync : Bool) (he : e.walkable = false) (hread : r.readRecord crc = (.error e, r₁)) :
    r.collectLoop crc (n + 1) out skips inResync = ((out, some e), r₁) := by
  rw [collectLoop]
  cases e <;> first | (cases he; done) | skip
  all_goals simp [hread, recoverKindFromRead, WalError.recoverKind, isLengthResyncable, recoverCollectAct]

theorem collectLoop_congr {r' : Reader} (n : Nat) (out : List Bytes) (skips : Nat) (inResync : Bool)
    (h : r.readRecord crc = r'.readRecord crc) :
    r.collectLoop crc (n + 1) out skips inResync = r'.collectLoop crc (n + 1) out skips inResync := by
  rw [collectLoop, collectLoop, h]

/-- What a reader has before it when it has asked for a header. -/
theorem fill_view (r : Reader) (block rest : Bytes)
    (hblock : block = if (r.block.drop r.cursor).length < headerSize then r.src.take blockSize
      else r.block.drop r.cursor)
    (hrest : rest = if (r.block.drop r.cursor).length < headerSize then r.src.drop blockSize
      else r.src) :
    ∃ r₁ : Reader, r.fill = (decide (headerSize ≤ block.length), r₁) ∧
      r₁.block.drop r₁.cursor = block ∧ r₁.src = rest ∧ r₁.scratch = r.scratch := by
  have hpos : headerSize = 7 := rfl
  have hlacks : r.lacksHeader = decide ((r.block.drop r.cursor).length < headerSize) := by
    rw [lacksHeader, length_drop, decide_eq_decide]
    omega
  by_cases hshort : (r.block.drop r.cursor).length < headerSize
  · rw [if_pos hshort] at hblock hrest
    refine ⟨r.readNextBlock.2, ?_, hblock.symm, hrest.symm, rfl⟩
    simp only [fill, hlacks, hshort, decide_true, if_true, Prod.mk.injEq, and_true]
    rw [Bool.eq_iff_iff]
    simp only [readNextBlock, lacksHeader, ← hblock, Nat.zero_add, Bool.and_eq_true,
      Bool.not_eq_true', decide_eq_false_iff_not, Nat.not_lt, decide_eq_true_eq,
      and_iff_right_iff_imp]
    intro hlen
    cases block with
    | nil => simp [hpos] at hlen
    | cons => rfl
  · rw [if_neg hshort] at hblock hrest
    refine ⟨r, ?_, hblock.symm, hrest.symm, rfl⟩
    rw [fill, hlacks, decide_eq_false hshort, hblock, decide_eq_true (Nat.not_lt.mp hshort)]
    rfl

/-- **Collecting comes to what the bytes say.** -/
theorem collectLoop_fate (n m : Nat) (out : List Bytes) (skips : Nat) (walking : Bool)
    (hn : r.left < n) (hm : r.left < m) :
    Comes out r (fateLoop crc n r.src (r.block.drop r.cursor) (!r.scratch.isEmpty) skips walking)
      (r.collectLoop crc m out skips walking) := by
  induction n generalizing r m out skips walking with
  | zero => omega
  | succ n ih =>
    obtain ⟨m, rfl⟩ : ∃ k, m = k + 1 := ⟨m - 1, by omega⟩
    rw [fateLoop]
    generalize hblock : (if (r.block.drop r.cursor).length < headerSize then r.src.take blockSize
      else r.block.drop r.cursor) = block
    generalize hrest : (if (r.block.drop r.cursor).length < headerSize then r.src.drop blockSize
      else r.src) = rest
    obtain ⟨r₁, hfill, hview, hsrc, hscratch⟩ := fill_view r block rest hblock.symm hrest.symm
    have hsame := r.fill_follows
    obtain ⟨hle, hhas⟩ := fill_cases r
    have ends : ∀ {r₂ : Reader}, r.readRecord crc = (.ok none, r₂) →
        Comes out r (0, false) (r.collectLoop crc (m + 1) out skips walking) := by
      intro r₂ hread
      obtain ⟨r', hend, hgood, horigin⟩ := collectLoop_end out skips m walking hread
      rw [hend]
      exact ⟨rfl, rfl, fun _ => ⟨rfl, hgood, horigin⟩⟩
    by_cases hshort : block.length < headerSize
    · rw [decide_eq_false (Nat.not_le.mpr hshort)] at hfill
      rw [if_pos hshort]
      exact @ends r₁ (readRecord_eofTurn (by simp [turn, hfill]))
    rw [decide_eq_true (Nat.not_lt.mp hshort)] at hfill
    rw [if_neg hshort]
    rw [hfill] at hsame hle hhas
    have hlen : r₁.cursor + headerSize ≤ r₁.block.length := hhas rfl
    have hle : r₁.left ≤ r.left := hle
    have hturn : r.turn crc = r₁.turn crc := turn_filled hfill
    have hturns := @turn_here crc _ hlen
    rw [hview] at hturns
    -- a turn that goes on leaves less to read, and the same to collect
    have goesOn : ∀ (r₂ : Reader) (s : Bytes) (begun : Bool), r₁.turn crc = (.next, r₂) →
        r₂.src = rest → r₂.block.drop r₂.cursor = s → (!r₂.scratch.isEmpty) = begun →
        r₁.Follows r₂ → Comes out r (fateLoop crc n rest s begun skips walking)
          (r.collectLoop crc (m + 1) out skips walking) := by
      intro r₂ s begun hnext hsrc₂ hs hbegun hfollows
      have hnext : r.turn crc = (.next, r₂) := hturn.trans hnext
      have hleft := turn_next_left hnext
      rw [collectLoop_congr m out skips walking (readRecord_next hnext), ← hsrc₂, ← hs, ← hbegun]
      have hall := hsame.trans hfollows
      exact (ih (m + 1) out skips walking (by omega) (by omega)).of_same hall.good hall.origin
    generalize here crc block = found at hturns ⊢
    cases hturns with
    | ends h => exact ends (readRecord_eofTurn (hturn.trans h))
    | broken h =>
      rw [collectLoop_fault m out skips walking rfl (readRecord_fail (hturn.trans h))]
      exact .stops _ _
    | blank h =>
      exact goesOn _ [] _ h hsrc (drop_length ..) (by rw [← hscratch]) ⟨rfl, rfl, rfl, rfl⟩
    | noise e he h =>
      have hlt : r₁.cursor < r₁.block.length := Nat.lt_of_lt_of_le (by simp [headerSize]) hlen
      rcases collectLoop_noise m out skips walking he (readRecord_fail (hturn.trans h)) hlt with
        ⟨hstops, r₂, hloop⟩ | ⟨hgoes, hloop⟩
      · rw [hloop]
        simp only [hstops, if_true]
        exact .stops e r₂
      · obtain ⟨pending, hbegin⟩ :=
          beginResync_eq { r₁ with scratch := [], cursor := r₁.cursor + 1 } walking
        have hdrop : r₁.block.drop (r₁.cursor + 1) = block.drop 1 := by rw [← hview, drop_drop]
        have hleft : left { r₁ with scratch := [], cursor := r₁.cursor + 1, pendingResync := pending } <
            r₁.left := by
          simp only [left]
          omega
        rw [hloop, hbegin]
        simp only [hgoes, Bool.false_eq_true, if_false]
        rw [← hdrop, ← hsrc]
        exact (ih (r := { r₁ with scratch := [], cursor := r₁.cursor + 1, pendingResync := pending })
          m out (skips + 1) true (by omega) (by omega)).of_same hsame.good hsame.origin
    | frame t length hfit h =>
      have hdrop : r₁.block.drop (r₁.cursor + headerSize + length) =
          block.drop (headerSize + length) := by rw [← hview, drop_drop, Nat.add_assoc]
      have hlong : ((block.drop headerSize).take length).length = length := by
        rw [← hview]
        simp only [length_take, length_drop]
        omega
      rw [hview] at h
      generalize (block.drop headerSize).take length = payload at h hlong
      rw [assemble] at h
      dsimp only at h
      simp only [Bool.not_not]
      rw [hscratch] at h
      cases hact : fragmentAct t r.scratch.isEmpty with
      | yield =>
        obtain ⟨data, hyield⟩ : ∃ data, r₁.turn crc = (.yield data,
            { r₁ with cursor := r₁.cursor + headerSize + length, scratch := [] }) := by
          rw [h, hact]
          dsimp only
          split <;> exact ⟨_, rfl⟩
        rw [collectLoop_yield m out skips walking (readRecord_yield (hturn.trans hyield))]
        obtain ⟨hsrc₂, hblock₂, hcursor₂, hscratch₂⟩ := keepRecord_same
          { r₁ with cursor := r₁.cursor + headerSize + length, scratch := [] } walking
        generalize keepRecord _ walking = r₂ at hsrc₂ hblock₂ hcursor₂ hscratch₂ ⊢
        have hleft : r₂.left < r₁.left := by
          have hpos : headerSize = 7 := rfl
          simp only [left, hsrc₂, hblock₂, hcursor₂]
          omega
        have hcomes := ih (r := r₂) m (out ++ [data]) 0 false (by omega) (by omega)
        rw [hsrc₂, hblock₂, hcursor₂, hscratch₂, hdrop, hsrc] at hcomes
        exact hcomes.record
      | failStop =>
        rw [hact] at h
        rw [collectLoop_fault m out skips walking rfl (readRecord_fail (hturn.trans h))]
        exact .stops _ _
      | start =>
        rw [hact] at h
        refine goesOn _ _ _ h hsrc hdrop ?_ ⟨rfl, rfl, rfl, rfl⟩
        cases payload <;> simp [← hlong]
      | accumulate =>
        rw [hact] at h
        refine goesOn _ _ _ h hsrc hdrop ?_ ⟨rfl, rfl, rfl, rfl⟩
        have hne : r.scratch.isEmpty = false := by
          cases t <;> cases he : r.scratch.isEmpty <;> simp [fragmentAct, he] at hact ⊢
        cases hr : r.scratch with
        | nil => simp [hr] at hne
        | cons => rfl
      | skip =>
        rw [hact] at h
        exact goesOn _ _ _ h hsrc hdrop (by rw [← hscratch]) ⟨rfl, rfl, rfl, rfl⟩

end PedraDb.Wal
