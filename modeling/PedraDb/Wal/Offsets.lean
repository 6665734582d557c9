import PedraDb.Wal.RoundTrip

/-! Where the reader is.

Reading moves bytes from the source through the block to the records, and neither adds nor
loses any: the end of the stream stays where it is (`Reader.total`), and so the offset of
the reader is that end less what is left (`At.streamOffset`). A turn does not touch the
offsets the collection keeps (`turn_follows`). Records followed by anything are collected
one by one, and the last good offset is then the start of what follows
(`collectLoop_records`). -/
namespace PedraDb.Wal
open List
variable {r : Reader} {b : Nat}

namespace Reader

/-- The offset of the end of the stream. -/
def total (r : Reader) : Nat := r.blockStart + r.block.length + r.src.length

/-- The second reader is a later state of the first, with nothing collected between. -/
structure Follows (r r' : Reader) : Prop where
  total : r'.total = r.total
  good : r'.lastGoodOffset = r.lastGoodOffset
  pending : r'.pendingResync = r.pendingResync
  origin : r'.resyncOrigin = r.resyncOrigin

variable (r)

theorem Follows.refl : r.Follows r := ⟨rfl, rfl, rfl, rfl⟩

theorem Follows.trans {r r' r'' : Reader} (h : r.Follows r') (h' : r'.Follows r'') : r.Follows r'' :=
  ⟨h'.total.trans h.total, h'.good.trans h.good, h'.pending.trans h.pending, h'.origin.trans h.origin⟩

/-- Reading a block keeps the end of the file where it is. -/
theorem readNextBlock_follows : r.Follows r.readNextBlock.2 := by
  refine ⟨?_, rfl, rfl, rfl⟩
  simp only [readNextBlock, total, length_take, length_drop]
  omega

theorem fill_follows : r.Follows r.fill.2 := by
  rw [fill]
  split
  · exact r.readNextBlock_follows
  · exact .refl r

theorem assemble_follows (t : RecordType) (payload : Bytes) : r.Follows (r.assemble t payload).2 := by
  rw [assemble]
  split
  · split <;> exact ⟨rfl, rfl, rfl, rfl⟩
  all_goals exact ⟨rfl, rfl, rfl, rfl⟩

variable (crc : Crc)

theorem physical_follows : r.Follows (r.physical crc).2 := by
  simp only [physical]
  split
  · split <;> exact ⟨rfl, rfl, rfl, rfl⟩
  split
  · exact .refl r
  split
  · split <;> exact .refl r
  · exact .refl r
  · split
    · exact .refl r
    · have hmoved : ∀ cursor, r.Follows { r with cursor } := fun _ => ⟨rfl, rfl, rfl, rfl⟩
      exact (hmoved _).trans (assemble_follows _ _ _)

theorem turn_follows : r.Follows (r.turn crc).2 := by
  have hfill := r.fill_follows
  rw [turn]
  generalize r.fill = filled at hfill ⊢
  obtain ⟨ok, r'⟩ := filled
  cases ok with
  | false => exact hfill
  | true =>
    dsimp only
    split
    · exact hfill
    · exact hfill.trans (r'.physical_follows crc)

/-- Every turn of the loop follows the one before. -/
theorem readLoop_follows (n : Nat) (r : Reader) : r.Follows (r.readLoop crc n).2 := by
  induction n generalizing r with
  | zero => exact .refl r
  | succ n ih =>
    have hturn := r.turn_follows crc
    rw [readLoop]
    generalize r.turn crc = turned at hturn ⊢
    obtain ⟨outcome, r'⟩ := turned
    cases outcome with
    | next => exact hturn.trans (ih r')
    | yield data => exact hturn
    | eof => exact hturn
    | fail e => exact hturn

theorem readRecord_follows : r.Follows (r.readRecord crc).2 := r.readLoop_follows crc _

variable {r}

/-- A reader at a place has the rest of the file before it. -/
theorem At.streamOffset {rest : Bytes} (h : r.At b rest) : r.streamOffset + rest.length = r.total := by
  have hle := h.le
  rw [← h.rest]
  simp only [Reader.streamOffset, h.cursor, length_append, length_drop, Reader.total]
  omega

end Reader

variable {crc : Crc}

/-- Records in front of anything are collected, and the reader then stands behind them. -/
theorem collectLoop_records (datas out : List Bytes) (skips n : Nat) {more : Bytes}
    (hr : r.Before b (frameBytes crc (fragmentAll b datas).1 ++ more))
    (hlegible : legible crc b datas = true) :
    ∃ (r' : Reader) (skips' : Nat), r.collectLoop crc (datas.length + n) out skips false =
    r'.collectLoop crc n (out ++ datas) skips' false ∧
      r'.Before (fragmentAll b datas).2 more ∧ skips' ≤ skips ∧ r'.total = r.total ∧
      r'.pendingResync = r.pendingResync ∧
      r'.resyncOrigin = r.resyncOrigin ∧
      (datas = [] ∧ r'.lastGoodOffset = r.lastGoodOffset ∨
        r'.lastGoodOffset + more.length = r.total) := by
  induction datas generalizing b skips r out with
  | nil =>
    refine ⟨r, skips, by simp, by simpa [fragmentAll,
      frameBytes] using hr, .refl, rfl, rfl, rfl, .inl ⟨rfl, rfl⟩⟩
  | cons data rest ih =>
    simp only [legible, fragmentAll, all_append, Bool.and_eq_true] at hlegible
    simp only [fragmentAll, frameBytes_append, append_assoc] at hr
    obtain ⟨r₁, hread, hat⟩ := readRecord_framed (fragmentFrom_framed b data) hr hlegible.1
    have hfollows := r.readRecord_follows crc
    rw [hread] at hfollows
    have hkept : (r₁.keepRecord false).At (fragmentFrom b data).2
        (frameBytes crc (fragmentAll (fragmentFrom b data).2 rest).1 ++ more) :=
      { hat with }
    obtain ⟨r₂, skips', hloop, hbefore, hskips, htotal, hpending, horigin, hgood⟩ :=
      ih (out ++ [data]) 0 (.inl hkept) hlegible.2
    refine ⟨r₂, skips', ?_, hbefore, Nat.le_trans hskips (Nat.zero_le _), htotal.trans hfollows.total,
      hpending.trans hfollows.pending, horigin.trans hfollows.origin, .inr ?_⟩
    · rw [length_cons, Nat.add_right_comm]
      simpa [Reader.collectLoop, hread, recoverKindFromRead, isLengthResyncable, recoverCollectAct]
        using hloop
    · rcases hgood with ⟨rfl, hgood⟩ | hgood
      · have hoffset := hat.streamOffset
        rw [hgood]
        simp only [fragmentAll, frameBytes, flatMap_nil, nil_append] at hoffset
        rw [← hfollows.total]
        exact hoffset
      · rw [hgood]
        exact hfollows.total

theorem collectLoop_end {r₁ : Reader} (out : List Bytes) (skips n : Nat) (inResync : Bool)
    (hread : r.readRecord crc = (.ok none, r₁)) :
    ∃ r' : Reader, r.collectLoop crc (n + 1) out skips inResync = ((out, none), r') ∧
    r'.lastGoodOffset = r.lastGoodOffset ∧
      r'.resyncOrigin = r.resyncOrigin := by
  have hfollows := r.readRecord_follows crc
  rw [hread] at hfollows
  refine ⟨{ r₁ with pendingResync := none }, ?_, hfollows.good, hfollows.origin⟩
  simp [Reader.collectLoop, hread, recoverKindFromRead, isLengthResyncable, recoverCollectAct]

/-- At the end of the file the records are returned. -/
theorem collectLoop_eof (out : List Bytes) (skips n : Nat) (hr : r.Before b []) :
    ∃ r' : Reader, r.collectLoop crc (n + 1) out skips false = ((out, none), r') ∧
    r'.lastGoodOffset = r.lastGoodOffset ∧
      r'.resyncOrigin = r.resyncOrigin := by
  obtain ⟨r', hread⟩ := readRecord_eof crc hr
  exact collectLoop_end out skips n false hread

end PedraDb.Wal
