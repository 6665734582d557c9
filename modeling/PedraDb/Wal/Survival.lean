import PedraDb.Wal.Spans

/-! A failed group and the records of others.

The failure path cuts the log at the written position and takes the frontier back there.
Done while another span is past a gap or under way, that cuts acknowledged records off and
gives their place, or one still to be written, to later frames (`acked_record_cut`). In
the runs where it is not, every acknowledged record stays (`acked_records_survive`).

The condition `cutsClean` has two more parts, since a record that cannot be read back is
lost in another way: frames are legible, and a one-op commit takes its ticket between a
group's framing and the group's ticket only inside the block. -/
namespace PedraDb.Wal
open List State Commit Writer
variable {w : Writer} {c : Commit} {r : Bytes} {commits : List Commit} {pend : List Bytes}
    {job : PwriteJob}

def Commit.isWriting (c : Commit) : Bool :=
  match c.span with
  | .reserved _ | .written _ => true
  | _ => false

/-- The bytes of a record that is framed beforehand. -/
def Commit.preframed (crc : Crc) (c : Commit) : Bytes := c.records.flatMap (physicalRecord crc .full)

/-- The cut is at the position, no other span is past a gap or under way, and every frame
can be read where it is put. -/
def cutsClean (crc : Crc) (s : State) : Event → Bool
  | .encode _ records => legibleAt crc (s.wal.reservedTo + s.wal.frame.length) records
  | .reserve i =>
    match s.commits[i]? with
    | some c =>
      legibleAt crc s.wal.reservedTo c.records &&
        (s.wal.frame.isEmpty ||
          decide (s.wal.reservedTo % blockSize + s.wal.frame.length + (c.preframed crc).length ≤
            blockSize))
    | none => true
  | .discard i =>
    match s.commits[i]? with
    | some c =>
      c.stage == .cutting s.wal.position && s.wal.completed.isEmpty && s.commits.all fun c => !c.isWriting
    | none => true
  | _ => true

/-! ### Stages and spans -/

/-- The stage and the span of a commit fit. -/
def Commit.Coherent (c : Commit) : Prop :=
  match c.stage with
  | .begun => c.kind = .bypass ∧ c.span = .absent ∧ ∃ r, c.records = [r]
  | .leading => c.kind ≠ .bypass ∧ c.span = .absent
  | .framed => c.kind ≠ .bypass ∧ c.span = .absent ∧ c.records ≠ []
  | .untaken => False
  | .writing => ∃ j, c.span = .reserved j ∨ c.span = .written j
  | .unsynced => c.kind ≠ .bypass ∧ ∃ j, c.span = .finished j
  | .ready | .acked => ∃ j, c.span = .finished j
  | .failed | .fencing | .cutting _ => c.kind ≠ .bypass ∧ ∃ j, c.span = .torn j ∨ c.span = .finished j
  | .refused => ∃ j, c.span = .torn j ∨ c.span = .finished j

/-- A group with records in the pending frame. -/
def Commit.pends (c : Commit) : Bool := c.stage == .leading || c.stage == .framed

/-- The pending frame is that of the group being led, where the frontier is now. -/
structure Pending (crc : Crc) (w : Writer) (commits : List Commit) (pend : List Bytes) : Prop where
  frame : w.frame = frameAt crc w.reservedTo pend
  legible : legibleAt crc w.reservedTo pend = true
  records : ∀ c ∈ commits, c.pends = true → c.records = pend
  source : pend = [] ∨ ∃ c ∈ commits, c.pends = true
  offset_le : w.blockOffset ≤ blockSize
  offset : w.blockOffset % blockSize = (w.reservedTo + w.frame.length) % blockSize

structure Sound (crc : Crc) (s : State) : Prop where
  spans : SpanInv crc s.wal (s.commits.map view)
  coherent : ∀ c ∈ s.commits, c.Coherent
  one : ∀ (i k : Nat) (c d : Commit), s.commits[i]? = some c → s.commits[k]? = some d →
    c.flies = true → d.flies = true → i = k
  pending : ∃ pend, Pending crc s.wal s.commits pend
  staged : ∀ st, s.wal.staged = some st → st.buf = []

section Steps
variable {crc : Crc} {s s' : State} {w' : Writer} {i : Nat} {c' : Commit}

theorem Commit.Coherent.flies (h : c.Coherent) (hp : c.pends = true) : c.flies = true := by
  obtain ⟨kind, records, stage, span⟩ := c
  cases stage <;> simp [pends] at hp <;> cases kind <;> simp_all [Commit.Coherent, flies]

/-- While another group flies nothing is pending. -/
theorem Sound.nothing_pends (h : Sound crc s) (hi : s.commits[i]? = some c) (hf : c.flies = true)
    (hp : c.pends = false) : Pending crc s.wal s.commits [] ∧ s.wal.frame = [] := by
  obtain ⟨pend, hpend⟩ := h.pending
  rcases hpend.source with rfl | ⟨d, hd, hdp⟩
  · exact ⟨hpend, hpend.frame⟩
  · obtain ⟨k, hk⟩ := mem_iff_getElem?.mp hd
    obtain rfl := h.one i k c d hi hk hf ((h.coherent d hd).flies hdp)
    rw [hi] at hk
    cases hk
    simp [hp] at hdp

theorem Pending.keep (h : Pending crc w commits pend)
    (c' : Commit) (hi : commits[i]? = some c) (hp : c.pends = false) (hp' : c'.pends = false) :
    Pending crc w (commits.set i c') pend := by
  refine { h with records := Runs.forall_set h.records (by simp [hp']), source := ?_ }
  refine h.source.imp_right fun ⟨d, hd, hdp⟩ => ⟨d, Runs.mem_set_of_ne hi ?_ hd, hdp⟩
  rintro rfl
  simp [hp] at hdp

theorem Sound.move (h : Sound crc s) (hi : s.commits[i]? = some c) (c' : Commit)
    (w' : Writer) (hspans : SpanInv crc w' ((s.commits.map view).set i c'.view)) (hcoherent : c'.Coherent)
    (hflies : c'.flies = true → c.flies = true)
    (hpending : ∃ pend, Pending crc w' (s.commits.set i c') pend)
    (hstaged : ∀ st, w'.staged = some st → st.buf = []) (fenced : Bool) :
    Sound crc ⟨w', s.commits.set i c', fenced⟩ := by
  refine ⟨by rwa [map_set], Runs.forall_set h.coherent hcoherent, ?_, hpending, hstaged⟩
  intro a b d e ha hb hd he
  rcases Runs.getElem?_set_cases ha with ⟨hai, had⟩ | ⟨_, ha⟩ <;>
    rcases Runs.getElem?_set_cases hb with ⟨hbi, hbe⟩ | ⟨_, hb⟩
  · exact hai.trans hbi.symm
  · exact hai.trans (h.one i b c e hi hb (hflies (had ▸ hd)) he)
  · exact (h.one a i d c ha hi hd (hflies (hbe ▸ he))).trans hbi.symm
  · exact h.one a b d e ha hb hd he

theorem view_getElem? (hi : commits[i]? = some c) : (commits.map view)[i]? = some c.view := by
  rw [getElem?_map, hi]
  rfl

section
variable (h : Sound crc s)
include h

/-- Only the stage of a commit changes, and it does not pend. -/
theorem Sound.restage (hi : s.commits[i]? = some c) (stage : Stage)
    (hcoherent : Commit.Coherent { c with stage := stage })
    (hflies : flies { c with stage := stage } = true → c.flies = true) (hp : c.pends = false)
    (hp' : pends { c with stage := stage } = false) (fenced : Bool) :
    Sound crc ⟨s.wal, s.commits.set i { c with stage := stage }, fenced⟩ := by
  obtain ⟨pend, hpend⟩ := h.pending
  refine h.move hi _ s.wal ?_ hcoherent hflies ⟨pend, hpend.keep _ hi hp hp'⟩ h.staged fenced
  rw [show view { c with stage := stage } = c.view from rfl, Runs.set_self (view_getElem? hi)]
  exact h.spans

theorem Sound.forall_pends (hi : s.commits[i]? = some c) (hp : c.pends = true) {P : Commit → Prop}
    (hc' : P c') : ∀ d ∈ s.commits.set i c', d.pends = true → P d := by
  intro d hd hdp
  rcases Runs.mem_set_cases hd with rfl | ⟨k, hne, hk⟩
  · exact hc'
  · have hf := (h.coherent c (mem_of_getElem? hi)).flies hp
    have hdf := (h.coherent d (mem_of_getElem? hk)).flies hdp
    exact absurd (h.one k i d c hk hi hdf hf) hne

/-! ### Groups -/

theorem Sound.push (c' : Commit) (hspan : c'.span = .absent) (hcoherent : c'.Coherent)
    (hflies : c'.flies = true → ∀ d ∈ s.commits, d.flies = false)
    (hpending : ∃ pend, Pending crc s.wal (s.commits ++ [c']) pend) (fenced : Bool) :
    Sound crc ⟨s.wal, s.commits ++ [c'], fenced⟩ := by
  have hdead : c'.view.2.live = none := by rw [view, hspan]; rfl
  refine ⟨h.spans.quiet fun k v hv => ?_, ?_, ?_, hpending, h.staged⟩
  · rw [map_append, map_singleton]
    constructor
    · intro hk
      rcases Runs.getElem?_concat_cases hk with hk | ⟨_, rfl⟩
      · exact hk
      · exact absurd hdead hv
    · intro hk
      rw [getElem?_append_left (List.getElem?_eq_some_iff.mp hk).1, hk]
  · exact forall_mem_append.mpr ⟨h.coherent, forall_mem_singleton.mpr hcoherent⟩
  · intro a b d e ha hb hd he
    have hother {k : Nat} {x : Commit} (hk : s.commits[k]? = some x) (hx : x.flies = true)
        (hc : c'.flies = true) : False := by
      simp [hflies hc x (mem_of_getElem? hk)] at hx
    rcases Runs.getElem?_concat_cases ha with ha | ⟨hal, hdc⟩ <;>
      rcases Runs.getElem?_concat_cases hb with hb | ⟨hbl, hec⟩
    · exact h.one a b d e ha hb hd he
    · exact (hother ha hd (hec ▸ he)).elim
    · exact (hother hb he (hdc ▸ hd)).elim
    · exact hal.trans hbl.symm

theorem Sound.lead {needSync : Bool} (hs : s.lead needSync = some s') : Sound crc s' := by
  simp only [State.lead, Option.ite_none_right_eq_some] at hs
  obtain ⟨⟨_, _, hnone⟩, hs⟩ := hs
  cases hs
  have hidle : ∀ d ∈ s.commits, d.flies = false := by simpa using hnone
  obtain ⟨pend, hpend⟩ := h.pending
  have hpends : ∀ d ∈ s.commits, ¬ d.pends = true := by
    intro d hd hdp
    have := (h.coherent d hd).flies hdp
    simp [hidle d hd] at this
  obtain rfl : pend = [] := hpend.source.resolve_right fun ⟨d, hd, hdp⟩ => hpends d hd hdp
  refine h.push ⟨.group needSync, [], .leading, .absent⟩ rfl ⟨by simp, rfl⟩ (fun _ => hidle)
    ⟨[], hpend.frame, rfl, ?_, .inl rfl, hpend.offset_le, hpend.offset⟩ _
  exact forall_mem_append.mpr ⟨fun d hd hdp => absurd hdp (hpends d hd),
    forall_mem_singleton.mpr fun _ => rfl⟩

theorem Sound.begin' {record : Bytes} (hs : s.begin' record = some s') : Sound crc s' := by
  simp only [State.begin', Option.ite_none_right_eq_some] at hs
  obtain ⟨_, hs⟩ := hs
  cases hs
  obtain ⟨pend, hpend⟩ := h.pending
  refine h.push ⟨.bypass, [record], .begun, .absent⟩ rfl ⟨rfl, rfl, record, rfl⟩ (by simp [flies])
    ⟨pend, hpend.frame, hpend.legible, ?_, ?_, hpend.offset_le, hpend.offset⟩ _
  · exact forall_mem_append.mpr ⟨hpend.records, forall_mem_singleton.mpr (by simp [pends])⟩
  · exact hpend.source.imp_right fun ⟨d, hd, hdp⟩ => ⟨d, mem_append_left _ hd, hdp⟩

end

attribute [local simp] pends flies

/-- What framing records adds to the pending frame. -/
theorem encodeBatches_spec (crc : Crc) (hle : w.blockOffset ≤ blockSize) {offset : Nat}
    (hoff : w.blockOffset % blockSize = offset % blockSize) (records : List Bytes) :
    ∃ b, w.encodeBatches crc records =
    { w with frame := w.frame ++ frameAt crc offset records, blockOffset := b } ∧
      b ≤ blockSize ∧ b % blockSize = (offset + (frameAt crc offset records).length) % blockSize := by
  have hframe : frameBytes crc (fragmentAll w.blockOffset records).1 = frameAt crc offset records := by
    rw [fragmentAll_mod _ hle, hoff, frameAt]
  obtain ⟨hstop, hmod⟩ := fragmentAll_stop crc records hle
  refine ⟨(fragmentAll w.blockOffset records).2, ?_, hstop, ?_⟩
  · simp [encodeBatches, hframe]
  · rw [← hmod, hframe, Nat.add_mod, hoff, ← Nat.add_mod]

theorem Sound.encode (h : Sound crc s) {records : List Bytes}
    (hleg : legibleAt crc (s.wal.reservedTo + s.wal.frame.length) records = true)
    (hs : s.encode crc i records = some s') : Sound crc s' := by
  simp only [State.encode] at hs
  obtain ⟨c, hi, hstage, hs⟩ := guarded hs
  cases hs
  have hmem := mem_of_getElem? hi
  have hcoh := h.coherent c hmem
  have hpends : c.pends = true := by simp [hstage]
  obtain ⟨pend, hpend⟩ := h.pending
  obtain ⟨b, hw, hb, hbmod⟩ := encodeBatches_spec crc hpend.offset_le hpend.offset records
  simp only [Commit.Coherent, hstage] at hcoh
  have hrecords := hpend.records c hmem hpends
  have hdead : c.view.2.live = none := by simp [view, hcoh.2, Span.live]
  simp only [update, hw]
  refine h.move hi { c with records := c.records ++ records } _ ?_ ?_ (fun hf => hf)
    ⟨pend ++ records, ?_, ?_, ?_, ?_, hb, ?_⟩ ?_ s.fenced
  · exact h.spans.quiet_set (view_getElem? hi) hdead hdead
  · simp only [Commit.Coherent, hstage]
    exact hcoh
  · show s.wal.frame ++ _ = frameAt crc s.wal.reservedTo (pend ++ records)
    rw [frameAt_append, ← hpend.frame]
  · rw [legibleAt_append, hpend.legible, ← hpend.frame, hleg]
    rfl
  · refine h.forall_pends hi hpends ?_
    show c.records ++ records = _
    rw [hrecords]
  · exact .inr ⟨_, mem_set (List.getElem?_eq_some_iff.mp hi).1 _, hpends⟩
  · rw [hbmod, length_append, ← Nat.add_assoc]
  · exact h.staged

theorem Sound.release (h : Sound crc s) (hs : s.release i = some s') : Sound crc s' := by
  simp only [State.release] at hs
  obtain ⟨c, hi, ⟨hstage, hne⟩, hs⟩ := guarded hs
  cases hs
  have hmem := mem_of_getElem? hi
  have hcoh := h.coherent c hmem
  have hpends : c.pends = true := by simp [hstage]
  have hflies := hcoh.flies hpends
  simp only [Commit.Coherent, hstage] at hcoh
  obtain ⟨pend, hpend⟩ := h.pending
  refine h.move hi { c with stage := .framed } s.wal ?_ ⟨hcoh.1, hcoh.2, hne⟩ (fun _ => hflies)
    ⟨pend, hpend.frame, hpend.legible, h.forall_pends hi hpends (hpend.records c hmem hpends), ?_,
      hpend.offset_le,
      hpend.offset⟩ h.staged s.fenced
  · rw [show view { c with stage := .framed } = c.view from rfl, Runs.set_self (view_getElem? hi)]
    exact h.spans
  · exact .inr ⟨_, mem_set (List.getElem?_eq_some_iff.mp hi).1 _, rfl⟩

theorem takePwriteJob_spec (hne : w.frame ≠ []) :
    w.takePwriteJob = (some ⟨w.reservedTo, w.frame⟩,
      { w with reservedTo := w.reservedTo + w.frame.length, frame := [] }) := by
  simp [takePwriteJob, hne, reservePending]

theorem Sound.take (h : Sound crc s) (hs : s.take i = some s') : Sound crc s' := by
  simp only [State.take] at hs
  obtain ⟨c, hi, hstage, hs⟩ := guarded hs
  have hmem := mem_of_getElem? hi
  have hcoh := h.coherent c hmem
  have hpends : c.pends = true := by simp [hstage]
  have hflies := hcoh.flies hpends
  simp only [Commit.Coherent, hstage] at hcoh
  obtain ⟨pend, hpend⟩ := h.pending
  obtain rfl := hpend.records c hmem hpends
  have hne : s.wal.frame ≠ [] := by
    rw [hpend.frame]
    exact length_pos_iff.mp (frameAt_pos crc _ hcoh.2.2)
  rw [takePwriteJob_spec hne] at hs
  cases hs
  have hdead : c.view.2.live = none := by simp [view, hcoh.2.1, Span.live]
  refine h.move hi { c with stage := .writing, span := .reserved ⟨s.wal.reservedTo, s.wal.frame⟩ } _ ?_
    ⟨_, .inl rfl⟩ (fun _ => hflies) ⟨[], ?_, rfl, ?_, .inl rfl, ?_, ?_⟩ ?_ s.fenced
  · exact h.spans.reserve (j := ⟨s.wal.reservedTo, s.wal.frame⟩)
      (view_getElem? hi) hdead rfl hcoh.2.2 hpend.frame hpend.legible
  · rfl
  · intro d hd hdp
    rcases Runs.mem_set_cases hd with rfl | ⟨k, hne, hk⟩
    · simp at hdp
    · have hdf := (h.coherent d (mem_of_getElem? hk)).flies hdp
      exact absurd (h.one k i d c hk hi hdf hflies) hne
  · exact hpend.offset_le
  · exact hpend.offset
  · exact h.staged

/-! ### One-op commits -/

/-- A record framed beforehand has the bytes it would have behind the pending frame. -/
theorem takePreframedPwriteJob_spec {offset : Nat}
    (hle : w.blockOffset ≤ blockSize) (hoff : w.blockOffset % blockSize = offset % blockSize)
    (hjob : w.takePreframedPwriteJob (physicalRecord crc .full r) = some (job, w')) :
    job.ticket = w.reservedTo ∧ job.buf = frameAt crc offset [r] ∧
      ∃ b, w' = { w with reservedTo := job.stop, blockOffset := b } ∧ b ≤ blockSize ∧
        b % blockSize = (offset + job.buf.length) % blockSize := by
  simp only [takePreframedPwriteJob, physicalRecord_length] at hjob
  split at hjob
  · cases hjob
  next pad b hlayout =>
  have hfrom := takePreframedLayout_spec hlayout
  have hframed := fragmentFrom_framed w.blockOffset r
  have hbuf : List.replicate pad 0 ++ physicalRecord crc .full r = frameAt crc offset [r] := by
    rw [frameAt, ← hoff, ← fragmentAll_mod _ hle]
    simp [fragmentAll, hfrom, frameBytes, Fragment.bytes]
  have hmod := hframed.stop_mod crc hle
  have hstop := hframed.stop_le
  rw [hfrom] at hmod hstop
  cases hjob
  refine ⟨rfl, hbuf, b, rfl, hstop, ?_⟩
  rw [← hmod, Nat.add_mod, hoff, ← Nat.add_mod]
  simp [frameBytes, Fragment.bytes]

/-- Inside the block there is room for it. -/
theorem takePreframedPwriteJob_fits (hle : w.blockOffset ≤ blockSize)
    (hoff : w.blockOffset % blockSize = (w.reservedTo + w.frame.length) % blockSize) (hne : w.frame ≠ [])
    (hfit : w.reservedTo % blockSize + w.frame.length + (headerSize + r.length) ≤ blockSize) :
    w.takePreframedPwriteJob (physicalRecord crc .full r) ≠ none := by
  have hpos := length_pos_iff.mpr hne
  have hheader : headerSize = 7 := rfl
  have hoffset : w.blockOffset = w.reservedTo % blockSize + w.frame.length := by
    rw [← Nat.mod_add_mod, Nat.mod_eq_of_lt (a := w.reservedTo % blockSize + _) (by omega)] at hoff
    rcases Nat.lt_or_eq_of_le hle with hlt | heq
    · rw [← hoff, Nat.mod_eq_of_lt hlt]
    · rw [heq, Nat.mod_self] at hoff
      omega
  have hlayout : takePreframedLayout w.blockOffset (headerSize + r.length) ≠ none := by
    have hleft : ¬ blockSize - w.blockOffset < headerSize := by omega
    simp only [takePreframedLayout, hleft, if_false]
    rw [if_neg (by omega), if_neg (by omega)]
    simp
  obtain ⟨x, hx⟩ := Option.ne_none_iff_exists'.mp hlayout
  simp [takePreframedPwriteJob, hx]

/-- A ticket for one record, and the pending frame moved up behind it. -/
structure Ticketed (crc : Crc) (w w' : Writer) (pend : List Bytes) (r : Bytes) (job : PwriteJob) :
    Prop where
  ticket : job.ticket = w.reservedTo
  buf : job.buf = frameAt crc w.reservedTo [r]
  frame : w'.frame = frameAt crc w'.reservedTo pend
  legible : legibleAt crc w'.reservedTo pend = true
  offset_le : w'.blockOffset ≤ blockSize
  offset : w'.blockOffset % blockSize = (w'.reservedTo + w'.frame.length) % blockSize
  rest : w' = { w with reservedTo := job.stop, blockOffset := w'.blockOffset, frame := w'.frame }

section Ticket

theorem ticketed_preframed (h : Pending crc w commits pend)
    (hroom : w.frame = [] ∨ w.reservedTo % blockSize + w.frame.length + (headerSize + r.length) ≤
      blockSize)
    (hjob : w.takePreframedPwriteJob (physicalRecord crc .full r) = some (job, w')) :
    Ticketed crc w w' pend r job := by
  obtain ⟨hticket, hbuf, b, rfl, hb, hbmod⟩ := takePreframedPwriteJob_spec h.offset_le h.offset hjob
  have hstop : job.stop = w.reservedTo + job.buf.length := by rw [PwriteJob.stop, hticket]
  have hoffset : b % blockSize = (job.stop + w.frame.length) % blockSize := by
    rw [hbmod, hstop, Nat.add_right_comm]
  rcases hroom with hnil | hfit
  · obtain rfl : pend = [] := by
      apply Classical.byContradiction
      intro hne
      have := frameAt_pos crc w.reservedTo hne
      simp [← h.frame, hnil] at this
    refine ⟨hticket, ?_, hnil, rfl, hb, hoffset, rfl⟩
    rw [hbuf, hnil, length_nil, Nat.add_zero]
  · have hlen := frameAt_single_length crc w.reservedTo r (by omega)
    have hsame := (frameAt_shift crc w.reservedTo w.frame.length [r] (by omega)).1
    have hbuf' : job.buf = frameAt crc w.reservedTo [r] := by rw [hbuf, hsame]
    have hshift := frameAt_shift crc w.reservedTo job.buf.length pend
      (by rw [← h.frame, hbuf', hlen]; exact hfit)
    rw [← hstop] at hshift
    exact ⟨hticket, hbuf',
      by rw [hshift.1]; exact h.frame, by rw [hshift.2]; exact h.legible, hb, hoffset, rfl⟩

theorem ticketed_fragmented (h : Pending crc w commits pend) (hnil : w.frame = [])
    (hjob : (w.encodeBatches crc [r]).takePwriteJob = (some job, w')) : Ticketed crc w w' pend r job := by
  obtain rfl : pend = [] := by
    apply Classical.byContradiction
    intro hne
    have := frameAt_pos crc w.reservedTo hne
    simp [← h.frame, hnil] at this
  have hoff := h.offset
  rw [hnil, length_nil, Nat.add_zero] at hoff
  obtain ⟨b, hw, hb, hbmod⟩ := encodeBatches_spec crc h.offset_le hoff [r]
  rw [hnil, nil_append] at hw
  have hne : (w.encodeBatches crc [r]).frame ≠ [] := by
    rw [hw]
    exact length_pos_iff.mp (frameAt_pos crc _ (by simp))
  rw [takePwriteJob_spec hne, hw] at hjob
  cases hjob
  exact ⟨rfl, rfl, rfl, rfl, hb, hbmod, rfl⟩

end Ticket

theorem Sound.ticketed (h : Sound crc s) (hi : s.commits[i]? = some c) (hkind : c.kind = .bypass)
    (hspan : c.span = .absent) (hpends : c.pends = false) (hr : c.records = [r])
    (hleg : legibleAt crc s.wal.reservedTo [r] = true) (hpend : Pending crc s.wal s.commits pend)
    (ht : Ticketed crc s.wal w' pend r job) :
    Sound crc (s.update i w' { c with stage := .writing, span := .reserved job }) := by
  have hdead : c.view.2.live = none := by simp [view, hspan, Span.live]
  have hkeep := hpend.keep { c with stage := .writing, span := .reserved job } hi hpends rfl
  refine h.move hi _ w' ?_ ?_ (by simp [hkind])
    ⟨pend, ht.frame, ht.legible, hkeep.records, hkeep.source, ht.offset_le, ht.offset⟩ ?_ s.fenced
  · have hframe : job.buf = frameAt crc job.ticket c.view.1 := by rw [ht.ticket, ht.buf, view, hr]
    have hlegible : legibleAt crc job.ticket c.view.1 = true := by rw [ht.ticket, view, hr, hleg]
    rw [ht.rest]
    exact h.spans.reserve (view_getElem? hi) hdead ht.ticket (by simp [view, hr]) hframe hlegible
  · exact ⟨job, .inl rfl⟩
  · rw [ht.rest]
    exact h.staged

theorem Sound.reserve (h : Sound crc s) (hok : cutsClean crc s (.reserve i) = true)
    (hs : s.reserve crc i = some s') : Sound crc s' := by
  simp only [State.reserve] at hs
  obtain ⟨c, hi, ⟨hkind, hstage⟩, hs⟩ := guarded hs
  have hcoh := h.coherent c (mem_of_getElem? hi)
  simp only [Commit.Coherent, hstage] at hcoh
  obtain ⟨_, hspan, r, hr⟩ := hcoh
  obtain ⟨pend, hpend⟩ := h.pending
  have hpends : c.pends = false := by simp [hstage]
  simp only [cutsClean, hi, hr, preframed, flatMap_cons, flatMap_nil, append_nil,
    physicalRecord_length, Bool.and_eq_true, Bool.or_eq_true, List.isEmpty_iff, decide_eq_true_eq] at hok
  obtain ⟨hleg, hroom⟩ := hok
  rw [show c.records.flatMap (physicalRecord crc .full) = physicalRecord crc .full r by simp [hr]] at hs
  split at hs
  · next job w' hjob =>
    cases hs
    exact h.ticketed hi hkind hspan hpends hr hleg hpend (ticketed_preframed hpend hroom hjob)
  next hnone =>
  -- no room in the block, so nothing is pending
  have hnil : s.wal.frame = [] := by
    apply Classical.byContradiction
    intro hne
    exact takePreframedPwriteJob_fits hpend.offset_le hpend.offset hne (hroom.resolve_left hne) hnone
  split at hs
  · next job w' hjob =>
    cases hs
    exact h.ticketed hi hkind hspan hpends hr hleg hpend (ticketed_fragmented hpend hnil (hr ▸ hjob))
  · cases hs

/-! ### Writes and what follows them -/

theorem Commit.Coherent.pends_absent (h : c.Coherent) (hspan : c.span ≠ .absent) : c.pends = false := by
  obtain ⟨kind, records, stage, span⟩ := c
  cases stage <;> first | rfl | exact absurd h.2 hspan | exact absurd h.2.1 hspan

/-- A span that moves belongs to a commit that writes it. -/
theorem Commit.Coherent.writing (h : c.Coherent) {j : PwriteJob}
    (hspan : c.span = .reserved j ∨ c.span = .written j) : c.stage = .writing := by
  obtain ⟨kind, records, stage, span⟩ := c
  cases stage <;> simp only [Commit.Coherent] at h hspan ⊢ <;> rcases hspan with rfl | rfl <;> simp_all

theorem Sound.run (h : Sound crc s) {sink : Sink} (hs : s.run i sink = some s') : Sound crc s' := by
  simp only [State.run] at hs
  split at hs
  swap
  · cases hs
  next c hi =>
  split at hs
  swap
  · cases hs
  next j hj =>
  have hcoh := h.coherent c (mem_of_getElem? hi)
  have hpends : c.pends = false := hcoh.pends_absent (by simp [hj])
  have hstage := hcoh.writing (.inl hj)
  obtain ⟨pend, hpend⟩ := h.pending
  cases sink with
  | ok =>
    simp only [Sink.isOk, if_true] at hs
    cases hs
    refine h.move hi { c with span := .written j } _ (h.spans.write (view_getElem? hi) hj) ?_
      (fun hf => hf)
      ⟨pend, { hpend.keep { c with span := .written j } hi hpends hpends with }⟩ h.staged s.fenced
    simp only [Commit.Coherent, hstage]
    exact ⟨j, .inr rfl⟩
  | torn n =>
    simp only [Sink.isOk, Bool.false_eq_true, if_false] at hs
    cases hs
    refine h.move hi { c with stage := failure c.kind, span := .torn j } _
      (h.spans.tear (view_getElem? hi) hj n) ?_ ?_ ⟨pend,
        { hpend.keep _ hi hpends ?_ with }⟩ h.staged s.fenced
    · cases c.kind <;> simp [Commit.Coherent, State.failure]
    · cases hkind : c.kind <;> simp [State.failure, hkind, hstage]
    · cases c.kind <;> rfl

theorem commitPwrite_eq (w : Writer) (ticket len : Nat) :
    ∃ position completed, w.commitPwrite ticket len =
    { w with position := position, completed := completed } := by
  unfold commitPwrite
  split
  · exact ⟨_, _, rfl⟩
  · exact ⟨_, _, rfl⟩

theorem Sound.finish (h : Sound crc s) (hs : s.finish i = some s') : Sound crc s' := by
  simp only [State.finish] at hs
  split at hs
  swap
  · cases hs
  next c hi =>
  split at hs
  swap
  · cases hs
  next j hj =>
  cases hs
  have hcoh := h.coherent c (mem_of_getElem? hi)
  have hpends : c.pends = false := hcoh.pends_absent (by simp [hj])
  have hstage := hcoh.writing (.inr hj)
  obtain ⟨pend, hpend⟩ := h.pending
  obtain ⟨position, completed, hw⟩ := commitPwrite_eq s.wal j.ticket j.buf.length
  have hspans := h.spans.finish (view_getElem? hi) hj
  rw [hw] at hspans
  simp only [update, hw]
  refine h.move hi
    { c with stage := if c.kind = .group true then .unsynced
      else .ready, span := .finished j } _ hspans ?_ ?_
    ⟨pend, { hpend.keep _ hi hpends ?_ with }⟩ h.staged s.fenced
  · by_cases hkind : c.kind = .group true <;> simp [Commit.Coherent, hkind]
  · cases hkind : c.kind <;> simp [hkind, hstage]
  · by_cases hkind : c.kind = .group true <;> simp [hkind]

theorem syncData_idle (hframe : w.frame = []) (hstaged : ∀ st, w.staged = some st → st.buf = [])
    (stage drain : Sink) (sync : Bool) : w.syncData stage drain sync = (sync, w) := by
  obtain ⟨blockOffset, position, frame, staged, reservedTo, completed, file⟩ := w
  obtain rfl : frame = [] := hframe
  cases staged with
  | none => rfl
  | some st => simp [syncData, writePendingFrame, writeFrame, drainStaged, hstaged st rfl]

section
variable (h : Sound crc s)
include h

theorem Sound.sync {stage drain : Sink} {sync : Bool} (hs : s.sync i stage drain sync = some s') :
    Sound crc s' := by
  simp only [State.sync] at hs
  obtain ⟨c, hi, ⟨hstage, _⟩, hs⟩ := guarded hs
  have hcoh := h.coherent c (mem_of_getElem? hi)
  simp only [Commit.Coherent, hstage] at hcoh
  obtain ⟨hkind, j, hj⟩ := hcoh
  have hflies : c.flies = true := by
    cases hk : c.kind with
    | bypass => exact absurd hk hkind
    | group needSync => simp [hk, hstage]
  have hpends : c.pends = false := by simp [hstage]
  obtain ⟨_, hframe⟩ := h.nothing_pends hi hflies hpends
  rw [syncData_idle hframe h.staged] at hs
  cases hs
  refine h.restage hi (if sync then .ready else .failed) ?_ (fun _ => hflies) hpends ?_ s.fenced
  all_goals
    cases sync <;> simp [Commit.Coherent, hj, hkind]

theorem Sound.writePending {first stage drain : Sink} {sync : Bool}
    (hs : s.writePending i first stage drain sync = some s') : Sound crc s' := by
  simp only [State.writePending] at hs
  split at hs
  · next c hi =>
    -- no group finds its frame taken by another
    rw [Option.ite_none_right_eq_some] at hs
    have hcoh := h.coherent c (mem_of_getElem? hi)
    simp [Commit.Coherent, hs.1.1] at hcoh
  · cases hs

theorem Sound.ack (hs : s.ack i = some s') : Sound crc s' := by
  simp only [State.ack] at hs
  obtain ⟨c, hi, ⟨hstage, _⟩, hs⟩ := guarded hs
  cases hs
  have hcoh := h.coherent c (mem_of_getElem? hi)
  simp only [Commit.Coherent, hstage] at hcoh
  refine h.restage hi .acked hcoh ?_ (by simp [hstage]) rfl s.fenced
  cases hk : c.kind <;> simp [hk]

theorem Sound.fence (hs : s.fence i = some s') : Sound crc s' := by
  simp only [State.fence] at hs
  obtain ⟨c, hi, ⟨hstage, _⟩, hs⟩ := guarded hs
  cases hs
  have hcoh := h.coherent c (mem_of_getElem? hi)
  simp only [Commit.Coherent, hstage] at hcoh
  refine h.restage hi .fencing hcoh ?_ (by simp [hstage]) rfl true
  cases hk : c.kind <;> simp [hk, hstage]

theorem Sound.readPosition (hs : s.readPosition i = some s') : Sound crc s' := by
  simp only [State.readPosition] at hs
  obtain ⟨c, hi, hstage, hs⟩ := guarded hs
  cases hs
  have hcoh := h.coherent c (mem_of_getElem? hi)
  simp only [Commit.Coherent, hstage] at hcoh
  refine h.restage hi (.cutting s.wal.position) hcoh ?_ (by simp [hstage]) rfl s.fenced
  cases hk : c.kind <;> simp [hk, hstage]

/-- **The cut.** -/
theorem Sound.discard (hok : cutsClean crc s (.discard i) = true)
    (hs : s.discard i = some s') : Sound crc s' ∧ s'.wal.file.length = s'.wal.position := by
  simp only [State.discard] at hs
  split at hs
  swap
  · cases hs
  next c hi =>
  simp only [cutsClean, hi, Bool.and_eq_true, beq_iff_eq, List.isEmpty_iff] at hok
  obtain ⟨⟨hstage, hcomp⟩, hwriting⟩ := hok
  rw [hstage] at hs
  cases hs
  have hcoh := h.coherent c (mem_of_getElem? hi)
  simp only [Commit.Coherent, hstage] at hcoh
  obtain ⟨hkind, hspan⟩ := hcoh
  have hflies : c.flies = true := by
    cases hk : c.kind with
    | bypass => exact absurd hk hkind
    | group needSync => simp [hk, hstage]
  obtain ⟨hpend, hframe⟩ := h.nothing_pends hi hflies (by simp [hstage])
  have hkeep := hpend.keep { c with stage := .refused } hi (by simp [hstage]) rfl
  refine ⟨h.move hi { c with stage := .refused } _ ?_ hspan (fun _ => hflies)
    ⟨[], ?_, rfl, hkeep.records, .inl rfl, ?_, ?_⟩ ?_ s.fenced, setLen_length _ _⟩
  · rw [show view { c with stage := .refused } = c.view from rfl, Runs.set_self (view_getElem? hi)]
    refine h.spans.cut hcomp fun v hv j hj => ?_
    obtain ⟨d, hd, rfl⟩ := mem_map.mp hv
    have hnot := all_eq_true.mp hwriting d hd
    rcases hj with hj | hj <;> simp [isWriting, show d.span = _ from hj] at hnot
  · exact hframe
  · exact Nat.le_of_lt (Nat.mod_lt _ (by decide))
  · show _ = (s.wal.position + s.wal.frame.length) % blockSize
    rw [hframe, length_nil, Nat.add_zero]
    exact Nat.mod_mod _ _
  · intro st hst
    obtain ⟨st', _, rfl⟩ := Option.map_eq_some_iff.mp hst
    rfl

end

end Steps

theorem Sound.opened (crc : Crc) (stagedMax : Nat) : Sound crc (.opened stagedMax) where
  spans := .opened crc stagedMax
  coherent := by simp [State.opened]
  one := by simp [State.opened]
  pending := ⟨[], rfl, rfl, by simp [State.opened], .inl rfl, Nat.zero_le _, rfl⟩
  staged st hst := by
    simp only [State.opened, Writer.create] at hst
    split at hst <;> cases hst
    rfl

theorem Sound.step {crc : Crc} {s s' : State} {e : Event} (h : Sound crc s)
    (hok : cutsClean crc s e = true)
    (hs : step crc s e = some s') : Sound crc s' := by
  cases e with
  | lead needSync => exact h.lead hs
  | encode i records => exact h.encode hok hs
  | release i => exact h.release hs
  | begin' record => exact h.begin' hs
  | reserve i => exact h.reserve hok hs
  | take i => exact h.take hs
  | run i sink => exact h.run hs
  | finish i => exact h.finish hs
  | sync i stage drain sync => exact h.sync hs
  | writePending i first stage drain sync => exact h.writePending hs
  | ack i => exact h.ack hs
  | fence i => exact h.fence hs
  | readPosition i => exact h.readPosition hs
  | discard i => exact (h.discard hok hs).1

/-- An acknowledged commit's records are in the recovered log. -/
theorem Sound.recover {crc : Crc} {s : State} (h : Sound crc s)
    (hlen : s.wal.file.length = s.wal.position) :
    ∃ log, Wal.recover crc s.wal.file = .ok log ∧ ∀ c ∈ s.commits,
    c.stage = .acked → c.records <:+: log := by
  obtain ⟨log, hlog, hin⟩ := h.spans.recover hlen
  refine ⟨log, hlog, fun c hc hstage => ?_⟩
  have hcoh := h.coherent c hc
  simp only [Commit.Coherent, hstage] at hcoh
  obtain ⟨j, hj⟩ := hcoh
  exact hin c.view (mem_map_of_mem hc) j hj

/-- **Acknowledged records survive a failed group.** In every run that cuts cleanly: right
after a cut, and whenever the file ends at the written position, recovery returns the
records of every acknowledged commit; and at all times every span that was written, before
a failure or after one, holds its own frame. -/
theorem acked_records_survive (crc : Crc) (stagedMax : Nat) (es : List Event) (s : State)
    (hok : Runs.Along (step crc) (cutsClean crc) (.opened stagedMax) es = true)
    (hrun : Runs.exec (step crc) (.opened stagedMax) es = some s) :
    ((∃ es₀ i, es = es₀ ++ [.discard i]) ∨ s.wal.file.length = s.wal.position →
      ∃ log, recover crc s.wal.file = .ok log ∧ ∀ c ∈ s.commits, c.stage = .acked → c.records <:+: log) ∧
    ∀ c ∈ s.commits, ∀ j,
    c.span = .written j ∨ c.span = .finished j → Holds s.wal.file j.ticket j.buf := by
  have hsound : Sound crc s :=
    Runs.exec_invariant (I := Sound crc) (fun _ _ _ h hok hs => h.step hok hs)
      (.opened crc stagedMax) hok hrun
  refine ⟨?_, fun c hc j hj => (hsound.spans.placed c.view (mem_map_of_mem hc)).intact j hj⟩
  rintro (⟨es₀, i, rfl⟩ | hlen)
  · -- the last step is the cut
    rw [Runs.exec_append, Option.bind_eq_some_iff] at hrun
    obtain ⟨s₀, hrun₀, hlast⟩ := hrun
    obtain ⟨hok₀, hoklast⟩ := Runs.along_append hok hrun₀
    have hsound₀ : Sound crc s₀ :=
      Runs.exec_invariant (I := Sound crc) (fun _ _ _ h hok hs => h.step hok hs)
        (.opened crc stagedMax) hok₀ hrun₀
    simp only [Runs.exec, Runs.Along, Bool.and_eq_true] at hlast hoklast
    cases hs : Wal.step crc s₀ (.discard i) with
    | none => simp [hs] at hlast
    | some s₁ =>
      obtain rfl : s₁ = s := by simpa [hs] using hlast
      exact hsound.recover (hsound₀.discard hoklast.1 hs).2
  · exact hsound.recover hlen

/-- A one-op commit has its ticket, another is written past it and acknowledged, and a
group fails. -/
def cutRun : List Event :=
  [.begin' [1], .reserve 0, .begin' [2], .reserve 1, .run 1 .ok, .finish 1, .ack 1,
    .lead true, .encode 2 [[3]], .release 2, .take 2, .run 2 (.torn 0), .fence 2, .readPosition 2,
    .discard 2]

/-- A later commit, and then the write that was still to come. -/
def lateRun : List Event := [.begin' [4], .reserve 3, .run 3 .ok, .finish 3, .ack 3, .run 0 .ok]

/-- The acknowledged record of commit 1 is cut off, and that of commit 3 is overwritten by
a span reserved before the failure. -/
theorem acked_record_cut : (Runs.exec (step crc32cAppend) (.opened 65536) cutRun).map
        (fun s => (s.commits.map Commit.stage, (recover crc32cAppend s.wal.file).toOption)) =
      some ([.writing, .acked, .refused], some []) ∧
      (Runs.exec (step crc32cAppend) (.opened 65536) (cutRun ++ lateRun)).map
        (fun s => (s.commits.map Commit.stage, (recover crc32cAppend s.wal.file).toOption)) =
      some ([.writing, .acked, .refused, .acked], some [[1]]) := by
  decide +kernel

/-- A one-op commit is acknowledged before a group fails, with nothing else under way. -/
def cleanRun : List Event :=
  [.begin' [1], .reserve 0, .run 0 .ok, .finish 0, .ack 0,
    .lead true, .encode 1 [[2]], .release 1, .take 1, .run 1 (.torn 3), .fence 1, .readPosition 1,
    .discard 1]

theorem acked_records_survive_clean :
    (Runs.exec (step crc32cAppend) (.opened 65536) cleanRun).isSome = true ∧
      ∀ s, Runs.exec (step crc32cAppend) (.opened 65536) cleanRun = some s →
        ∃ log, recover crc32cAppend s.wal.file = .ok log ∧
        ∀ c ∈ s.commits, c.stage = .acked → c.records <:+: log :=
  ⟨by decide +kernel, fun s hs =>
    (acked_records_survive crc32cAppend 65536 cleanRun s (by decide +kernel) hs).1
      (.inl ⟨cleanRun.dropLast, 1, by decide⟩)⟩

end PedraDb.Wal
