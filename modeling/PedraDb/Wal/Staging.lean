import PedraDb.Wal.Append
import PedraDb.Wal.Spans

/-! Frames that share the reservation frontier.

A frame is staged, written under the lock, or taken as a job that is written and reported
later; each has its own span at the frontier. The staging buffer keeps the frames of one
write and the start of the first of them, and so a frame that is staged after a job took
its ticket would be written into the job's span (`staged_over_ticket`).

`Ledger` is what ties the spans to the file. It is kept by four moves: reserve a span, let
the last one grow, write one, report one. In a run in which nothing is staged behind a
job's ticket every event is made of these, and when all is written and reported the file is
the frames in the order they were reserved (`frames_in_reservation_order`). -/
namespace PedraDb.Wal
open List PwriteJob Writer
variable {buf : Bytes} {j : PwriteJob} {i : Nat}

/-! ### Lone frames -/

namespace Writer

/-- What is staged goes first, then the frame. -/
def writeLoneFrame (w : Writer) (buf : Bytes) (drain sink : Sink) : Bool × Writer :=
  if buf = [] then (true, w)
  else
    match w.drainStaged drain with
    | (false, w) => (false, w)
    | (true, w) => w.writeOwned buf sink

def writePendingFrameLone (w : Writer) (drain sink : Sink) : Bool × Writer :=
  { w with frame := [] }.writeLoneFrame w.frame drain sink

end Writer

namespace Staging

structure State where
  wal : Writer
  /-- Jobs that have not run. -/
  jobs : List PwriteJob
  /-- Jobs that have run and are not reported. -/
  ran : List PwriteJob
  /-- The frames in the order they were reserved. -/
  frames : List Bytes
  deriving DecidableEq

namespace State

/-- A log that is opened at the end of a file. -/
def opened (stagedMax : Nat) (file : Bytes) : State := ⟨.openEnd stagedMax file, [], [], []⟩

def reserved (s : State) (frame : Bytes) : List Bytes :=
  if frame = [] then s.frames else s.frames ++ [frame]

def stage (crc : Crc) (s : State) (datas : List Bytes) : State :=
  let w := s.wal.encodeBatches crc datas
  { s with wal := (w.writePendingFrame .ok).2, frames := s.reserved w.frame }

def lone (crc : Crc) (s : State) (datas : List Bytes) : State :=
  let w := s.wal.encodeBatches crc datas
  { s with wal := (w.writePendingFrameLone .ok .ok).2, frames := s.reserved w.frame }

def ticket (crc : Crc) (s : State) (datas : List Bytes) : State :=
  let w := s.wal.encodeBatches crc datas
  match w.takePwriteJob with
  | (none, w) => { s with wal := w }
  | (some job, w') => { s with wal := w', jobs := s.jobs ++ [job], frames := s.reserved w.frame }

/-- Write a job without the lock. -/
def run (s : State) (i : Nat) : Option State :=
  match s.jobs[i]? with
  | none => none
  | some job =>
    some { s with
      wal := { s.wal with file := writeAt s.wal.file job.ticket job.buf }
      jobs := s.jobs.eraseIdx i
      ran := s.ran ++ [job] }

def finish (s : State) (i : Nat) : Option State :=
  match s.ran[i]? with
  | none => none
  | some job =>
    some { s with wal := s.wal.commitPwrite job.ticket job.buf.length, ran := s.ran.eraseIdx i }

def drain (s : State) : State := { s with wal := (s.wal.drainStaged .ok).2 }

end State

inductive Event where
  /-- `encode_write_op_batches`, then `write_pending_frame`. -/
  | stage (datas : List Bytes)
  | lone (datas : List Bytes)
  | ticket (datas : List Bytes)
  | run (i : Nat)
  | finish (i : Nat)
  | drain
  deriving DecidableEq

def step (crc : Crc) (s : State) : Event → Option State
  | .stage datas => some (s.stage crc datas)
  | .lone datas => some (s.lone crc datas)
  | .ticket datas => some (s.ticket crc datas)
  | .run i => s.run i
  | .finish i => s.finish i
  | .drain => some s.drain

/-- A frame is staged where the staged bytes end. -/
def adjoining (s : State) : Event → Bool
  | .stage datas =>
    datas.isEmpty ||
      match s.wal.staged with
      | none => true
      | some st => st.buf.isEmpty || st.start + st.buf.length == s.wal.reservedTo
  | _ => true

end Staging

/-! ### The ledger -/

/-- The position does not stop at a completed span. -/
theorem advance_fresh (n : Nat) {p : Nat} {c : List (Nat × Nat)} (hn : c.length ≤ n)
    (hle : ∀ q ∈ c, p ≤ q.1)
    (hlt : ∀ q ∈ c, q.1 < q.2) (hapart : ∀ q ∈ c, ∀ q' ∈ c, q = q' ∨ q.2 ≤ q'.1 ∨ q'.2 ≤ q.1) :
    ∀ q ∈ (advance n p c).2, (advance n p c).1 < q.1 := by
  induction n generalizing p c with
  | zero =>
    obtain rfl := length_eq_zero_iff.mp (Nat.le_zero.mp hn)
    intro q hq
    cases hq
  | succ n ih =>
    simp only [advance]
    cases hfind : c.find? (·.1 == p) with
    | none =>
      intro q hq
      have hne : q.1 ≠ p := by simpa using find?_eq_none.mp hfind q hq
      exact Nat.lt_of_le_of_ne (hle q hq) (Ne.symm hne)
    | some q =>
      have hq := mem_of_find?_eq_some hfind
      have hqp : q.1 = p := by simpa using find?_some hfind
      have hshort : (c.filter (·.1 != p)).length < c.length :=
        length_filter_lt_length_iff_exists.mpr ⟨q, hq, by simp [hqp]⟩
      have hsub {x : Nat × Nat} (hx : x ∈ c.filter (·.1 != p)) : x ∈ c := mem_of_mem_filter hx
      refine ih (by omega) (fun x hx => ?_) (fun x hx => hlt x (hsub hx)) fun x hx y hy =>
        hapart x (hsub hx) y (hsub hy)
      have hxp : x.1 ≠ p := by simpa using (mem_filter.mp hx).2
      have := hle x (hsub hx)
      have := hlt x (hsub hx)
      rcases hapart q hq x (hsub hx) with rfl | h | h <;> omega

theorem commitPwrite_fresh {w : Writer} {ticket len : Nat} (hlen : 0 < len) (hpos : w.position ≤ ticket)
    (hcompleted : ∀ q ∈ w.completed, w.position < q.1 ∧ q.1 < q.2 ∧ (q.2 ≤ ticket ∨ ticket + len ≤ q.1))
    (hapart : ∀ q ∈ w.completed, ∀ q' ∈ w.completed, q = q' ∨ q.2 ≤ q'.1 ∨ q'.2 ≤ q.1) :
    ∀ q ∈ (w.commitPwrite ticket len).completed, (w.commitPwrite ticket len).position < q.1 := by
  simp only [commitPwrite, if_neg (Nat.ne_of_gt hlen)]
  rcases Nat.lt_or_eq_of_le hpos with hbeyond | rfl
  · have hfilter : w.completed.filter (·.1 != ticket) = w.completed :=
      filter_eq_self.mpr fun q hq => by
        have := hcompleted q hq
        simp only [bne_iff_ne]
        omega
    simp only [if_neg (Nat.not_le_of_lt hbeyond), hfilter]
    have hmem {q : Nat × Nat} (hq : q ∈ w.completed ++ [(ticket, ticket + len)]) :
        q ∈ w.completed ∨ q = (ticket, ticket + len) := by simpa using hq
    refine advance_fresh _ .refl (fun q hq => ?_) (fun q hq => ?_) fun q hq q' hq' => ?_
    · rcases hmem hq with hq | rfl
      · exact Nat.le_of_lt (hcompleted q hq).1
      · exact hpos
    · rcases hmem hq with hq | rfl
      · exact (hcompleted q hq).2.1
      · exact Nat.lt_add_of_pos_right hlen
    · rcases hmem hq with hq | rfl <;> rcases hmem hq' with hq' | rfl
      · exact hapart q hq q' hq'
      · exact .inr (hcompleted q hq).2.2
      · exact .inr (hcompleted q' hq').2.2.symm
      · exact .inl rfl
  · simp only [Nat.le_refl, if_true]
    rw [Nat.max_eq_right (Nat.le_add_right _ _)]
    refine advance_fresh _ .refl (fun q hq => ?_) (fun q hq => (hcompleted q hq).2.1) hapart
    have := hcompleted q hq
    omega

/-- What is reserved, written and reported. Spans that wait are reserved and not written;
those that ran are written and not reported. -/
structure Ledger (log : Bytes) (w : Writer) (waiting ran : List PwriteJob) : Prop where
  reserved : w.reservedTo = log.length
  held : ∀ j ∈ waiting ++ ran, Holds log j.ticket j.buf ∧ j.buf ≠ [] ∧ w.position ≤ j.ticket
  apart : (waiting ++ ran).Pairwise PwriteJob.Apart
  position : w.position ≤ log.length
  completed : ∀ q ∈ w.completed, w.position < q.1 ∧ q.1 < q.2 ∧ q.2 ≤ log.length ∧
    ∀ j ∈ waiting ++ ran, q.2 ≤ j.ticket ∨ j.stop ≤ q.1
  completedApart : ∀ q ∈ w.completed, ∀ q' ∈ w.completed, q = q' ∨ q.2 ≤ q'.1 ∨ q'.2 ≤ q.1
  covered : ∀ k < log.length, k < w.position ∨ (∃ q ∈ w.completed, q.1 ≤ k ∧ k < q.2) ∨
    ∃ j ∈ waiting ++ ran, j.ticket ≤ k ∧ k < j.stop
  content : ∀ k < log.length, w.file[k]? = log[k]? ∨ ∃ j ∈ waiting, j.ticket ≤ k ∧ k < j.stop
  short : w.file.length ≤ log.length

variable {file : Bytes} {offset : Nat}

theorem Holds.stop_le (h : Holds file offset buf) (hne : buf ≠ []) :
    offset + buf.length ≤ file.length := by
  have hpos := length_pos_iff.mpr hne
  have := h.lt_length (show buf.length - 1 < buf.length by omega)
  omega

theorem writeAt_length (file buf : Bytes) (at' : Nat) :
    (writeAt file at' buf).length = max file.length (at' + buf.length) := by
  simp only [writeAt, length_append, length_take, length_replicate, length_drop]
  omega

theorem Holds.extend (h : Holds file offset buf) (more : Bytes) :
    Holds (file ++ more) offset buf := fun k hk => by
  rw [getElem?_append_left (h.lt_length hk), h k hk]

theorem holds_end (file buf : Bytes) : Holds (file ++ buf) file.length buf := fun k _ => by
  rw [getElem?_append_right (Nat.le_add_right _ _), Nat.add_sub_cancel_left]

namespace Ledger
variable {log : Bytes} {w : Writer} {waiting ran : List PwriteJob}

section
variable (h : Ledger log w waiting ran)
include h

/-- The same spans, and a file that has the log but for those that wait. -/
theorem refile {waiting' ran' : List PwriteJob} (hboth : (waiting ++ ran).Perm (waiting' ++ ran'))
    (hcontent : ∀ k < log.length, file[k]? = log[k]? ∨ ∃ j ∈ waiting', j.ticket ≤ k ∧ k < j.stop)
    (hshort : file.length ≤ log.length) : Ledger log { w with file := file } waiting' ran' := by
  refine ⟨h.reserved, fun j hj => h.held j (hboth.mem_iff.mpr hj),
    (hboth.pairwise_iff PwriteJob.Apart.symm).mp h.apart, h.position, fun q hq => ?_,
    h.completedApart, fun k hk => ?_,
    hcontent, hshort⟩
  · obtain ⟨hpos, hlt, hle, hapart⟩ := h.completed q hq
    exact ⟨hpos, hlt, hle, fun j hj => hapart j (hboth.mem_iff.mpr hj)⟩
  · rcases h.covered k hk with hk | hk | ⟨j, hj, hk⟩
    · exact .inl hk
    · exact .inr (.inl hk)
    · exact .inr (.inr ⟨j, hboth.mem_iff.mp hj, hk⟩)

theorem perm {waiting' ran' : List PwriteJob} (hwaiting : waiting.Perm waiting')
    (hran : ran.Perm ran') : Ledger log w waiting' ran' := by
  refine h.refile (hwaiting.append hran) (fun k hk => ?_) h.short
  rcases h.content k hk with hk | ⟨j, hj, hk⟩
  · exact .inl hk
  · exact .inr ⟨j, hwaiting.mem_iff.mp hj, hk⟩

theorem stop_le (hj : j ∈ waiting ++ ran) : j.stop ≤ log.length :=
  (h.held j hj).1.stop_le (h.held j hj).2.1

theorem reserve (hne : buf ≠ []) :
    Ledger (log ++ buf) { w with reservedTo := w.reservedTo + buf.length }
    (⟨w.reservedTo, buf⟩ :: waiting) ran := by
  have hlen : (log ++ buf).length = log.length + buf.length := length_append
  have hres := h.reserved
  refine ⟨by rw [hlen, ← hres], ?_, ?_, ?_, ?_, h.completedApart, ?_, ?_, ?_⟩
  · refine forall_mem_cons.mpr ⟨⟨hres ▸ holds_end log buf, hne, hres ▸ h.position⟩, fun j hj => ?_⟩
    obtain ⟨hheld, hne, hpos⟩ := h.held j hj
    exact ⟨hheld.extend buf, hne, hpos⟩
  · refine pairwise_cons.mpr ⟨fun j hj => .inr ?_, h.apart⟩
    exact hres ▸ h.stop_le hj
  · rw [hlen]
    exact Nat.le_trans h.position (Nat.le_add_right _ _)
  · intro q hq
    obtain ⟨hpos, hlt, hle, hapart⟩ := h.completed q hq
    exact ⟨hpos, hlt, by omega, forall_mem_cons.mpr ⟨.inl (hres ▸ hle), hapart⟩⟩
  · intro k hk
    by_cases hold : k < log.length
    · rcases h.covered k hold with hk | hk | ⟨j, hj, hk⟩
      · exact .inl hk
      · exact .inr (.inl hk)
      · exact .inr (.inr ⟨j, mem_cons_of_mem _ hj, hk⟩)
    · refine .inr (.inr ⟨_, mem_cons_self, ?_⟩)
      simp only [stop]
      omega
  · intro k hk
    by_cases hold : k < log.length
    · rw [getElem?_append_left hold]
      rcases h.content k hold with hk | ⟨j, hj, hk⟩
      · exact .inl hk
      · exact .inr ⟨j, mem_cons_of_mem _ hj, hk⟩
    · refine .inr ⟨_, mem_cons_self, ?_⟩
      simp only [stop]
      omega
  · have := h.short
    show w.file.length ≤ _
    omega

end

theorem join {start : Nat} {x y : Bytes}
    (h : Ledger log w (⟨start, x⟩ :: ⟨start + x.length, y⟩ :: waiting) ran) :
    Ledger log w (⟨start, x ++ y⟩ :: waiting) ran := by
  obtain ⟨hx, hxne, hxpos⟩ := h.held _ mem_cons_self
  obtain ⟨hy, hyne, -⟩ := h.held _ (mem_cons_of_mem _ mem_cons_self)
  have hrest {j : PwriteJob} (hj : j ∈ waiting ++ ran) :
    j ∈ (⟨start, x⟩ :: ⟨start + x.length, y⟩ :: waiting) ++ ran :=
    mem_cons_of_mem _ (mem_cons_of_mem _ hj)
  obtain ⟨hxapart, happart⟩ := pairwise_cons.mp h.apart
  obtain ⟨hyapart, hapart⟩ := pairwise_cons.mp happart
  have hlen : (x ++ y).length = x.length + y.length := length_append
  -- a byte of either is a byte of both
  have cover {k : Nat} {spans : List PwriteJob}
    (hk : ∃ j ∈ ⟨start, x⟩ :: ⟨start + x.length, y⟩ :: spans, j.ticket ≤ k ∧ k < j.stop) :
      ∃ j ∈ (⟨start, x ++ y⟩ : PwriteJob) :: spans, j.ticket ≤ k ∧ k < j.stop := by
    obtain ⟨j, hj, hk⟩ := hk
    rcases mem_cons.mp hj with rfl | hj
    · refine ⟨_, mem_cons_self, ?_⟩
      simp only [stop] at hk ⊢
      omega
    · rcases mem_cons.mp hj with rfl | hj
      · refine ⟨_, mem_cons_self, ?_⟩
        simp only [stop] at hk ⊢
        omega
      · exact ⟨j, mem_cons_of_mem _ hj, hk⟩
  refine ⟨h.reserved, ?_, ?_, h.position, ?_, h.completedApart, ?_, ?_, h.short⟩
  · exact forall_mem_cons.mpr ⟨⟨hx.append hy, by simp [hxne], hxpos⟩, fun j hj => h.held j (hrest hj)⟩
  · refine pairwise_cons.mpr ⟨fun j hj => ?_, hapart⟩
    have hjne := length_pos_iff.mpr (h.held j (hrest hj)).2.1
    have hjx := hxapart j (mem_cons_of_mem _ hj)
    have hjy := hyapart j hj
    simp only [PwriteJob.Apart, stop] at hjx hjy ⊢
    omega
  · intro q hq
    obtain ⟨hpos, hlt, hle, hqapart⟩ := h.completed q hq
    refine ⟨hpos, hlt, hle, fun j hj => ?_⟩
    rcases mem_cons.mp hj with rfl | hj
    · have hqx := hqapart _ mem_cons_self
      have hqy := hqapart _ (mem_cons_of_mem _ mem_cons_self)
      simp only [stop] at hqx hqy ⊢
      omega
    · exact hqapart j (hrest hj)
  · intro k hk
    rcases h.covered k hk with hk | hk | hk
    · exact .inl hk
    · exact .inr (.inl hk)
    · exact .inr (.inr (cover hk))
  · intro k hk
    rcases h.content k hk with hk | hk
    · exact .inl hk
    · exact .inr (cover hk)

theorem grow {start : Nat} {x : Bytes} (h : Ledger log w (⟨start, x⟩ :: waiting) ran)
    (hend : start + x.length = w.reservedTo) (hne : buf ≠ []) :
    Ledger (log ++ buf) { w with reservedTo := w.reservedTo + buf.length }
    (⟨start, x ++ buf⟩ :: waiting) ran := by
  have hreserved := h.reserve hne
  rw [← hend] at hreserved ⊢
  exact (hreserved.perm (.swap _ _ _) (.refl _)).join

theorem write (h : Ledger log w (j :: waiting) ran) :
    Ledger log { w with file := writeAt w.file j.ticket j.buf } waiting (j :: ran) := by
  refine h.refile perm_middle.symm (fun k hk => ?_) ?_
  · by_cases hin : j.ticket ≤ k ∧ k < j.stop
    · obtain ⟨n, rfl⟩ := Nat.le.dest hin.1
      have hn : n < j.buf.length := by
        have := hin.2
        simp only [stop] at this
        omega
      refine .inl ?_
      rw [writeAt_inside _ _ _ hn, (h.held j mem_cons_self).1 n hn]
    · rcases h.content k hk with hsame | ⟨l, hl, hlk⟩
      · refine .inl ?_
        have hlt : k < w.file.length := by
          rw [getElem?_eq_getElem hk] at hsame
          exact (List.getElem?_eq_some_iff.mp hsame).1
        rw [writeAt_outside _ _ _ hlt (by simp only [stop] at hin; omega), hsame]
      · rcases mem_cons.mp hl with rfl | hl
        · exact absurd hlk hin
        · exact .inr ⟨l, hl, hlk⟩
  · have := h.stop_le (j := j) mem_cons_self
    have := h.short
    rw [writeAt_length]
    simp only [stop] at *
    omega

theorem commit (h : Ledger log w waiting (j :: ran)) :
    Ledger log (w.commitPwrite j.ticket j.buf.length) waiting ran := by
  have hperm : (waiting ++ j :: ran).Perm (j :: (waiting ++ ran)) := perm_middle
  have hmem {l : PwriteJob} (hl : l ∈ waiting ++ ran) : l ∈ waiting ++ j :: ran :=
    hperm.mem_iff.mpr (mem_cons_of_mem _ hl)
  have hj : j ∈ waiting ++ j :: ran := hperm.mem_iff.mpr mem_cons_self
  obtain ⟨hheld, hne, hpos⟩ := h.held j hj
  have hlen := length_pos_iff.mpr hne
  have hjapart := (pairwise_cons.mp ((hperm.pairwise_iff PwriteJob.Apart.symm).mp h.apart)).1
  have hapart := (pairwise_cons.mp ((hperm.pairwise_iff PwriteJob.Apart.symm).mp h.apart)).2
  have hfresh := commitPwrite_fresh hlen hpos
    (fun q hq => ⟨(h.completed q hq).1, (h.completed q hq).2.1, (h.completed q hq).2.2.2 j hj⟩)
    h.completedApart
  -- the position stays below the spans that are left
  obtain ⟨position, completed, heq, ⟨hle, hbelow⟩, hmono, hsub, hcov⟩ :=
    @commitPwrite_spec (fun p => p ≤ log.length ∧
      ∀ l ∈ waiting ++ ran, p ≤ l.ticket) w j.ticket j.buf.length hlen
      ⟨h.position, fun l hl => (h.held l (hmem hl)).2.2⟩ hpos
      (fun hgood => ⟨h.stop_le hj, fun l hl => by
        have hl' := length_pos_iff.mpr (h.held l (hmem hl)).2.1
        have := hgood.2 l hl
        have := hjapart l hl
        simp only [PwriteJob.Apart, stop] at this
        omega⟩)
      (fun q hq hgood => ⟨(h.completed q hq).2.2.1, fun l hl => by
        have hl' := length_pos_iff.mpr (h.held l (hmem hl)).2.1
        have := hgood.2 l hl
        have := (h.completed q hq).2.2.2 l (hmem hl)
        simp only [stop] at this
        omega⟩)
      (fun q hq => (h.completed q hq).2.1)
      (fun q hq q' hq' heq => by
        have := (h.completed q hq).2.1
        have := (h.completed q' hq').2.1
        rcases h.completedApart q hq q' hq' with rfl | hout | hout
        · rfl
        · omega
        · omega)
      (fun q hq => by
        have := (h.completed q hq).2.1
        have := (h.completed q hq).2.2.2 j hj
        simp only [stop] at this
        omega)
  rw [heq] at hfresh ⊢
  have hnew {q : Nat × Nat} (hq : q ∈ completed) : q ∈ w.completed ∨ q = (j.ticket, j.stop) := hsub q hq
  refine ⟨h.reserved, fun l hl => ⟨(h.held l (hmem hl)).1, (h.held l (hmem hl)).2.1, hbelow l hl⟩,
    hapart, hle, ?_, ?_, ?_,
    h.content, h.short⟩
  · intro q hq
    refine ⟨hfresh q hq, ?_⟩
    rcases hnew hq with hq | rfl
    · obtain ⟨-, hlt, hle, hout⟩ := h.completed q hq
      exact ⟨hlt, hle, fun l hl => hout l (hmem hl)⟩
    · exact ⟨Nat.lt_add_of_pos_right hlen, h.stop_le hj, fun l hl => hjapart l hl⟩
  · intro q hq q' hq'
    rcases hnew hq with hq | rfl <;> rcases hnew hq' with hq' | rfl
    · exact h.completedApart q hq q' hq'
    · exact .inr ((h.completed q hq).2.2.2 j hj)
    · exact .inr ((h.completed q' hq').2.2.2 j hj).symm
    · exact .inl rfl
  · intro k hk
    -- a completed span is still listed, or the position is past it
    have listed {q : Nat × Nat} (hq : q ∈ w.completed ∨ q = (j.ticket, j.stop)) (hk : q.1 ≤ k ∧ k < q.2) :
        k < position ∨ (∃ q ∈ completed, q.1 ≤ k ∧ k < q.2) := by
      rcases hcov q hq with hq | hq
      · exact .inr ⟨q, hq, hk⟩
      · exact .inl (by omega)
    rcases h.covered k hk with hk | ⟨q, hq, hk⟩ | ⟨l, hl, hk⟩
    · exact .inl (Nat.lt_of_lt_of_le hk hmono)
    · exact (listed (.inl hq) hk).imp id .inl
    · rcases mem_cons.mp (hperm.mem_iff.mp hl) with rfl | hl
      · exact (listed (.inr rfl) hk).imp id .inl
      · exact .inr (.inr ⟨l, hl, hk⟩)

end Ledger

/-! ### Operations -/

/-- What the staging buffer holds, as a span. -/
def Writer.stagedSpan (w : Writer) : List PwriteJob :=
  match w.staged with
  | none => []
  | some st => if st.buf = [] then [] else [⟨st.start, st.buf⟩]

theorem commitPwrite_frame (w : Writer) (ticket len : Nat) :
    (w.commitPwrite ticket len).staged = w.staged ∧ (w.commitPwrite ticket len).frame = w.frame := by
  rw [commitPwrite]
  split <;> exact ⟨rfl, rfl⟩

/-- The writer after an operation: its ledger, the staged bytes and the pending frame. -/
structure Leaves (log : Bytes) (jobs ran : List PwriteJob) (w : Writer) : Prop where
  ledger : Ledger log w (w.stagedSpan ++ jobs) ran
  frame : w.frame = []

section
variable {log : Bytes} {w : Writer} {jobs ran : List PwriteJob}

section
variable (h : Leaves log jobs ran w)
include h

theorem drainStaged_leaves : ∃ w', w.drainStaged .ok = (true, w') ∧ Leaves log jobs ran w' := by
  have hledger := h.ledger
  rw [drainStaged]
  cases hstaged : w.staged with
  | none => exact ⟨w, rfl, h⟩
  | some st =>
    by_cases hnil : st.buf = []
    · exact ⟨w, by simp [hnil], h⟩
    simp only [stagedSpan, hstaged, hnil, if_false, cons_append, nil_append] at hledger
    generalize hw' : commitPwrite
      { w with file := writeAt w.file st.start st.buf, staged := some { st with buf := [] } }
      st.start st.buf.length = w'
    obtain ⟨hkept, hframe⟩ := commitPwrite_frame
      { w with file := writeAt w.file st.start st.buf, staged := some { st with buf := [] } }
      st.start st.buf.length
    rw [hw'] at hkept hframe
    have hspan : w'.stagedSpan = [] := by simp [stagedSpan, hkept]
    refine ⟨w', by simp [hnil, Sink.isOk, Sink.emit, hw'], ?_, hframe.trans h.frame⟩
    rw [hspan, nil_append, ← hw']
    have hwritten : Ledger log
      { w with file := writeAt w.file st.start st.buf, staged := some { st with buf := [] } } jobs
        (⟨st.start, st.buf⟩ :: ran) := { hledger.write with }
    exact hwritten.commit

theorem writeOwned_leaves (hne : buf ≠ []) : ∃ w', w.writeOwned buf .ok = (true, w') ∧ Leaves
    (log ++ buf) jobs ran w' := by
  generalize hw' : commitPwrite
    { w with reservedTo := w.reservedTo + buf.length, file := writeAt w.file w.reservedTo buf }
    w.reservedTo buf.length = w'
  obtain ⟨hkept, hframe⟩ := commitPwrite_frame
    { w with reservedTo := w.reservedTo + buf.length, file := writeAt w.file w.reservedTo buf }
    w.reservedTo buf.length
  rw [hw'] at hkept hframe
  have hspan : w'.stagedSpan = w.stagedSpan := by rw [stagedSpan, hkept, stagedSpan]
  refine ⟨w', by simp [writeOwned, hne, reservePending, Sink.isOk, Sink.emit,
    hw'], ?_, hframe.trans h.frame⟩
  rw [hspan, ← hw']
  exact (h.ledger.reserve hne).write.commit

/-- The frame joins the staged bytes, if it is staged where they end. -/
theorem writeFrame_leaves (hne : buf ≠ [])
    (hadjoin : ∀ st, w.staged = some st → st.buf = [] ∨ st.start + st.buf.length = w.reservedTo) :
    ∃ w', w.writeFrame buf .ok = (true, w') ∧ Leaves (log ++ buf) jobs ran w' := by
  rw [writeFrame, if_neg hne]
  cases hstaged : w.staged with
  | none =>
    exact writeOwned_leaves h hne
  | some st =>
    have hledger := h.ledger
    have hstage : Leaves (log ++ buf) jobs ran
        { w with
          reservedTo := w.reservedTo + buf.length
          staged := some { st with start := if st.buf = []
            then w.reservedTo else st.start, buf := st.buf ++ buf } } := by
      refine ⟨?_, h.frame⟩
      by_cases hnil : st.buf = []
      · simp only [stagedSpan, hstaged, hnil, if_true, nil_append] at hledger
        simp only [stagedSpan, hnil, if_true, nil_append, hne, if_false, cons_append]
        exact { hledger.reserve hne with }
      · simp only [stagedSpan, hstaged, hnil, if_false, cons_append, nil_append] at hledger
        simp only [stagedSpan, hnil, append_eq_nil_iff, false_and, if_false, cons_append, nil_append]
        exact { hledger.grow ((hadjoin st hstaged).resolve_left hnil) hne with }
    dsimp only [reservePending]
    split
    · exact drainStaged_leaves hstage
    · exact ⟨_, rfl, hstage⟩

theorem writeLoneFrame_leaves (hne : buf ≠ []) :
    ∃ w', w.writeLoneFrame buf .ok .ok = (true, w') ∧ Leaves (log ++ buf) jobs ran w' := by
  obtain ⟨w₁, hdrain, hleaves₁⟩ := drainStaged_leaves h
  obtain ⟨w', hw', hleaves⟩ := writeOwned_leaves hleaves₁ hne
  exact ⟨w', by simp [writeLoneFrame, if_neg hne, hdrain, hw'], hleaves⟩

end

end

/-! ### Runs -/

namespace Staging

/-- What the file is to be: what it was when it was opened, then the frames. -/
def State.log (file : Bytes) (s : State) : Bytes := file ++ s.frames.flatten

/-- Nothing is staged and no job is under way. -/
def State.settled (s : State) : Bool := s.wal.stagedSpan.isEmpty && s.jobs.isEmpty && s.ran.isEmpty

def Inv (file : Bytes) (s : State) : Prop := Leaves (s.log file) s.jobs s.ran s.wal

section
variable {crc : Crc} {s s' : State}

theorem Inv.opened (stagedMax : Nat) (file : Bytes) : Inv file (.opened stagedMax file) := by
  have hspan : (openEnd stagedMax file).stagedSpan = [] := by
    unfold stagedSpan openEnd
    split
    · rfl
    · rename_i st hst
      split at hst
      · simp [← Option.some.inj hst]
      · cases hst
  refine ⟨?_, rfl⟩
  simp only [State.log, State.opened, flatten_nil, append_nil, hspan]
  refine ⟨rfl, by simp, .nil, .refl, by simp [openEnd], by simp [openEnd], fun k hk => .inl hk,
    fun k hk => .inl rfl, .refl⟩

/-- Framing leaves everything but the pending frame and the offset in the block. -/
theorem encodeBatches_leaves (crc : Crc) (h : Inv file s) (datas : List Bytes) :
    Leaves (s.log file) s.jobs s.ran { s.wal.encodeBatches crc datas with frame := [] } :=
  ⟨{ h.ledger with }, rfl⟩

theorem log_reserved (s : State) {frame : Bytes} (hne : frame ≠ []) (w : Writer) (jobs : List PwriteJob) :
    State.log file { s with wal := w, jobs := jobs, frames := s.reserved frame } =
    s.log file ++ frame := by
  simp [State.log, State.reserved, hne]

theorem Inv.stage (h : Inv file s) {datas : List Bytes} (hok : adjoining s (.stage datas) = true) :
    Inv file (s.stage crc datas) := by
  have hleaves := encodeBatches_leaves crc h datas
  rw [State.stage]
  generalize hw : s.wal.encodeBatches crc datas = w at hleaves
  simp only [writePendingFrame]
  by_cases hnil : w.frame = []
  · simp only [hnil, writeFrame, if_true]
    exact hleaves
  have hadjoin : ∀ st, w.staged = some st → st.buf = [] ∨ st.start + st.buf.length = w.reservedTo := by
    intro st hst
    have hne : datas ≠ [] := by
      rintro rfl
      exact hnil (by rw [← hw]; simp [encodeBatches, fragmentAll, frameBytes, h.frame])
    have hsame : w.staged = s.wal.staged ∧ w.reservedTo = s.wal.reservedTo := by
      rw [← hw]
      exact ⟨rfl, rfl⟩
    simp only [adjoining, ← hsame.1, hst, ← hsame.2] at hok
    simpa [hne] using hok
  obtain ⟨w', hw', hleaves'⟩ := writeFrame_leaves hleaves hnil hadjoin
  rw [hw', Inv, log_reserved s hnil]
  exact hleaves'

theorem Inv.lone (h : Inv file s) (datas : List Bytes) : Inv file (s.lone crc datas) := by
  have hleaves := encodeBatches_leaves crc h datas
  rw [State.lone]
  generalize s.wal.encodeBatches crc datas = w at hleaves
  simp only [writePendingFrameLone]
  by_cases hnil : w.frame = []
  · simp only [hnil, writeLoneFrame, if_true]
    exact hleaves
  · obtain ⟨w', hw', hleaves'⟩ := writeLoneFrame_leaves hleaves hnil
    rw [hw', Inv, log_reserved s hnil]
    exact hleaves'

theorem Inv.ticket (h : Inv file s) (datas : List Bytes) : Inv file (s.ticket crc datas) := by
  have hleaves := encodeBatches_leaves crc h datas
  rw [State.ticket]
  generalize s.wal.encodeBatches crc datas = w at hleaves
  by_cases hnil : w.frame = []
  · have hframe : { w with frame := [] } = w := by rw [← hnil]
    rw [hframe] at hleaves
    simp only [takePwriteJob, hnil, if_true]
    exact hleaves
  · simp only [takePwriteJob, if_neg hnil, reservePending]
    rw [Inv, log_reserved s hnil]
    have hperm : (⟨w.reservedTo, w.frame⟩ :: (w.stagedSpan ++ s.jobs)).Perm
        (w.stagedSpan ++ (s.jobs ++ [⟨w.reservedTo, w.frame⟩])) := by
      rw [← append_assoc]
      exact (perm_append_singleton _ _).symm
    exact ⟨{ (hleaves.ledger.reserve hnil).perm hperm (.refl _) with }, rfl⟩

theorem perm_eraseIdx {α : Type} {l : List α} {a : α} (h : l[i]? = some a) :
    l.Perm (a :: l.eraseIdx i) := by
  obtain ⟨hlt, rfl⟩ := List.getElem?_eq_some_iff.mp h
  exact (getElem_cons_eraseIdx_perm hlt).symm

section
variable (h : Inv file s)
include h

theorem Inv.run (hs : s.run i = some s') : Inv file s' := by
  rw [State.run] at hs
  split at hs
  · cases hs
  rename_i job hjob
  obtain rfl := Option.some.inj hs
  have hwaiting : (s.wal.stagedSpan ++ s.jobs).Perm (job :: (s.wal.stagedSpan ++ s.jobs.eraseIdx i)) :=
    ((perm_eraseIdx hjob).append_left _).trans perm_middle
  have hwritten := (h.ledger.perm hwaiting (.refl _)).write
  exact ⟨hwritten.perm (.refl _) (perm_append_singleton _ _).symm, h.frame⟩

theorem Inv.finish (hs : s.finish i = some s') : Inv file s' := by
  rw [State.finish] at hs
  split at hs
  · cases hs
  rename_i job hjob
  obtain rfl := Option.some.inj hs
  obtain ⟨hstaged, hframe⟩ := commitPwrite_frame s.wal job.ticket job.buf.length
  have hspan : (s.wal.commitPwrite job.ticket job.buf.length).stagedSpan = s.wal.stagedSpan := by
    rw [stagedSpan, hstaged, stagedSpan]
  refine ⟨?_, hframe.trans h.frame⟩
  rw [hspan]
  exact (h.ledger.perm (.refl _) (perm_eraseIdx hjob)).commit

theorem Inv.drain : Inv file s.drain := by
  obtain ⟨w', hdrain, hleaves⟩ := drainStaged_leaves h
  rw [State.drain, hdrain]
  exact hleaves

theorem Inv.step {e : Event} (hok : adjoining s e = true) (hs : step crc s e = some s') :
    Inv file s' := by
  cases e with
  | stage datas =>
    obtain rfl := Option.some.inj hs
    exact h.stage hok
  | lone datas =>
    obtain rfl := Option.some.inj hs
    exact h.lone datas
  | ticket datas =>
    obtain rfl := Option.some.inj hs
    exact h.ticket datas
  | run i => exact h.run hs
  | finish i => exact h.finish hs
  | drain =>
    obtain rfl := Option.some.inj hs
    exact h.drain

end

end

/-- The byte is staged, or belongs to a job that has not run. -/
def State.waits (s : State) (k : Nat) : Prop := ∃ j ∈ s.wal.stagedSpan ++ s.jobs,
    j.ticket ≤ k ∧ k < j.stop

/-- **Frames keep their spans.** In every run in which a frame is staged only where the staged
bytes end, every byte of a frame that has been handed to the file is there, whatever was
written after it. When nothing is staged and every job has run and is reported, the file
is what it was, followed by the frames in the order they were reserved, and the position is
the frontier. -/
theorem frames_in_reservation_order (crc : Crc) (stagedMax : Nat) (file : Bytes) (es : List Event)
    (s : State)
    (hok : Runs.Along (step crc) adjoining (.opened stagedMax file) es = true)
    (hrun : Runs.exec (step crc) (.opened stagedMax file) es = some s) :
    (∀ k < (s.log file).length, ¬ s.waits k → s.wal.file[k]? = (s.log file)[k]?) ∧
      (s.settled = true → s.wal.file = s.log file ∧ s.wal.position = s.wal.reservedTo) := by
  have hinv : Inv file s := Runs.exec_invariant (fun _ _ _ h => h.step) (.opened stagedMax file) hok hrun
  have hledger := hinv.ledger
  refine ⟨fun k hk hwaits => (hledger.content k hk).resolve_right hwaits, fun hsettled => ?_⟩
  simp only [State.settled, Bool.and_eq_true, List.isEmpty_iff] at hsettled
  obtain ⟨⟨hstaged, hjobs⟩, hran⟩ := hsettled
  rw [hstaged, hjobs, hran] at hledger
  constructor
  · apply ext_getElem?
    intro k
    by_cases hk : k < (s.log file).length
    · exact (hledger.content k hk).resolve_right (by simp)
    · have := hledger.short
      rw [getElem?_eq_none (by omega), getElem?_eq_none (by omega)]
  · rw [hledger.reserved]
    refine Nat.le_antisymm hledger.position (Nat.not_lt.mp fun hlt => ?_)
    rcases hledger.covered _ hlt with h | ⟨q, hq, hle, -⟩ | ⟨j, hj, -⟩
    · omega
    · have := (hledger.completed q hq).1
      omega
    · simp at hj

/-- A frame is staged, a job takes its ticket, and another frame is staged behind it. -/
def overlapRun : List Event := [.stage [[5]], .ticket [[6]], .stage [[7]], .run 0, .finish 0, .drain]

/-- The second staged frame is written over the job's, and the file lacks it. -/
theorem staged_over_ticket : ∃ s, Runs.exec (step fun _ _ => 0)
    (.opened 64 []) overlapRun = some s ∧ s.settled = true ∧
      s.wal.file = frameAt (fun _ _ => 0) 0 [[5]] ++ frameAt (fun _ _ => 0) 16 [[7]] ∧
      s.log [] = frameAt (fun _ _ => 0) 0 [[5]] ++ frameAt (fun _ _ => 0) 8 [[6]] ++
      frameAt (fun _ _ => 0) 16 [[7]] ∧
      s.wal.position ≠ s.wal.reservedTo :=
  ⟨_, rfl, by decide +kernel, by decide +kernel, by decide +kernel, by decide +kernel⟩

/-- Two staged frames, a job, a lone frame in between, and the job is reported last. -/
def apartRun : List Event :=
  [.stage [[5]], .stage [[6, 6]], .ticket [[7]], .lone [[8]], .stage [[5, 5]], .ticket [[6]],
    .run 1, .finish 0, .drain, .run 0,
    .finish 0]

theorem frames_in_reservation_order_apart :
    ∃ s, Runs.exec (step fun _ _ => 0) (.opened 64 [1, 2, 3]) apartRun = some s ∧ s.settled = true ∧
      s.wal.file = s.log [1, 2, 3] ∧ s.wal.position = s.wal.reservedTo := by
  obtain ⟨s, hs⟩ : ∃ s, Runs.exec (step fun _ _ => 0) (.opened 64 [1, 2, 3]) apartRun = some s :=
    Option.isSome_iff_exists.mp (by decide +kernel)
  have hsettled : s.settled = true := by
    have : (Runs.exec (step fun _ _ => 0) (.opened 64 [1, 2, 3]) apartRun).all State.settled =
      true := by decide +kernel
    simpa [hs] using this
  exact ⟨s, hs, hsettled,
    (frames_in_reservation_order _ 64 [1, 2, 3] apartRun s (by decide +kernel) hs).2 hsettled⟩

end Staging

end PedraDb.Wal
