import PedraDb.Wal.RoundTrip
import PedraDb.Wal.Tickets

/-! Spans of the log and the written position.

`SpanInv` is what keeps spans apart: each span with a live ticket has its own part of the
file below the frontier, holds its frame once written, and is below the written position
or listed as completed once reported. The part below the position is a framed log that
has every reported span in it (`Reached`). Each way a span moves keeps this, if tickets
are given at the frontier. -/
namespace PedraDb.Wal
open List Writer
variable {v : View} {j : PwriteJob} {i offset : Nat} {l : PwriteJob} {file buf : Bytes} {x : View}
    {k : Nat}

/-! ### The bytes of a file -/

/-- The file has these bytes at an offset. -/
def Holds (file : Bytes) (offset : Nat) (buf : Bytes) : Prop :=
  ∀ k, k < buf.length → file[offset + k]? = buf[k]?

theorem Holds.nil (file : Bytes) (offset : Nat) : Holds file offset [] := by
  intro k hk
  cases hk

theorem Holds.append {x y : Bytes} (hx : Holds file offset x)
    (hy : Holds file (offset + x.length) y) : Holds file offset (x ++ y) := by
  intro k hk
  rw [length_append] at hk
  by_cases h : k < x.length
  · rw [hx k h, getElem?_append_left h]
  · have := hy (k - x.length) (by omega)
    rwa [show offset + x.length + (k - x.length) =
      offset + k by omega, ← getElem?_append_right (by omega)] at this

theorem Holds.lt_length (h : Holds file offset buf) (hk : k < buf.length) : offset + k < file.length := by
  have := h k hk
  rw [getElem?_eq_getElem hk] at this
  exact (List.getElem?_eq_some_iff.mp this).1

theorem Holds.eq (h : Holds file 0 buf) (hlen : file.length = buf.length) : file = buf := by
  apply ext_getElem?
  intro k
  by_cases hk : k < buf.length
  · simpa using h k hk
  · rw [getElem?_eq_none (by omega), getElem?_eq_none (by omega)]

theorem writeAt_inside (file buf : Bytes) (at' : Nat) (hk : k < buf.length) :
    (writeAt file at' buf)[at' + k]? = buf[k]? := by
  have hlen : (file.take at' ++ List.replicate (at' - file.length) 0).length = at' := by
    simp only [length_append, length_take, length_replicate]
    omega
  rw [writeAt, append_assoc, getElem?_append_right (by omega), hlen,
    show at' + k - at' = k by omega, getElem?_append_left hk]

theorem writeAt_outside (file buf : Bytes) (at' : Nat) (hk : k < file.length)
    (hout : k < at' ∨ at' + buf.length ≤ k) : (writeAt file at' buf)[k]? = file[k]? := by
  have hlen : (file.take at' ++ List.replicate (at' - file.length) 0).length = at' := by
    simp only [length_append, length_take, length_replicate]
    omega
  rw [writeAt, append_assoc]
  rcases hout with h | h
  · rw [getElem?_append_left (by omega), getElem?_append_left (by simp; omega), getElem?_take_of_lt h]
  · rw [getElem?_append_right (by omega), hlen, getElem?_append_right (by omega), getElem?_drop,
      show at' + buf.length + (k - at' - buf.length) = k by omega]

theorem Holds.writeAt {x : Bytes} {at' : Nat} (h : Holds file offset x)
    (hout : offset + x.length ≤ at' ∨ at' + buf.length ≤ offset) :
    Holds (writeAt file at' buf) offset x := by
  intro k hk
  rw [writeAt_outside file buf at' (h.lt_length hk) (by omega), h k hk]

theorem Holds.emit {x : Bytes} {at' : Nat} (h : Holds file offset x) (sink : Sink)
    (hout : offset + x.length ≤ at' ∨ at' + buf.length ≤ offset) :
    Holds (sink.emit file at' buf) offset x := by
  cases sink with
  | ok => exact h.writeAt hout
  | torn n =>
    refine h.writeAt ?_
    simp only [length_take]
    omega

theorem holds_writeAt (file buf : Bytes) (at' : Nat) : Holds (writeAt file at' buf) at' buf :=
  fun _ hk => writeAt_inside file buf at' hk

@[simp] theorem setLen_length (file : Bytes) (len : Nat) : (setLen file len).length = len := by
  simp only [setLen, List.length_append, List.length_take, List.length_replicate]
  omega

theorem Holds.setLen {x : Bytes} {len : Nat} (h : Holds file offset x) (hle : offset + x.length ≤ len) :
    Holds (setLen file len) offset x := by
  intro k hk
  have hlt := h.lt_length hk
  rw [Wal.setLen, getElem?_append_left (by simp only [length_take]; omega),
    getElem?_take_of_lt (by omega), h k hk]

variable {Good : Nat → Prop}

/-- **The position moves along completed spans.** What holds at the position and passes
from the start of every completed span to its end holds where it stops; a span it takes
out of the map ends there or before. -/
theorem advance_spec (n : Nat) {p : Nat} {c : List (Nat × Nat)} (hgood : Good p)
    (hstep : ∀ q ∈ c, Good q.1 → Good q.2) (hlt : ∀ q ∈ c, q.1 < q.2)
    (huniq : ∀ q ∈ c, ∀ q' ∈ c, q.1 = q'.1 → q = q') :
    Good (advance n p c).1 ∧ p ≤ (advance n p c).1 ∧ (∀ q ∈ (advance n p c).2, q ∈ c) ∧
      ∀ q ∈ c, q ∈ (advance n p c).2 ∨ q.2 ≤ (advance n p c).1 := by
  induction n generalizing p c with
  | zero => exact ⟨hgood, .refl, fun _ h => h, fun _ h => .inl h⟩
  | succ n ih =>
    simp only [advance]
    cases hfind : c.find? (·.1 == p) with
    | none => exact ⟨hgood, .refl, fun _ h => h, fun _ h => .inl h⟩
    | some q =>
      have hq := mem_of_find?_eq_some hfind
      have hqp : q.1 = p := by simpa using find?_some hfind
      obtain ⟨hg, hle, hsub, hcov⟩ := ih (p := q.2) (c := c.filter (·.1 != p))
        (hstep q hq (hqp ▸ hgood)) (fun x hx => hstep x (mem_of_mem_filter hx))
        (fun x hx => hlt x (mem_of_mem_filter hx))
        (fun x hx y hy => huniq x (mem_of_mem_filter hx) y (mem_of_mem_filter hy))
      have hpq := hlt q hq
      refine ⟨hg, Nat.le_trans (by omega) hle, fun x hx => mem_of_mem_filter (hsub x hx), fun x hx => ?_⟩
      by_cases hxp : x.1 = p
      · obtain rfl := huniq x hx q hq (hxp.trans hqp.symm)
        exact .inr hle
      · exact hcov x (mem_filter.mpr ⟨hx, by simpa using hxp⟩)

theorem commitPwrite_spec {w : Writer} {ticket len : Nat} (hlen : 0 < len)
    (hgood : Good w.position) (hpos : w.position ≤ ticket) (hnew : Good ticket → Good (ticket + len))
    (hstep : ∀ q ∈ w.completed, Good q.1 → Good q.2) (hlt : ∀ q ∈ w.completed, q.1 < q.2)
    (huniq : ∀ q ∈ w.completed, ∀ q' ∈ w.completed, q.1 = q'.1 → q = q')
    (hfresh : ∀ q ∈ w.completed, q.1 ≠ ticket) :
    ∃ position completed, w.commitPwrite ticket len =
    { w with position := position, completed := completed } ∧
      Good position ∧ w.position ≤ position ∧
      (∀ q ∈ completed, q ∈ w.completed ∨ q = (ticket, ticket + len)) ∧
      (∀ q, q ∈ w.completed ∨ q = (ticket, ticket + len) → q ∈ completed ∨ q.2 ≤ position) := by
  rcases Nat.lt_or_eq_of_le hpos with hbeyond | rfl
  · -- past a gap: the span joins the completed ones
    have hfilter : w.completed.filter (·.1 != ticket) = w.completed :=
      filter_eq_self.mpr fun q hq => by simpa using hfresh q hq
    have hmem {q : Nat × Nat} : q ∈ w.completed ++ [(ticket, ticket + len)] ↔
        q ∈ w.completed ∨ q = (ticket, ticket + len) := by simp
    obtain ⟨hg, hle, hsub, hcov⟩ := advance_spec (w.completed ++ [(ticket, ticket + len)]).length
      (c := w.completed ++ [(ticket, ticket + len)]) hgood
      (fun q hq => by rcases hmem.mp hq with h | rfl; exacts [hstep q h, hnew])
      (fun q hq => by rcases hmem.mp hq with h | rfl; exacts [hlt q h, by simpa using hlen])
      (fun q hq q' hq' h => by
        rcases hmem.mp hq with hq | rfl <;> rcases hmem.mp hq' with hq' | rfl
        · exact huniq q hq q' hq' h
        · exact absurd h (hfresh q hq)
        · exact absurd h.symm (hfresh q' hq')
        · rfl)
    refine ⟨_, _, ?_, hg, hle, fun q hq => hmem.mp (hsub q hq), fun q hq => hcov q (hmem.mpr hq)⟩
    simp [commitPwrite, if_neg (Nat.ne_of_gt hlen), if_neg (Nat.not_le_of_lt hbeyond), hfilter]
  · obtain ⟨hg, hle, hsub, hcov⟩ := advance_spec w.completed.length (hnew hgood) hstep hlt huniq
    refine ⟨_, _, ?_, hg, by omega, fun q hq => .inl (hsub q hq), fun q hq => ?_⟩
    · simp only [commitPwrite, if_neg (Nat.ne_of_gt hlen), Nat.le_refl, if_true]
      rw [Nat.max_eq_right (by omega)]
    · rcases hq with h | rfl
      · exact hcov q h
      · exact .inr hle

/-! ### Spans -/

/-- The ticket of a span that is written or may still be. -/
def Span.live : Span → Option PwriteJob
  | .reserved j | .written j | .finished j => some j
  | .absent | .torn _ => none

abbrev View := List Bytes × Span

def Commit.view (c : Commit) : View := (c.records, c.span)

/-- Up to `p` the file is a log with every reported span in it. -/
def Reached (crc : Crc) (file : Bytes) (vs : List View) (p : Nat) : Prop :=
  ∃ log, legibleAt crc 0 log = true ∧ (frameAt crc 0 log).length = p ∧ Holds file 0 (frameAt crc 0 log) ∧
    ∀ v ∈ vs, ∀ j, v.2 = .finished j → j.stop ≤ p → v.1 <:+: log

def PwriteJob.Apart (j l : PwriteJob) : Prop := j.stop ≤ l.ticket ∨ l.stop ≤ j.ticket

theorem PwriteJob.Apart.symm (h : j.Apart l) : l.Apart j := Or.symm h

/-- A span is the frame of its commit's records, below the frontier, and once written it
is in the file. -/
structure Placed (crc : Crc) (w : Writer) (v : View) : Prop where
  framed : ∀ j, v.2.live = some j →
    v.1 ≠ [] ∧ j.buf = frameAt crc j.ticket v.1 ∧ legibleAt crc j.ticket v.1 = true ∧
    j.stop ≤ w.reservedTo
  intact : ∀ j, v.2 = .written j ∨ v.2 = .finished j → Holds w.file j.ticket j.buf

/-- Every commit has its own part of the file. -/
structure Spaced (crc : Crc) (w : Writer) (vs : List View) : Prop where
  placed : ∀ v ∈ vs, Placed crc w v
  apart : ∀ (i k : Nat) (u v : View) (j l : PwriteJob), i ≠ k → vs[i]? = some u → vs[k]? = some v →
    u.2.live = some j → v.2.live = some l → j.Apart l

/-- A place for the position: behind a log, below the frontier and below the spans that
are not reported. -/
structure Halt (crc : Crc) (w : Writer) (vs : List View) (p : Nat) : Prop where
  reached : Reached crc w.file vs p
  le : p ≤ w.reservedTo
  above : ∀ v ∈ vs, ∀ j, v.2 = .reserved j ∨ v.2 = .written j → p ≤ j.ticket

structure SpanInv (crc : Crc) (w : Writer) (vs : List View) : Prop extends Spaced crc w vs where
  halt : Halt crc w vs w.position
  covered : ∀ v ∈ vs, ∀ j, v.2 = .finished j → j.stop ≤ w.position ∨ (j.ticket, j.stop) ∈ w.completed
  listed : ∀ q ∈ w.completed, ∃ v ∈ vs, ∃ j, v.2 = .finished j ∧ q = (j.ticket, j.stop)

section Spans
variable {crc : Crc} {w w' : Writer} {vs vs' : List View}

theorem SpanInv.opened (crc : Crc) (stagedMax : Nat) : SpanInv crc (.create stagedMax) [] where
  placed := by simp
  apart := by simp
  halt := ⟨⟨[], rfl, rfl, Holds.nil _ _, by simp⟩, .refl, by simp⟩
  covered := by simp
  listed := by simp [create]

theorem Span.live_finished (h : v.2 = .finished j) : v.2.live = some j := by
  simp [h, live]

theorem Span.live_open (h : v.2 = .reserved j ∨ v.2 = .written j) : v.2.live = some j := by
  rcases h with h | h <;> simp [h, live]

theorem Span.live_written (h : v.2 = .written j ∨ v.2 = .finished j) : v.2.live = some j := by
  rcases h with h | h <;> simp [h, live]

/-- A commit without a live span owes nothing. -/
theorem Placed.of_dead (h : v.2.live = none) : Placed crc w v where
  framed j hj := by simp [h] at hj
  intact j hj := by simp [Span.live_written hj] at h

section
variable (h : Spaced crc w vs)
include h

theorem Spaced.pos (hv : v ∈ vs) (hj : v.2.live = some j) : j.ticket < j.stop := by
  obtain ⟨hne, hbuf, _, _⟩ := (h.placed v hv).framed j hj
  have := frameAt_pos crc j.ticket hne
  rw [PwriteJob.stop, hbuf]
  omega

/-- Two live spans with one ticket are one. -/
theorem Spaced.index_eq {u : View} (hi : vs[i]? = some u)
    (hk : vs[k]? = some v) (hj : u.2.live = some j) (hl : v.2.live = some l)
    (heq : j.ticket = l.ticket) : i = k := by
  apply Classical.byContradiction
  intro hne
  have hposj := h.pos (mem_of_getElem? hi) hj
  have hposl := h.pos (mem_of_getElem? hk) hl
  rcases h.apart i k u v j l hne hi hk hj hl with h | h <;> omega

theorem Spaced.ticket_inj {u : View} (hu : u ∈ vs) (hv : v ∈ vs)
    (hj : u.2.live = some j) (hl : v.2.live = some l) (heq : j.ticket = l.ticket) : u = v ∧ j = l := by
  obtain ⟨i, hi⟩ := mem_iff_getElem?.mp hu
  obtain ⟨k, hk⟩ := mem_iff_getElem?.mp hv
  obtain rfl := h.index_eq hi hk hj hl heq
  rw [hi] at hk
  cases hk
  exact ⟨rfl, Option.some.inj (hj.symm.trans hl)⟩

theorem Spaced.move (hx : Placed crc w' x) (hothers : ∀ k u, k ≠ i → vs[k]? = some u → Placed crc w' u)
    (hapart : ∀ k u j l, k ≠ i → vs[k]? = some u → u.2.live = some l →
      x.2.live = some j → j.Apart l) : Spaced crc w' (vs.set i x) := by
  constructor
  · intro u hu
    rcases Runs.mem_set_cases hu with rfl | ⟨k, hne, hk⟩
    · exact hx
    · exact hothers k u hne hk
  · intro a b u y l m hab hu hy hl hm
    rcases Runs.getElem?_set_cases hu with ⟨ha, hux⟩ | ⟨ha, hua⟩ <;>
      rcases Runs.getElem?_set_cases hy with ⟨hb, hyx⟩ | ⟨hb, hyb⟩
    · exact absurd (ha.trans hb.symm) hab
    · exact hapart b y l m hb hyb hm (hux ▸ hl)
    · exact (hapart a u m l ha hua hl (hyx ▸ hm)).symm
    · exact h.apart a b u y l m hab hua hyb hl hm

end

/-- From the start of a finished span to its end. -/
theorem Reached.extend {u : View} (h : Reached crc file vs l.ticket)
    (hk : vs[k]? = some u) (hbuf : l.buf = frameAt crc l.ticket u.1)
    (hlegible : legibleAt crc l.ticket u.1 = true)
    (hhold : Holds file l.ticket l.buf) (hothers : ∀ i v j, i ≠ k → vs[i]? = some v → v.2 = .finished j →
      j.Apart l ∧ j.ticket < j.stop) : Reached crc file vs l.stop := by
  obtain ⟨log, hleg, hlen, hlog, hin⟩ := h
  have hframe : frameAt crc 0 (log ++ u.1) = frameAt crc 0 log ++ l.buf := by
    rw [frameAt_append, Nat.zero_add, hlen, hbuf]
  refine ⟨log ++ u.1, ?_, ?_, ?_, fun v hv j hj hle => ?_⟩
  · rw [legibleAt_append, hleg, Nat.zero_add, hlen, hlegible]
    rfl
  · rw [hframe, length_append, hlen, PwriteJob.stop]
  · rw [hframe]
    exact hlog.append (by rwa [Nat.zero_add, hlen])
  · obtain ⟨i, hi⟩ := mem_iff_getElem?.mp hv
    by_cases hik : i = k
    · subst hik
      rw [hk] at hi
      cases hi
      exact (suffix_append log u.1).isInfix
    · obtain ⟨h | h, hpos⟩ := hothers i v j hik hi hj
      · exact (hin v hv j hj h).trans (prefix_append log u.1).isInfix
      · omega

/-- The log up to a position, once a span past it moved and the file changed past it. -/
theorem Reached.set {file' : Bytes} {p : Nat} (h : Reached crc file vs p)
    (hfile : ∀ buf, Holds file 0 buf → buf.length ≤ p → Holds file' 0 buf)
    (hx : ∀ j, x.2 = .finished j → p < j.stop) : Reached crc file' (vs.set i x) p := by
  obtain ⟨log, hleg, hlen, hhold, hin⟩ := h
  refine ⟨log, hleg, hlen, hfile _ hhold (Nat.le_of_eq hlen), fun u hu j hj hle => ?_⟩
  rcases Runs.mem_set_cases hu with rfl | ⟨k, _, hk⟩
  · have := hx j hj
    omega
  · exact hin u (mem_of_getElem? hk) j hj hle

theorem Halt.set (h : Halt crc w vs w.position) (w' : Writer)
    (hfile : ∀ buf, Holds w.file 0 buf → buf.length ≤ w.position → Holds w'.file 0 buf)
    (hle : w.position ≤ w'.reservedTo) (hx : ∀ j, x.2 = .finished j → w.position < j.stop)
    (hopen : ∀ j, x.2 = .reserved j ∨ x.2 = .written j → w.position ≤ j.ticket) :
    Halt crc w' (vs.set i x) w.position :=
  ⟨h.reached.set hfile hx, hle, Runs.forall_set h.above hopen⟩

/-- **The position may pass a finished span.** -/
theorem Spaced.halt_step (h : Spaced crc w vs) (hv : v ∈ vs) (hj : v.2 = .finished j)
    (hhalt : Halt crc w vs j.ticket) : Halt crc w vs j.stop := by
  have hlive := Span.live_finished hj
  obtain ⟨_, hbuf, hleg, hle⟩ := (h.placed v hv).framed j hlive
  obtain ⟨i, hi⟩ := mem_iff_getElem?.mp hv
  refine ⟨hhalt.reached.extend hi hbuf hleg ((h.placed v hv).intact j (.inr hj)) ?_, hle, ?_⟩
  · intro k u l hne hk hl
    have hlive' := Span.live_finished hl
    exact ⟨h.apart k i u v l j hne hk hi hlive' hlive, h.pos (mem_of_getElem? hk) hlive'⟩
  · intro u hu l hl
    obtain ⟨k, hk⟩ := mem_iff_getElem?.mp hu
    have hki : k ≠ i := by
      rintro rfl
      rw [hi] at hk
      cases hk
      simp [hj] at hl
    have hlive' := Span.live_open hl
    have hpos := h.pos hu hlive'
    have habove := hhalt.above u hu l hl
    rcases h.apart k i u v l j hki hk hi hlive' hlive with h | h <;> omega

/-! ### What becomes of a span -/

section
variable (h : SpanInv crc w vs)
include h

theorem SpanInv.quiet {frame : Bytes}
    (hsame : ∀ (i : Nat) (v : View), v.2.live ≠ none → (vs'[i]? = some v ↔ vs[i]? = some v)) :
    SpanInv crc { w with frame := frame, blockOffset := offset } vs' := by
  have hmem {v : View} {j : PwriteJob} (hl : v.2.live = some j) : v ∈ vs' ↔ v ∈ vs := by
    simp only [mem_iff_getElem?]
    exact exists_congr fun i => hsame i v (by simp [hl])
  refine ⟨⟨fun v hv => ?_, fun i k u v j l hik hu hv hj hl => ?_⟩,
    ⟨?_, h.halt.le, fun v hv j hj => ?_⟩, fun v hv j hj => ?_,
    fun q hq => ?_⟩
  · by_cases hl : v.2.live = none
    · exact .of_dead hl
    · obtain ⟨j, hj⟩ := Option.ne_none_iff_exists'.mp hl
      exact { h.placed v ((hmem hj).mp hv) with }
  · exact h.apart i k u v j l hik ((hsame i u (by simp [hj])).mp hu)
      ((hsame k v (by simp [hl])).mp hv) hj hl
  · obtain ⟨log, hleg, hlen, hhold, hin⟩ := h.halt.reached
    exact ⟨log, hleg, hlen, hhold, fun v hv j hj => hin v ((hmem (Span.live_finished hj)).mp hv) j hj⟩
  · exact h.halt.above v ((hmem (Span.live_open hj)).mp hv) j hj
  · exact h.covered v ((hmem (Span.live_finished hj)).mp hv) j hj
  · obtain ⟨v, hv, j, hj, rfl⟩ := h.listed q hq
    exact ⟨v, (hmem (Span.live_finished hj)).mpr hv, j, hj, rfl⟩

theorem SpanInv.quiet_set {frame : Bytes} (hi : vs[i]? = some v) (hv : v.2.live = none)
    (hx : x.2.live = none) :
    SpanInv crc { w with frame := frame, blockOffset := offset } (vs.set i x) := by
  refine h.quiet fun k u hu => ⟨fun hk => ?_, Runs.getElem?_set_of_ne hi ?_⟩
  swap
  · rintro rfl
    exact hu hv
  rcases Runs.getElem?_set_cases hk with ⟨_, rfl⟩ | ⟨_, hk⟩
  · exact absurd hx hu
  · exact hk

/-- The completed spans are those of commits that do not move. -/
theorem SpanInv.listed_set (hi : vs[i]? = some v) (hv : ∀ j, v.2 ≠ .finished j) :
    ∀ q ∈ w.completed, ∃ u ∈ vs.set i x, ∃ j, u.2 = .finished j ∧ q = (j.ticket, j.stop) := by
  intro q hq
  obtain ⟨u, hu, j, hj, rfl⟩ := h.listed q hq
  refine ⟨u, Runs.mem_set_of_ne hi ?_ hu, j, hj, rfl⟩
  rintro rfl
  exact hv j hj

theorem SpanInv.reserve {frame : Bytes} (hi : vs[i]? = some v)
    (hv : v.2.live = none) (hticket : j.ticket = w.reservedTo) (hne : v.1 ≠ [])
    (hbuf : j.buf = frameAt crc j.ticket v.1) (hleg : legibleAt crc j.ticket v.1 = true) :
    SpanInv crc { w with reservedTo := j.stop, blockOffset := offset, frame := frame }
    (vs.set i (v.1, .reserved j)) := by
  have hstop : w.reservedTo ≤ j.stop := by
    rw [PwriteJob.stop, hticket]
    omega
  refine ⟨h.move ⟨?_, by simp⟩ ?_ ?_, h.halt.set _ (fun _ hb _ => hb) (Nat.le_trans h.halt.le hstop)
    (by simp) ?_,
    Runs.forall_set h.covered (by simp), h.listed_set hi fun l hl => ?_⟩
  · intro l hl
    obtain rfl : j = l := by simpa [Span.live] using hl
    exact ⟨hne, hbuf, hleg, .refl⟩
  · intro k u _ hk
    obtain ⟨h1, h2⟩ := h.placed u (mem_of_getElem? hk)
    refine ⟨fun l hl => ?_, h2⟩
    obtain ⟨g1, g2, g3, g4⟩ := h1 l hl
    exact ⟨g1, g2, g3, Nat.le_trans g4 hstop⟩
  · intro k u m l _ hk hl hm
    obtain rfl : j = m := by simpa [Span.live] using hm
    exact .inr (hticket ▸ ((h.placed u (mem_of_getElem? hk)).framed l hl).2.2.2)
  · intro l hl
    obtain rfl : j = l := by simpa using hl
    rw [hticket]
    exact h.halt.le
  · rw [Span.live_finished hl] at hv
    cases hv

end

section Emit
variable (h : SpanInv crc w vs) (hi : vs[i]? = some v) (hj : v.2 = .reserved j)
include h hi hj

/-- The other spans while one is being written. -/
theorem SpanInv.emit_others (sink : Sink) (k : Nat) (u : View) (hne : k ≠ i) (hk : vs[k]? = some u) :
    Placed crc { w with file := sink.emit w.file j.ticket j.buf } u := by
  obtain ⟨h1, h2⟩ := h.placed u (mem_of_getElem? hk)
  refine ⟨h1, fun l hl => (h2 l hl).emit sink ?_⟩
  exact h.apart k i u v l j hne hk hi (Span.live_written hl) (Span.live_open (.inl hj))

theorem SpanInv.emit_halt (sink : Sink) (hx : ∀ l, x.2 ≠ .finished l)
    (hopen : ∀ l, x.2 = .reserved l ∨ x.2 = .written l → w.position ≤ l.ticket) :
    Halt crc { w with file := sink.emit w.file j.ticket j.buf } (vs.set i x) w.position := by
  have habove := h.halt.above v (mem_of_getElem? hi) j (.inl hj)
  refine h.halt.set { w with file := sink.emit w.file j.ticket j.buf } ?_ h.halt.le
    (fun l hl => absurd hl (hx l)) hopen
  intro buf hb hle
  exact hb.emit sink (.inl (by omega))

theorem SpanInv.write : SpanInv crc { w with file := Sink.ok.emit w.file j.ticket j.buf }
    (vs.set i (v.1, .written j)) := by
  have hlive := Span.live_open (.inl hj)
  have hv := h.placed v (mem_of_getElem? hi)
  refine ⟨h.move ⟨fun l hl => ?_, fun l hl => ?_⟩ (h.emit_others hi hj .ok) ?_,
    h.emit_halt hi hj .ok (by simp) ?_, Runs.forall_set h.covered (by simp),
    h.listed_set hi (by simp [hj])⟩
  · obtain rfl : j = l := by simpa [Span.live] using hl
    exact hv.framed j hlive
  · obtain rfl : j = l := by simpa using hl
    exact holds_writeAt w.file j.buf j.ticket
  · intro k u m l hne hk hl hm
    obtain rfl : j = m := by simpa [Span.live] using hm
    exact h.apart i k v u j l hne.symm hi hk hlive hl
  · intro l hl
    obtain rfl : j = l := by simpa using hl
    exact h.halt.above v (mem_of_getElem? hi) j (.inl hj)

theorem SpanInv.tear (n : Nat) :
    SpanInv crc { w with file := (Sink.torn n).emit w.file j.ticket j.buf } (vs.set i (v.1, .torn j)) :=
  ⟨h.move (.of_dead rfl) (h.emit_others hi hj (.torn n))
    (fun _ _ _ _ _ _ _ hm => by simp [Span.live] at hm),
    h.emit_halt hi hj (.torn n) (by simp) (by simp), Runs.forall_set h.covered (by simp),
    h.listed_set hi (by simp [hj])⟩

end Emit

section
variable (h : SpanInv crc w vs)
include h

theorem SpanInv.finish (hi : vs[i]? = some v) (hj : v.2 = .written j) :
    SpanInv crc (w.commitPwrite j.ticket j.buf.length) (vs.set i (v.1, .finished j)) := by
  have hmem := mem_of_getElem? hi
  have hv := h.placed v hmem
  have hlive := Span.live_open (.inr hj)
  have hpos : j.ticket < j.ticket + j.buf.length := h.pos hmem hlive
  have habove := h.halt.above v hmem j (.inr hj)
  have hself : (v.1, Span.finished j) ∈ vs.set i (v.1, .finished j) :=
    mem_set (List.getElem?_eq_some_iff.mp hi).1 _
  have hspaced : Spaced crc w (vs.set i (v.1, .finished j)) := by
    refine h.move ⟨fun l hl => ?_, fun l hl => ?_⟩ (fun k u _ hk => h.placed u (mem_of_getElem? hk)) ?_
    · obtain rfl : j = l := by simpa [Span.live] using hl
      exact hv.framed j hlive
    · obtain rfl : j = l := by simpa using hl
      exact hv.intact j (.inl hj)
    · intro k u m l hne hk hl hm
      obtain rfl : j = m := by simpa [Span.live] using hm
      exact h.apart i k v u j l hne.symm hi hk hlive hl
  have hlisted := h.listed_set (x := (v.1, .finished j)) hi (by simp [hj])
  have hfresh : ∀ q ∈ w.completed, q.1 ≠ j.ticket := by
    intro q hq heq
    obtain ⟨u, hu, l, hl, rfl⟩ := h.listed q hq
    obtain ⟨rfl, _⟩ := h.ticket_inj hu hmem (Span.live_finished hl) hlive heq
    simp [hj] at hl
  obtain ⟨position, completed, hw, hhalt, hle, hsub, hcov⟩ :=
    commitPwrite_spec (w := w) (by omega : 0 < j.buf.length)
      (h.halt.set (x := (v.1, .finished j)) _ (fun _ hb _ => hb) h.halt.le
        (fun l hl => by
          obtain rfl : j = l := by simpa using hl
          exact Nat.lt_of_le_of_lt habove hpos)
        (by simp))
      habove (hspaced.halt_step hself rfl)
      (fun q hq hg => by
        obtain ⟨u, hu, l, hl, rfl⟩ := hlisted q hq
        exact hspaced.halt_step hu hl hg)
      (fun q hq => by
        obtain ⟨u, hu, l, hl, rfl⟩ := h.listed q hq
        exact h.pos hu (Span.live_finished hl))
      (fun q hq q' hq' heq => by
        obtain ⟨u, hu, l, hl, rfl⟩ := h.listed q hq
        obtain ⟨u', hu', l', hl', rfl⟩ := h.listed q' hq'
        obtain ⟨_, rfl⟩ := h.ticket_inj hu hu' (Span.live_finished hl) (Span.live_finished hl') heq
        rfl)
      hfresh
  rw [hw]
  refine ⟨⟨fun u hu => ⟨(hspaced.placed u hu).framed, (hspaced.placed u hu).intact⟩, hspaced.apart⟩,
    { hhalt with }, ?_, ?_⟩
  · refine Runs.forall_set (fun u hu l hl => ?_) (fun l hl => ?_)
    · rcases h.covered u hu l hl with hpast | hin
      · exact .inl (Nat.le_trans hpast hle)
      · exact (hcov _ (.inl hin)).symm
    · obtain rfl : j = l := by simpa using hl
      exact (hcov _ (.inr rfl)).symm
  · intro q hq
    rcases hsub q hq with hq | rfl
    · exact hlisted q hq
    · exact ⟨_, hself, j, rfl, rfl⟩

/-- The log is cut where it is written, with no span open and none past a gap. -/
theorem SpanInv.cut (hcomp : w.completed = [])
    (hopen : ∀ v ∈ vs, ∀ j, ¬ (v.2 = .reserved j ∨ v.2 = .written j)) :
    SpanInv crc (w.discardUncommitted w.position) vs := by
  have hpast {v : View} (hv : v ∈ vs) {j : PwriteJob} (hj : v.2.live = some j) :
      v.2 = .finished j ∧ j.stop ≤ w.position := by
    have hfin : v.2 = .finished j := by
      have := hopen v hv j
      cases hspan : v.2 <;> simp_all [Span.live]
    exact ⟨hfin, by simpa [hcomp] using h.covered v hv j hfin⟩
  refine ⟨⟨fun v hv => ⟨fun j hj => ?_, fun j hj => ?_⟩, h.apart⟩, ⟨?_, .refl, ?_⟩, ?_, ?_⟩
  · obtain ⟨h1, h2, h3, _⟩ := (h.placed v hv).framed j hj
    exact ⟨h1, h2, h3, (hpast hv hj).2⟩
  · exact ((h.placed v hv).intact j hj).setLen (hpast hv (Span.live_written hj)).2
  · obtain ⟨log, hleg, hlen, hhold, hin⟩ := h.halt.reached
    exact ⟨log, hleg, hlen, hhold.setLen (by omega), hin⟩
  · exact fun v hv j hj => absurd hj (hopen v hv j)
  · exact fun v hv j hj => .inl (hpast hv (Span.live_finished hj)).2
  · simp [discardUncommitted, hcomp]

/-- **What recovery finds.** If the file ends at the written position, recovery returns the
records of every reported span. -/
theorem SpanInv.recover (hlen : w.file.length = w.position) :
    ∃ log, Wal.recover crc w.file = .ok log ∧ ∀ v ∈ vs, ∀ j, v.2 = .finished j → v.1 <:+: log := by
  obtain ⟨log, hleg, hlog, hhold, hin⟩ := h.halt.reached
  have hfile : w.file = frameAt crc 0 log := hhold.eq (by omega)
  refine ⟨log, ?_, fun v hv j hj => hin v hv j hj ?_⟩
  · rw [hfile]
    exact recover_frames crc log hleg
  · -- a span past the position would be past the end of the file
    have hpos := h.pos hv (Span.live_finished hj)
    have hlt := ((h.placed v hv).intact j (.inr hj)).lt_length (k := j.buf.length - 1)
      (by rw [PwriteJob.stop] at hpos; omega)
    rw [PwriteJob.stop] at hpos ⊢
    omega

end

end Spans

end PedraDb.Wal
