import PedraDb.Wal.Staging
import Mathlib.Order.Bounds.Basic

/-! The written position.

Spans are reserved one behind the other and reported as written in any order, some more
than once and some never. The position is the end of what has been reported without a gap
(`position_contiguous`). -/
namespace PedraDb.Wal
open List Writer

/-- A writer, with the spans it gave out and those that were reported, from start to stop. -/
structure Spanned where
  wal : Writer
  granted : List (Nat × Nat)
  committed : List (Nat × Nat)
  deriving DecidableEq

inductive SpanCall where
  | reservePending (len : Nat)
  | commitPwrite (ticket len : Nat)
  deriving DecidableEq

namespace Spanned
variable {s s' : Spanned} {start p : Nat} {g : Nat × Nat}

def grant (s : Spanned) (len : Nat) : Spanned :=
  let (ticket, wal) := s.wal.reservePending len
  { s with wal := wal, granted := s.granted ++ [(ticket, ticket + len)] }

def report (s : Spanned) (g : Nat × Nat) : Spanned := { s with committed := s.committed ++ [g] }

/-- Only spans that were given out are reported. -/
def step (s : Spanned) : SpanCall → Option Spanned
  | .reservePending len => some (s.grant len)
  | .commitPwrite ticket len =>
    if (ticket, ticket + len) ∈ s.granted then
      some { s.report (ticket, ticket + len) with wal := s.wal.commitPwrite ticket len }
    else none

/-- The byte is in a reported span. -/
def covers (s : Spanned) (b : Nat) : Prop := ∃ g ∈ s.committed, g.1 ≤ b ∧ b < g.2

/-- The spans lie side by side from the start to the frontier. -/
structure Tiled (start : Nat) (s : Spanned) : Prop where
  bounds : ∀ g ∈ s.granted, start ≤ g.1 ∧ g.1 ≤ g.2 ∧ g.2 ≤ s.wal.reservedTo
  apart : ∀ g ∈ s.granted, ∀ k ∈ s.granted, g = k ∨ g.2 ≤ k.1 ∨ k.2 ≤ g.1
  cover : ∀ b, start ≤ b → b < s.wal.reservedTo → ∃ g ∈ s.granted, g.1 ≤ b ∧ b < g.2
  given : ∀ g ∈ s.committed, g ∈ s.granted

/-- Everything is reported up to here, and no span goes across. -/
structure Even (start : Nat) (s : Spanned) (p : Nat) : Prop where
  bounds : start ≤ p ∧ p ≤ s.wal.reservedTo
  reported : ∀ b, start ≤ b → b < p → s.covers b
  cuts : ∀ g ∈ s.granted, g.2 ≤ p ∨ p ≤ g.1

/-- The position is such a place, and past it the map has the spans that were reported. -/
structure Frontier (start : Nat) (s : Spanned) : Prop extends Tiled start s where
  even : Even start s s.wal.position
  waiting : ∀ q ∈ s.wal.completed, s.wal.position < q.1 ∧ q.1 < q.2 ∧ q ∈ s.committed
  kept : ∀ g ∈ s.committed, g.1 < g.2 → g.2 ≤ s.wal.position ∨ g ∈ s.wal.completed

theorem Even.pass (ht : Tiled start s) (hg : g ∈ s.committed) (h : Even start s g.1) :
    Even start s g.2 := by
  have hgiven := ht.given g hg
  have hbounds := ht.bounds g hgiven
  refine ⟨⟨le_trans hbounds.1 hbounds.2.1, hbounds.2.2⟩, fun b hb hlt => ?_, fun k hk => ?_⟩
  · by_cases hbefore : b < g.1
    · exact h.reported b hb hbefore
    · exact ⟨g, hg, not_lt.mp hbefore, hlt⟩
  · rcases ht.apart g hgiven k hk with rfl | hk | hk
    · exact .inl le_rfl
    · exact .inr hk
    · exact .inl (le_trans hk hbounds.2.1)

theorem Frontier.grant (h : Frontier start s) (len : Nat) : Frontier start (s.grant len) := by
  have hnew {k : Nat × Nat} (hk : k ∈ (s.grant len).granted) :
      k ∈ s.granted ∨ k = (s.wal.reservedTo, s.wal.reservedTo + len) := by
    simpa [Spanned.grant, reservePending] using hk
  have hpos := h.even.bounds
  refine { bounds := ?_, apart := ?_, cover := ?_, given := fun g hg => mem_append_left _ (h.given g hg),
           even := ⟨⟨hpos.1, le_trans hpos.2 (Nat.le_add_right _ _)⟩, h.even.reported, ?_⟩,
           waiting := h.waiting, kept := h.kept }
  · intro k hk
    show start ≤ k.1 ∧ k.1 ≤ k.2 ∧ k.2 ≤ s.wal.reservedTo + len
    rcases hnew hk with hk | rfl
    · have := h.bounds k hk
      omega
    · exact ⟨by omega, Nat.le_add_right _ _, le_rfl⟩
  · intro k hk l hl
    rcases hnew hk with hk | rfl <;> rcases hnew hl with hl | rfl
    · exact h.apart k hk l hl
    · exact .inr (.inl (h.bounds k hk).2.2)
    · exact .inr (.inr (h.bounds l hl).2.2)
    · exact .inl rfl
  · intro b hb hlt
    by_cases hold : b < s.wal.reservedTo
    · obtain ⟨k, hk, hin⟩ := h.cover b hb hold
      exact ⟨k, mem_append_left _ hk, hin⟩
    · exact ⟨_, mem_append_right _ mem_cons_self, not_lt.mp hold, hlt⟩
  · intro k hk
    rcases hnew hk with hk | rfl
    · exact h.even.cuts k hk
    · exact .inr hpos.2

/-- From a place where everything is reported the position moves along the map to one
where no span starts. -/
theorem Even.advance (ht : Tiled start s) (he : Even start s p) {c : List (Nat × Nat)}
    (hp : s.wal.position ≤ p)
    (hc : ∀ q ∈ c, p ≤ q.1 ∧ q.1 < q.2 ∧ q ∈ s.committed)
    (hkept : ∀ g ∈ s.committed, g.1 < g.2 → g.2 ≤ p ∨ g ∈ c)
    {w : Writer} (hw : w = { s.wal with
      position := (advance c.length p c).1
      completed := (advance c.length p c).2 }) :
    Frontier start { s with wal := w } ∧ s.wal.position ≤ w.position := by
  have hlt : ∀ q ∈ c, q.1 < q.2 := fun q hq => (hc q hq).2.1
  have hapart : ∀ q ∈ c, ∀ q' ∈ c, q = q' ∨ q.2 ≤ q'.1 ∨ q'.2 ≤ q.1 := fun q hq q' hq' =>
    ht.apart q (ht.given q (hc q hq).2.2) q' (ht.given q' (hc q' hq').2.2)
  obtain ⟨heven, hpos, hsub, hcov⟩ :=
    advance_spec c.length he (fun q hq => Even.pass ht (hc q hq).2.2) hlt
    fun q hq q' hq' heq => (hapart q hq q' hq').resolve_right
    (by have := hlt q hq; have := hlt q' hq'; omega)
  subst hw
  refine ⟨{ ht with
    even := { heven with }
    waiting := fun q hq => ⟨advance_fresh _ le_rfl (fun q hq => (hc q hq).1) hlt hapart q hq,
      (hc q (hsub q hq)).2⟩
    kept := fun k hk hklt => ?_ }, le_trans hp hpos⟩
  rcases hkept k hk hklt with hbelow | hin
  · exact .inl (le_trans hbelow hpos)
  · exact (hcov k hin).symm

theorem Frontier.commit (h : Frontier start s) {ticket len : Nat}
    (hgiven : (ticket, ticket + len) ∈ s.granted) :
    Frontier start { s.report (ticket, ticket + len) with wal := s.wal.commitPwrite ticket len } ∧
      s.wal.position ≤ (s.wal.commitPwrite ticket len).position := by
  have hmem {k : Nat × Nat} : k ∈ (s.report (ticket, ticket + len)).committed ↔ k ∈ s.committed ∨
      k = (ticket, ticket + len) := by
    simp [report]
  have ht : Tiled start (s.report (ticket, ticket + len)) :=
    ⟨h.bounds, h.apart, h.cover, fun k hk => (hmem.mp hk).elim (h.given k) (· ▸ hgiven)⟩
  have he : Even start (s.report (ticket, ticket + len)) s.wal.position := by
    refine ⟨h.even.bounds, fun b hb hlt => ?_, h.even.cuts⟩
    obtain ⟨k, hk, hin⟩ := h.even.reported b hb hlt
    exact ⟨k, hmem.mpr (.inl hk), hin⟩
  have hwaiting : ∀ q ∈ s.wal.completed, q.1 < q.2 ∧
      q ∈ (s.report (ticket, ticket + len)).committed := fun q hq =>
    (h.waiting q hq).2.imp_right fun hq => hmem.mpr (.inl hq)
  have hkept : ∀ {p} {c : List (Nat × Nat)}, s.wal.position ≤ p → (∀ q ∈ s.wal.completed, q ∈ c) →
      (ticket < ticket + len → ticket + len ≤ p ∨ (ticket, ticket + len) ∈ c) →
      ∀ g ∈ (s.report (ticket, ticket + len)).committed, g.1 < g.2 → g.2 ≤ p ∨ g ∈ c := by
    intro p c hp hc hnew g hg hlt
    rcases hmem.mp hg with hg | rfl
    · exact (h.kept g hg hlt).imp (le_trans · hp) (hc g)
    · exact hnew hlt
  rcases Nat.eq_zero_or_pos len with rfl | hlen
  · rw [commitPwrite, if_pos rfl]
    exact ⟨{ ht with
      even := he
      waiting := fun q hq => ⟨(h.waiting q hq).1, hwaiting q hq⟩
      kept := hkept le_rfl (fun _ hq => hq) (absurd · (lt_irrefl _)) }, le_rfl⟩
  have hne := ne_of_gt hlen
  have hself := hmem.mpr (.inr rfl)
  have hlt : ∀ q ∈ s.wal.completed, s.wal.position < q.1 := fun q hq => (h.waiting q hq).1
  rcases h.even.cuts _ hgiven with hstop | hpos
  · -- reported before
    refine Even.advance ht he le_rfl (fun q hq => ⟨le_of_lt (hlt q hq), hwaiting q hq⟩)
      (hkept le_rfl (fun _ hq => hq) fun _ => .inl hstop) ?_
    have hticket : ticket ≤ s.wal.position := le_trans (Nat.le_add_right _ _) hstop
    simp only [commitPwrite, if_neg hne, if_pos hticket, Nat.max_eq_left hstop, report]
  rcases lt_or_eq_of_le hpos with hbeyond | heq
  · -- past a gap, perhaps once more
    refine @Even.advance _ _ _ ht he (s.wal.completed.filter (·.1 != ticket) ++
      [(ticket, ticket + len)]) le_rfl
      (fun q hq => ?_) (hkept le_rfl (fun q hq => ?_) fun _ =>
        .inr (mem_append_right _ mem_cons_self)) _ ?_
    · rcases mem_append.mp hq with hq | hq
      · have hq := mem_of_mem_filter hq
        exact ⟨le_of_lt (hlt q hq), hwaiting q hq⟩
      · obtain rfl := mem_singleton.mp hq
        exact ⟨hpos, Nat.lt_add_of_pos_right hlen, hself⟩
    · by_cases hkey : q.1 = ticket
      · have := (hwaiting q hq).1
        rcases ht.apart q (ht.given q (hwaiting q hq).2) _ hgiven with rfl | hq
        · exact mem_append_right _ mem_cons_self
        · simp only at hq
          omega
      · exact mem_append_left _ (mem_filter.mpr ⟨hq, by simpa using hkey⟩)
    · simp only [commitPwrite, if_neg hne, if_neg (Nat.not_le_of_lt hbeyond), report]
  · refine Even.advance ht (Even.pass ht hself (heq ▸ he)) (by simp only [report]; omega)
      (fun q hq => ⟨?_, hwaiting q hq⟩) (hkept (by omega) (fun _ hq => hq) fun _ => .inl le_rfl) ?_
    · have := hlt q hq
      have := (hwaiting q hq).1
      rcases ht.apart q (ht.given q (hwaiting q hq).2) _ hgiven with rfl | hq | hq
      · exact absurd heq (ne_of_lt (hlt _ hq))
      · simp only at hq
        omega
      · exact hq
    · simp only [commitPwrite, if_neg hne, heq, Nat.le_refl, if_true,
        Nat.max_eq_right (Nat.le_add_right _ _), report]

theorem Frontier.step (h : Frontier start s) {call : SpanCall} (hs : s.step call = some s') :
    Frontier start s' ∧ s.wal.position ≤ s'.wal.position := by
  cases call with
  | reservePending len =>
    cases hs
    exact ⟨h.grant len, le_rfl⟩
  | commitPwrite ticket len =>
    rw [Spanned.step] at hs
    split at hs
    · cases hs
      exact h.commit (by assumption)
    · cases hs

/-- **The position is the end of what was reported without a gap.** It never passes the
frontier and never goes back, and once every span is reported it is the frontier and no
span waits in the map. -/
theorem position_contiguous (w : Writer) (hstart : w.position = w.reservedTo) (hnone : w.completed = [])
    {calls : List SpanCall} (hrun : Runs.exec Spanned.step ⟨w, [], []⟩ calls = some s) :
    IsGreatest {p | ∀ b, w.position ≤ b → b < p → s.covers b} s.wal.position ∧
    s.wal.position ≤ s.wal.reservedTo ∧
      (∀ call s', s.step call = some s' → s.wal.position ≤ s'.wal.position) ∧
      ((∀ g ∈ s.granted, g ∈ s.committed) → s.wal.position = s.wal.reservedTo ∧
        s.wal.completed = []) := by
  have hinit : Frontier w.position ⟨w, [], []⟩ := {
    bounds := by simp, apart := by simp, given := by simp, kept := by simp
    cover := fun b hb hlt => absurd hb (not_le.mpr (hstart ▸ hlt))
    even := ⟨⟨le_rfl, le_of_eq hstart⟩, fun b hb hlt => absurd hb (not_le.mpr hlt), by simp⟩
    waiting := by simp [hnone] }
  have h : Frontier w.position s :=
    Runs.exec_invariant (fun _ _ _ h _ hs => (h.step hs).1) hinit (Runs.along_true _ _ _) hrun
  -- a reported span with the byte at the position would start there and wait in the map
  have hopen : ¬ s.covers s.wal.position := by
    rintro ⟨g, hg, hle, hlt⟩
    rcases h.kept g hg (by omega) with hstop | hin
    · omega
    · have := (h.waiting g hin).1
      omega
  refine ⟨⟨h.even.reported, fun p hp => ?_⟩, h.even.bounds.2, fun call s' hs => (h.step hs).2,
    fun hall => ?_⟩
  · by_contra hgt
    exact hopen (hp _ h.even.bounds.1 (not_le.mp hgt))
  · have hpos : s.wal.position = s.wal.reservedTo := by
      by_contra hne
      obtain ⟨g, hg, hin⟩ := h.cover _ h.even.bounds.1 (lt_of_le_of_ne h.even.bounds.2 hne)
      exact hopen ⟨g, hall g hg, hin⟩
    refine ⟨hpos, eq_nil_iff_forall_not_mem.mpr fun q hq => ?_⟩
    obtain ⟨hlt, hspan, hq⟩ := h.waiting q hq
    have := (h.bounds q (h.given q hq)).2.2
    omega

/-- Reported in the wrong order, and one of them twice. -/
theorem position_contiguous_two : ∃ s, Runs.exec Spanned.step ⟨Writer.create 0, [], []⟩
        [.reservePending 50, .reservePending 50, .commitPwrite 50 50, .commitPwrite 50 50,
          .commitPwrite 0 50] = some s ∧
      s.wal.position = s.wal.reservedTo ∧ s.wal.completed = [] := by
  refine ⟨_, rfl, ?_⟩
  exact (@position_contiguous _ (create 0) rfl rfl [.reservePending 50, .reservePending 50,
    .commitPwrite 50 50,
    .commitPwrite 50 50, .commitPwrite 0 50] rfl).2.2.2 (by decide)

end Spanned
end PedraDb.Wal
