import PedraDb.Feed.ChangeLog
import PedraDb.Library.Runs

/-! The change feed after a crash.

An open loads the stored feed and adds what the logs hold beyond it: the archived segments
first, then the live log. Whether an operation is missing is decided by comparing its
sequence with the highest one of the feed, which for the archived segments grows while they
are read. Writers take their sequences before they append, so a log need not be in order of
sequence and an operation can be passed over (`archived_out_of_order`). Where segments are
archived in order, and the feed is stored only with everything below its highest sequence
in it, nothing is lost (`recovery_keeps_feed`). -/
namespace PedraDb.Feed
open List ChangeLog ChangeEntry
variable {op : WriteOp} {e : ChangeEntry} {rs : List (List WriteOp)} {i lost : Nat}

/-- The entries of a record above the highest sequence of the feed. -/
def missing (feedMax : Nat) (record : List WriteOp) : List ChangeEntry :=
  (record.filter fun op => seqAfterFeed op.sequence feedMax).map fromWriteOp

/-- A record of an archived segment, against the feed as it is by then. -/
def replayArchived (c : ChangeLog) (record : List WriteOp) : ChangeLog :=
  c.extend (missing c.maxSequence record)

/-- A record of the live log, against the feed as it was before the log. -/
def replayLive (feedMax : Nat) (c : ChangeLog) (record : List WriteOp) : ChangeLog :=
  c.extend (missing feedMax record)

/-- The feed an open builds: what is stored, then the archives, then the live log. -/
def openFeed (stored : Option (List ChangeEntry)) (archives : List (List (List WriteOp)))
    (wal : List (List WriteOp)) :
    ChangeLog :=
  let archived := archives.flatten.foldl replayArchived (.loadOn stored)
  wal.foldl (replayLive archived.maxSequence) archived

/-! ### The system -/

structure State where
  nextSeq : Nat
  /-- Records that have their sequences and are not in the log. -/
  pending : List (List WriteOp)
  wal : List (List WriteOp)
  /-- Records of the log that are not in the feed. -/
  unfed : List (List WriteOp)
  archives : List (List (List WriteOp))
  feed : ChangeLog
  /-- The feed's file. -/
  stored : Option (List ChangeEntry)
  deriving DecidableEq

open State

inductive Event where
  /-- A writer takes its sequences. -/
  | assign (ops : List BatchOp)
  /-- A writer appends its record. -/
  | append (i : Nat)
  /-- A record goes to no log and not to the feed: the append failed, or its puts went to a
  bulk run or straight to the memtable. -/
  | forgo (i : Nat)
  /-- A commit reaches the feed. -/
  | commit (i : Nat)
  | store
  /-- The log is archived, or truncated. -/
  | rotate (archive : Bool)
  /-- The oldest archived segments are deleted. -/
  | unlink (n : Nat)
  /-- A crash that loses the last records of the log, and an open. The tables bring a last
  sequence of their own, and decide whether the archived segments are kept. -/
  | reopen (lost floor : Nat) (keep : Bool)
  deriving DecidableEq

namespace State

def init : State := ⟨1, [], [], [], [], .new, none⟩

/-- The records of the live log after a crash that loses the last of them. -/
def survives (s : State) (lost : Nat) : List (List WriteOp) := s.wal.take (s.wal.length - lost)

def replayed (s : State) (lost : Nat) : List WriteOp := (s.archives.flatten ++ s.survives lost).flatten

def maxOf (ops : List WriteOp) : Nat := ops.foldl (fun m op => max m op.sequence) 0

def reopenedFeed (s : State) (lost : Nat) : ChangeLog := openFeed s.stored s.archives (s.survives lost)

def storedSequences (s : State) : List Nat := (s.stored.getD []).map (·.sequence)

def logged (s : State) : List WriteOp := (s.pending ++ s.archives.flatten ++ s.wal).flatten

end State

def step (s : State) : Event → Option State
  | .assign ops => some { s with
      nextSeq := s.nextSeq + ops.length
      pending := s.pending ++ [stampedFrom s.nextSeq ops] }
  | .append i =>
    match s.pending[i]? with
    | none => none
    | some r => some { s with
        pending := s.pending.eraseIdx i
        wal := s.wal ++ [r]
        unfed := s.unfed ++ [r] }
  | .forgo i =>
    match s.pending[i]? with
    | none => none
    | some _ => some { s with pending := s.pending.eraseIdx i }
  | .commit i =>
    match s.unfed[i]? with
    | none => none
    | some r => some { s with
        unfed := s.unfed.eraseIdx i
        feed := s.feed.extend (r.map fromWriteOp) }
  | .store => some { s with stored := some s.feed.entries }
  | .rotate archive =>
    -- a rotation waits for the commits in flight
    if s.pending.isEmpty then some { s with
      wal := []
      archives := if archive then s.archives ++ [s.wal] else s.archives }
    else none
  | .unlink n => some { s with archives := s.archives.drop n }
  | .reopen lost floor keep =>
    let feed := s.reopenedFeed lost
    some {
      nextSeq := max (maxOf (s.replayed lost)) floor + 1
      pending := []
      wal := s.survives lost
      unfed := []
      archives := if keep then s.archives else []
      feed := feed
      stored := if seqAfterFeed feed.maxSequence (loadOn s.stored).maxSequence
      then some feed.entries else s.stored }

/-- The operations of the second record are known or come after those of the first. -/
def Ahead (known : List Nat) (r r' : List WriteOp) : Prop :=
  ∀ op ∈ r', op.sequence ∈ known ∨ ∀ o ∈ r, o.sequence < op.sequence

instance (known : List Nat) (r r' : List WriteOp) : Decidable (Ahead known r r') := by
  unfold Ahead
  infer_instance

/-- A log is archived in order of sequence, but for what the stored feed has; the feed is
stored when everything that can still come out of a log is in it or after it; and an open
hands out no sequence of the stored feed again. -/
def orderly (s : State) : Event → Bool
  | .rotate true => decide (s.wal.Pairwise (Ahead s.storedSequences))
  | .store => s.logged.all fun op =>
      decide (s.feed.maxSequence < op.sequence) || (s.feed.entries.map (·.sequence)).contains op.sequence
  | .reopen lost floor _ =>
    decide ((loadOn s.stored).maxSequence ≤ max (maxOf (s.replayed lost)) floor)
  | _ => true

/-! ### What an open finds -/

theorem mem_missing {feedMax : Nat} {record : List WriteOp} :
    e ∈ missing feedMax record ↔ ∃ op ∈ record, feedMax < op.sequence ∧ .fromWriteOp op = e := by
  simp [missing, seqAfterFeed, seqExhausted, and_assoc]

theorem foldl_archived_mem (rs : List (List WriteOp)) (c : ChangeLog)
    (he : e ∈ (rs.foldl replayArchived c).entries) :
    e ∈ c.entries ∨ ∃ op ∈ rs.flatten, .fromWriteOp op = e := by
  induction rs generalizing c with
  | nil => exact .inl he
  | cons r rs ih =>
    rcases ih _ he with he | ⟨op, hop, rfl⟩
    · rcases mem_append.mp he with he | he
      · exact .inl he
      · obtain ⟨op, hop, -, rfl⟩ := mem_missing.mp he
        exact .inr ⟨op, by simp [hop], rfl⟩
    · exact .inr ⟨op, by rw [flatten_cons]; exact mem_append_right _ hop, rfl⟩

theorem foldl_archived_mono (rs : List (List WriteOp)) (c : ChangeLog) :
    (∀ e ∈ c.entries, e ∈ (rs.foldl replayArchived c).entries) ∧
    (c.Exact → (rs.foldl replayArchived c).Exact) := by
  induction rs generalizing c with
  | nil => exact ⟨fun _ he => he, fun h => h⟩
  | cons r rs ih =>
    obtain ⟨hmono, hexact⟩ := ih (replayArchived c r)
    exact ⟨fun e he => hmono e (mem_append_left _ he), fun h => hexact (h.extend _)⟩

/-- The live log adds what is above the highest sequence of the feed. -/
theorem foldl_live_mem (feedMax : Nat) (rs : List (List WriteOp)) (c : ChangeLog) :
    e ∈ (rs.foldl (replayLive feedMax) c).entries ↔ e ∈ c.entries ∨ e ∈ missing feedMax rs.flatten := by
  induction rs generalizing c with
  | nil => simp [missing]
  | cons r rs ih =>
    rw [foldl_cons, ih, flatten_cons]
    simp only [replayLive, extend, mem_append, mem_missing]
    constructor
    · rintro ((he | ⟨op, hop, hrest⟩) | ⟨op, hop, hrest⟩)
      · exact .inl he
      · exact .inr ⟨op, .inl hop, hrest⟩
      · exact .inr ⟨op, .inr hop, hrest⟩
    · rintro (he | ⟨op, hop | hop, hrest⟩)
      · exact .inl (.inl he)
      · exact .inl (.inr ⟨op, hop, hrest⟩)
      · exact .inr ⟨op, hop, hrest⟩

theorem foldl_live_exact (feedMax : Nat) (rs : List (List WriteOp)) {c : ChangeLog} (h : c.Exact) :
    (rs.foldl (replayLive feedMax) c).Exact := by
  induction rs generalizing c with
  | nil => exact h
  | cons r rs ih => exact ih (h.extend _)

section Open
variable {stored : Option (List ChangeEntry)} {archives : List (List (List WriteOp))}
    {wal : List (List WriteOp)}

/-- A feed that is opened holds nothing that was not written. -/
theorem openFeed_mem (he : e ∈ (openFeed stored archives wal).entries) :
    e ∈ stored.getD [] ∨ ∃ op ∈ (archives.flatten ++ wal).flatten, .fromWriteOp op = e := by
  rw [flatten_append]
  rcases (foldl_live_mem _ _ _).mp he with he | he
  · rcases foldl_archived_mem _ _ he with he | ⟨op, hop, rfl⟩
    · exact .inl (mem_loadOn.mp he)
    · exact .inr ⟨op, mem_append_left _ hop, rfl⟩
  · obtain ⟨op, hop, -, rfl⟩ := mem_missing.mp he
    exact .inr ⟨op, mem_append_right _ hop, rfl⟩

theorem openFeed_exact : (openFeed stored archives wal).Exact :=
  foldl_live_exact _ _ ((foldl_archived_mono _ _).2 (loadOn_exact stored))

theorem stored_mem_openFeed (he : e ∈ stored.getD []) : e ∈ (openFeed stored archives wal).entries :=
  (foldl_live_mem _ _ _).mpr (.inl ((foldl_archived_mono _ _).1 e (mem_loadOn.mpr he)))

/-- What the stored feed knows. -/
abbrev known (stored : Option (List ChangeEntry)) : List Nat := (stored.getD []).map (·.sequence)

/-- The records of the segments one after the other. The feed so far is no higher than the
records before and the stored feed, so an operation that is not stored comes after it. -/
theorem foldl_archived_complete (done : List (List WriteOp)) {c : ChangeLog} (hexact : c.Exact)
    (hbound : ∀ e ∈ c.entries, e.sequence ∈ known stored ∨ ∃ r ∈ done, ∃ o ∈ r, o.sequence = e.sequence)
    (horder : (done ++ rs).Pairwise (Ahead (known stored)))
    (hsaved : ∀ op ∈ rs.flatten, op.sequence ∉ known stored → ∀ n ∈ known stored, n < op.sequence)
    (hpos : ∀ op ∈ rs.flatten, 0 < op.sequence) :
    ∀ op ∈ rs.flatten, op.sequence ∉ known stored →
    .fromWriteOp op ∈ (rs.foldl replayArchived c).entries := by
  induction rs generalizing done c with
  | nil => simp
  | cons r rs ih =>
    intro op hop hnew
    rcases mem_append.mp hop with hr | hrest
    · refine (foldl_archived_mono rs (replayArchived c r)).1
        _ (mem_append_right _ (mem_missing.mpr ⟨op, hr, ?_, rfl⟩))
      have hle : c.maxSeq ≤ op.sequence - 1 := by
        refine (hexact _).mpr fun e he => ?_
        rcases hbound e he with hknown | ⟨r', hr', o, ho, heq⟩
        · have := hsaved op hop hnew _ hknown
          omega
        · have hahead := (pairwise_append.mp horder).2.2 r' hr' r (by simp) op hr
          have := (hahead.resolve_left hnew) o ho
          omega
      have := hpos op hop
      rw [hexact.maxSequence]
      omega
    · refine ih (done ++ [r]) (hexact.extend _) (fun e he => ?_) (by simpa using horder)
        (fun op hop => hsaved op (mem_append_right _ hop))
        (fun op hop => hpos op (mem_append_right _ hop)) op hrest hnew
      rcases mem_append.mp he with he | he
      · rcases hbound e he with hknown | ⟨r', hr', hrest⟩
        · exact .inl hknown
        · exact .inr ⟨r', by simp [hr'], hrest⟩
      · obtain ⟨o, ho, -, rfl⟩ := mem_missing.mp he
        exact .inr ⟨r, by simp, o, ho, rfl⟩

variable (horder : archives.flatten.Pairwise (Ahead (known stored)))
  (habove : ∀ a ∈ archives.flatten.flatten, ∀ w ∈ wal.flatten, a.sequence < w.sequence)
  (hsaved : ∀ op ∈ (archives.flatten ++ wal).flatten,
      op.sequence ∉ known stored → ∀ n ∈ known stored, n < op.sequence)
  (hpos : ∀ op ∈ (archives.flatten ++ wal).flatten, 0 < op.sequence)
include horder habove hsaved hpos

/-- **An open in order finds everything.** -/
theorem openFeed_complete (hop : op ∈ (archives.flatten ++ wal).flatten)
    (hnew : op.sequence ∉ known stored) :
    .fromWriteOp op ∈ (openFeed stored archives wal).entries := by
  rw [flatten_append] at hop hsaved hpos
  have hloaded : ∀ e ∈ (loadOn stored).entries, e.sequence ∈ known stored := fun e he =>
    mem_map_of_mem (mem_loadOn.mp he)
  refine (foldl_live_mem _ _ _).mpr ?_
  rcases mem_append.mp hop with ha | hw
  · refine .inl (foldl_archived_complete [] (loadOn_exact stored) (fun e he => .inl (hloaded e he)) horder
      (fun op hop => hsaved op (mem_append_left _ hop)) (fun op hop =>
        hpos op (mem_append_left _ hop)) op ha hnew)
  refine .inr (mem_missing.mpr ⟨op, hw, ?_, rfl⟩)
  have hexact := (foldl_archived_mono archives.flatten _).2 (loadOn_exact stored)
  have hle : (archives.flatten.foldl replayArchived (.loadOn stored)).maxSeq ≤ op.sequence - 1 := by
    refine (hexact _).mpr fun e he => ?_
    rcases foldl_archived_mem _ _ he with he | ⟨a, ha, rfl⟩
    · have := hsaved op hop hnew _ (hloaded e he)
      omega
    · have := habove a ha op hw
      simp only [fromWriteOp]
      omega
  have := hpos op hop
  rw [hexact.maxSequence]
  omega

end Open

/-! ### What every state keeps -/

/-- What the stored feed lacks of the log comes after it, and archives come before the rest. -/
structure Inv (s : State) : Prop where
  next : 0 < s.nextSeq
  pos : ∀ op ∈ s.logged, 0 < op.sequence
  below : ∀ op ∈ s.logged ++ s.unfed.flatten, op.sequence < s.nextSeq
  /-- What is not archived comes after what is. -/
  above : ∀ a ∈ s.archives.flatten.flatten, ∀ w ∈ (s.pending ++ s.wal).flatten, a.sequence < w.sequence
  order : s.archives.flatten.Pairwise (Ahead s.storedSequences)
  /-- What the stored feed lacks comes after it. -/
  saved : ∀ op ∈ s.logged, op.sequence ∉ s.storedSequences → ∀ n ∈ s.storedSequences, n < op.sequence
  exact' : s.feed.Exact
  fed : ∀ e ∈ s.feed.entries, e.sequence < s.nextSeq
  stored : ∀ e ∈ s.stored.getD [], e ∈ s.feed.entries

theorem Inv.init : Inv .init where
  next := by decide
  pos := by simp [State.init, State.logged]
  below := by simp [State.init, State.logged]
  above := by simp [State.init]
  order := by simp [State.init]
  saved := by simp [State.init, State.logged]
  exact' := fun n => by simp [State.init, ChangeLog.new]
  fed := by simp [State.init, ChangeLog.new]
  stored := by simp [State.init]

section Step
variable {s s' : State}

theorem mem_logged : op ∈ s.logged ↔ op ∈ s.pending.flatten ∨ op ∈ s.archives.flatten.flatten ∨
    op ∈ s.wal.flatten := by
  simp only [logged, flatten_append, mem_append, or_assoc]

theorem Inv.known_lt (h : Inv s) {n : Nat} (hn : n ∈ s.storedSequences) : n < s.nextSeq := by
  obtain ⟨e, he, rfl⟩ := mem_map.mp hn
  exact h.fed e (h.stored e he)

theorem Ahead.mono {known known' : List Nat} {r r' : List WriteOp} (h : Ahead known r r')
    (hsub : ∀ n ∈ known, n ∈ known') :
    Ahead known' r r' := fun op hop => (h op hop).imp_left (hsub _)

theorem Inv.assign (h : Inv s) {ops : List BatchOp} (hs : step s (.assign ops) = some s') : Inv s' := by
  cases hs
  have hnew : ∀ op ∈ stampedFrom s.nextSeq ops, s.nextSeq ≤ op.sequence ∧
    op.sequence < s.nextSeq + ops.length :=
    fun op hop => stampedFrom_sequence hop
  have hcases : ∀ op ∈ (⟨s.nextSeq + ops.length, s.pending ++ [stampedFrom s.nextSeq ops], s.wal,
    s.unfed, s.archives, s.feed,
      s.stored⟩ : State).logged, op ∈ s.logged ∨ op ∈ stampedFrom s.nextSeq ops := by
    intro op hop
    rw [mem_logged] at hop ⊢
    simp only [flatten_append, mem_append, flatten_cons, flatten_nil, append_nil] at hop
    tauto
  refine ⟨lt_of_lt_of_le h.next (Nat.le_add_right _ _), fun op hop => ?_, fun op hop => ?_,
    fun a ha w hw => ?_, h.order,
    fun op hop hnot n hn => ?_, h.exact', fun e he =>
    lt_of_lt_of_le (h.fed e he) (Nat.le_add_right _ _), h.stored⟩
  · rcases hcases op hop with hop | hop
    · exact h.pos op hop
    · exact lt_of_lt_of_le h.next (hnew op hop).1
  · rcases mem_append.mp hop with hop | hop
    · rcases hcases op hop with hop | hop
      · exact lt_of_lt_of_le (h.below op (mem_append_left _ hop)) (Nat.le_add_right _ _)
      · exact (hnew op hop).2
    · exact lt_of_lt_of_le (h.below op (mem_append_right _ hop)) (Nat.le_add_right _ _)
  · have hlt := h.below a (mem_append_left _ (mem_logged.mpr (.inr (.inl ha))))
    simp only [flatten_append, mem_append, flatten_cons, flatten_nil, append_nil] at hw
    rcases hw with (hw | hw) | hw
    · exact h.above a ha w (by simp only [flatten_append, mem_append]; exact .inl hw)
    · exact lt_of_lt_of_le hlt (hnew w hw).1
    · exact h.above a ha w (by simp only [flatten_append, mem_append]; exact .inr hw)
  · rcases hcases op hop with hop | hop
    · exact h.saved op hop hnot n hn
    · exact lt_of_lt_of_le (h.known_lt hn) (hnew op hop).1

theorem Inv.shrink (h : Inv s) (hnext : s'.nextSeq = s.nextSeq) (hfeed : s'.feed = s.feed)
    (hstored : s'.stored = s.stored)
    (hlogged : ∀ op ∈ s'.logged, op ∈ s.logged) (hunfed : ∀ op ∈ s'.unfed.flatten,
      op ∈ s.logged ++ s.unfed.flatten)
    (hopen : ∀ w ∈ (s'.pending ++ s'.wal).flatten, w ∈ (s.pending ++ s.wal).flatten)
    (harchives : s'.archives.flatten.Sublist s.archives.flatten) : Inv s' := by
  obtain ⟨_, _, _, _, _, _, _⟩ := s'
  subst hnext hfeed hstored
  refine ⟨h.next, fun op hop => h.pos op (hlogged op hop), fun op hop => ?_, fun a ha w hw => ?_,
    h.order.sublist harchives,
    fun op hop => h.saved op (hlogged op hop), h.exact', h.fed, h.stored⟩
  · rcases mem_append.mp hop with hop | hop
    · exact h.below op (mem_append_left _ (hlogged op hop))
    · exact h.below op (hunfed op hop)
  · obtain ⟨r, hr, har⟩ := mem_flatten.mp ha
    exact h.above a (mem_flatten.mpr ⟨r, harchives.subset hr, har⟩) w (hopen w hw)

theorem mem_of_eraseIdx {r : List WriteOp} (hr : rs[i]? = some r)
    (hop : op ∈ (rs.eraseIdx i).flatten ∨ op ∈ r) : op ∈ rs.flatten := by
  rcases hop with hop | hop
  · obtain ⟨r', hr', hop⟩ := mem_flatten.mp hop
    exact mem_flatten.mpr ⟨r', mem_of_mem_eraseIdx hr', hop⟩
  · exact mem_flatten.mpr ⟨r, mem_of_getElem? hr, hop⟩

section
variable (h : Inv s)
include h

theorem Inv.append (hs : step s (.append i) = some s') : Inv s' := by
  simp only [step] at hs
  split at hs
  · cases hs
  rename_i r hr
  cases hs
  have hfrom : ∀ op, op ∈ (s.pending.eraseIdx i).flatten ∨ op ∈ r → op ∈ s.pending.flatten :=
    fun op => mem_of_eraseIdx hr
  refine h.shrink rfl rfl rfl (fun op hop => ?_) (fun op hop => ?_) (fun w hw => ?_) (List.Sublist.refl _)
  · rw [mem_logged] at hop ⊢
    simp only [flatten_append, mem_append, flatten_cons, flatten_nil, append_nil] at hop
    rcases hop with hop | hop | hop | hop
    · exact .inl (hfrom op (.inl hop))
    · exact .inr (.inl hop)
    · exact .inr (.inr hop)
    · exact .inl (hfrom op (.inr hop))
  · simp only [flatten_append, mem_append, flatten_cons, flatten_nil, append_nil] at hop
    rcases hop with hop | hop
    · exact mem_append_right _ hop
    · exact mem_append_left _ (mem_logged.mpr (.inl (hfrom op (.inr hop))))
  · simp only [flatten_append, mem_append, flatten_cons, flatten_nil, append_nil] at hw ⊢
    rcases hw with hw | hw | hw
    · exact .inl (hfrom w (.inl hw))
    · exact .inr hw
    · exact .inl (hfrom w (.inr hw))

/-- A record that is never written leaves only its sequences. -/
theorem Inv.forgo (hs : step s (.forgo i) = some s') : Inv s' := by
  simp only [step] at hs
  split at hs
  · cases hs
  rename_i r hr
  cases hs
  have hfrom : ∀ op ∈ (s.pending.eraseIdx i).flatten, op ∈ s.pending.flatten := fun op hop =>
    mem_of_eraseIdx hr (.inl hop)
  refine h.shrink rfl rfl rfl (fun op hop => ?_) (fun op hop => mem_append_right _ hop)
    (fun w hw => ?_) (List.Sublist.refl _)
  · rw [mem_logged] at hop ⊢
    exact hop.imp_left (hfrom op)
  · rw [flatten_append] at hw ⊢
    exact (mem_append.mp hw).elim (fun hw => mem_append_left _ (hfrom w hw)) (mem_append_right _)

theorem Inv.commit (hs : step s (.commit i) = some s') : Inv s' := by
  simp only [step] at hs
  split at hs
  · cases hs
  rename_i r hr
  cases hs
  have hfrom : ∀ op, op ∈ (s.unfed.eraseIdx i).flatten ∨ op ∈ r → op ∈ s.unfed.flatten :=
    fun op => mem_of_eraseIdx hr
  refine ⟨h.next, h.pos, fun op hop => ?_, h.above, h.order, h.saved, h.exact'.extend _, fun e he => ?_,
    fun e he => mem_append_left _ (h.stored e he)⟩
  · rcases mem_append.mp hop with hop | hop
    · exact h.below op (mem_append_left _ hop)
    · exact h.below op (mem_append_right _ (hfrom op (.inl hop)))
  · rcases mem_append.mp he with he | he
    · exact h.fed e he
    · obtain ⟨op, hop, rfl⟩ := mem_map.mp he
      exact h.below op (mem_append_right _ (hfrom op (.inr hop)))

/-- The feed is stored while it lacks nothing of the log below its highest sequence. -/
theorem Inv.store (hok : orderly s .store = true) (hs : step s .store = some s') : Inv s' := by
  cases hs
  have hsub : ∀ n ∈ s.storedSequences, n ∈ s.feed.entries.map (·.sequence) := by
    intro n hn
    obtain ⟨e, he, rfl⟩ := mem_map.mp hn
    exact mem_map_of_mem (h.stored e he)
  simp only [orderly, all_eq_true, Bool.or_eq_true, decide_eq_true_eq, contains_iff_mem] at hok
  refine ⟨h.next, h.pos, h.below, h.above, h.order.imp fun ha => ha.mono hsub,
    fun op hop hnot n hn => ?_, h.exact', h.fed,
    fun e he => he⟩
  obtain ⟨e, he, rfl⟩ := mem_map.mp hn
  have hlt := (hok op hop).resolve_right hnot
  rw [h.exact'.maxSequence] at hlt
  exact lt_of_le_of_lt ((h.exact' _).mp le_rfl e he) hlt

theorem Inv.rotate {archive : Bool} (hok : orderly s (.rotate archive) = true)
    (hs : step s (.rotate archive) = some s') : Inv s' := by
  simp only [step] at hs
  split at hs
  swap
  · cases hs
  rename_i hpending
  rw [List.isEmpty_iff] at hpending
  cases hs
  cases archive with
  | false =>
    refine h.shrink rfl rfl rfl (fun op hop => ?_) (fun op hop => mem_append_right _ hop)
      (fun w hw => ?_) (List.Sublist.refl _)
    · rw [mem_logged] at hop ⊢
      exact hop.imp_right fun hop => hop.imp_right fun hop => by cases hop
    · simp only [append_nil] at hw
      rw [flatten_append]
      exact mem_append_left _ hw
  | true =>
    simp only [orderly, decide_eq_true_eq] at hok
    have harchives : (s.archives ++ [s.wal]).flatten = s.archives.flatten ++ s.wal := by simp
    have hlogged : ∀ op ∈ (s.pending ++ (s.archives ++ [s.wal]).flatten ++ []).flatten,
        op ∈ s.logged := by
      intro op hop
      simpa [logged] using hop
    refine ⟨h.next, fun op hop => h.pos op (hlogged op hop), fun op hop => ?_, ?_, ?_,
      fun op hop => h.saved op (hlogged op hop),
      h.exact', h.fed, h.stored⟩
    · rcases mem_append.mp hop with hop | hop
      · exact h.below op (mem_append_left _ (hlogged op hop))
      · exact h.below op (mem_append_right _ hop)
    · simp [hpending]
    · simp only [if_true, harchives]
      refine pairwise_append.mpr ⟨h.order, hok, fun r hr r' hr' op hop => .inr fun o ho => ?_⟩
      refine h.above o (mem_flatten.mpr ⟨r, hr, ho⟩) op ?_
      rw [flatten_append]
      exact mem_append_right _ (mem_flatten.mpr ⟨r', hr', hop⟩)

theorem Inv.unlink {n : Nat} (hs : step s (.unlink n) = some s') : Inv s' := by
  cases hs
  have hsub : (s.archives.drop n).flatten.Sublist s.archives.flatten := by
    conv => rhs; rw [← take_append_drop n s.archives, flatten_append]
    exact sublist_append_right _ _
  refine h.shrink rfl rfl rfl (fun op hop => ?_) (fun op hop => mem_append_right _ hop)
    (fun w hw => hw) hsub
  rw [mem_logged] at hop ⊢
  refine hop.imp_right fun hop => hop.imp_left fun hop => ?_
  obtain ⟨r, hr, hop⟩ := mem_flatten.mp hop
  exact mem_flatten.mpr ⟨r, hsub.subset hr, hop⟩

end

theorem replayed_mem (hop : op ∈ s.replayed lost) : op ∈ s.logged := by
  simp only [replayed, flatten_append, mem_append] at hop
  rw [mem_logged]
  refine .inr (hop.imp_right fun hop => ?_)
  obtain ⟨r, hr, hop⟩ := mem_flatten.mp hop
  exact mem_flatten.mpr ⟨r, mem_of_mem_take hr, hop⟩

/-- An open finds every record that is logged and not stored. -/
theorem Inv.reopened (h : Inv s) (hop : op ∈ s.replayed lost) (hnew : op.sequence ∉ s.storedSequences) :
    .fromWriteOp op ∈ (s.reopenedFeed lost).entries := by
  refine openFeed_complete h.order (fun a ha w hw => h.above a ha w ?_)
    (fun op hop => h.saved op (replayed_mem hop))
    (fun op hop => h.pos op (replayed_mem hop)) hop hnew
  obtain ⟨r, hr, hw⟩ := mem_flatten.mp hw
  rw [flatten_append]
  exact mem_append_right _ (mem_flatten.mpr ⟨r, mem_of_mem_take hr, hw⟩)

theorem le_maxOf {ops : List WriteOp} (hop : op ∈ ops) : op.sequence ≤ maxOf ops :=
  ((foldl_max WriteOp.sequence ops 0 _).mp le_rfl).2 op hop

/-- A crash and an open. -/
theorem Inv.reopen (h : Inv s) {floor : Nat} {keep : Bool}
    (hok : orderly s (.reopen lost floor keep) = true)
    (hs : step s (.reopen lost floor keep) = some s') : Inv s' := by
  cases hs
  simp only [orderly, decide_eq_true_eq] at hok
  have hexact := loadOn_exact s.stored
  rw [hexact.maxSequence] at hok
  -- the logs after the open hold some of what was replayed
  have hlogged :
      ∀ op ∈ ((if keep = true then s.archives else []).flatten ++ s.survives lost).flatten,
      op ∈ s.replayed lost := by
    intro op hop
    cases keep with
    | true => exact hop
    | false =>
      rw [replayed, flatten_append]
      exact mem_append_right _ (by simpa using hop)
  have hlast : ∀ op ∈ s.replayed lost, op.sequence < max (maxOf (s.replayed lost)) floor + 1 :=
      fun op hop =>
    Nat.lt_succ_of_le (le_trans (le_maxOf hop) (le_max_left _ _))
  have hsublist : (if keep = true then s.archives else []).flatten.Sublist s.archives.flatten := by
    cases keep <;> simp
  -- what the file has afterwards, and that the reopened feed has it
  have hknown : ∀ n ∈ s.storedSequences, n ∈ (s.reopenedFeed lost).entries.map (·.sequence) := by
    intro n hn
    obtain ⟨e, he, rfl⟩ := mem_map.mp hn
    exact mem_map_of_mem (stored_mem_openFeed he)
  generalize seqAfterFeed (s.reopenedFeed lost).maxSequence (loadOn s.stored).maxSequence = grown
  generalize (if keep = true then s.archives else []) = archives at hlogged hsublist ⊢
  refine ⟨Nat.succ_pos _, fun op hop => ?_, fun op hop => ?_, fun a ha w hw => ?_, ?_, ?_,
    openFeed_exact, fun e he => ?_, ?_⟩
  · exact h.pos op (replayed_mem (hlogged op (by simpa [logged] using hop)))
  · exact hlast op (hlogged op (by simpa [logged] using hop))
  · obtain ⟨r, hr, har⟩ := mem_flatten.mp ha
    refine h.above a (mem_flatten.mpr ⟨r, hsublist.subset hr, har⟩) w ?_
    obtain ⟨r', hr', hw⟩ := mem_flatten.mp hw
    rw [flatten_append]
    exact mem_append_right _ (mem_flatten.mpr ⟨r', mem_of_mem_take hr', hw⟩)
  · cases grown with
    | true => exact (h.order.sublist hsublist).imp fun ha => ha.mono hknown
    | false => exact h.order.sublist hsublist
  · intro op hop hnot n hn
    have hreplayed := hlogged op (by simpa [logged] using hop)
    cases grown with
    | true =>
      -- everything replayed is in the feed that was stored
      refine absurd ?_ hnot
      by_cases hold : op.sequence ∈ s.storedSequences
      · exact hknown _ hold
      · exact mem_map_of_mem (f := (·.sequence)) (h.reopened hreplayed hold)
    | false => exact h.saved op (replayed_mem hreplayed) hnot n hn
  · rcases openFeed_mem he with he | ⟨op, hop, rfl⟩
    · have hle := (hexact _).mp le_rfl e (mem_loadOn.mpr he)
      exact Nat.lt_succ_of_le (le_trans hle hok)
    · exact hlast op hop
  · cases grown with
    | true => exact fun e he => he
    | false => exact fun e he => stored_mem_openFeed he

theorem Inv.step (h : Inv s) {e : Event} (hok : orderly s e = true) (hs : step s e = some s') :
    Inv s' := by
  cases e with
  | assign ops => exact h.assign hs
  | append i => exact h.append hs
  | forgo i => exact h.forgo hs
  | commit i => exact h.commit hs
  | store => exact h.store hok hs
  | rotate archive => exact h.rotate hok hs
  | unlink n => exact h.unlink hs
  | reopen lost floor keep => exact h.reopen hok hs

end Step

/-- **Recovery loses no change.** After any run in which logs are archived in order, the
feed is stored with everything below it in it and no stored sequence is handed out again:
what a crash and an open replay, and the stored feed did not have, is in the feed. -/
theorem recovery_keeps_feed (events : List Event) (s s' : State)
    (hok : Runs.Along step orderly .init events = true) (hrun : Runs.exec step .init events = some s)
    (lost floor : Nat) (keep : Bool) (hopen : step s (.reopen lost floor keep) = some s') (op : WriteOp)
    (hop : op ∈ s.replayed lost) (hnew : op.sequence ∉ s.storedSequences) :
    ChangeEntry.fromWriteOp op ∈ s'.feed.entries := by
  have hinv : Inv s := Runs.exec_invariant (fun _ _ _ h => h.step) .init hok hrun
  cases hopen
  exact hinv.reopened hop hnew

/-- Two writers take sequences 1 and 2; the second appends first; the log is archived. -/
def secondFirst : List Event :=
  [.assign [.put [7] [5]], .assign [.put [8] [6]], .append 1, .append 0, .rotate true]

/-- **An operation is passed over.** Both operations are replayed and no feed was stored; the
one with the lower sequence comes second and is taken for known. -/
theorem archived_out_of_order : ∃ s s', Runs.exec step .init secondFirst = some s ∧ step s
    (.reopen 0 0 true) = some s' ∧
      WriteOp.put 1 [7] [5] ∈ s.replayed 0 ∧ 1 ∉ s.storedSequences ∧
      ChangeEntry.fromWriteOp (.put 1 [7] [5]) ∉ s'.feed.entries := by
  refine ⟨_, _, rfl, rfl, ?_, ?_, ?_⟩ <;> decide

/-- Two writers out of order in the live log, after a segment, a stored feed and a record
that was never logged. -/
def liveOutOfOrder : List Event :=
  [.assign [.put [7] [5]], .append 0, .commit 0, .store, .assign [.put [9] [4]], .forgo 0, .rotate true,
    .assign [.put [8] [6]], .assign [.delete [7]], .append 1, .append 0]

theorem recovery_keeps_feed_live : ∃ s s', Runs.exec step .init liveOutOfOrder = some s ∧
      step s (.reopen 0 0 true) = some s' ∧ WriteOp.put 3 [8] [6] ∈ s.replayed 0 ∧
      3 ∉ s.storedSequences ∧ ChangeEntry.fromWriteOp (.put 3 [8] [6]) ∈ s'.feed.entries :=
  ⟨_, _, rfl, rfl,
    by decide, by decide, recovery_keeps_feed liveOutOfOrder _ _ (by decide) rfl 0 0 true rfl
    (.put 3 [8] [6]) (by decide) (by decide)⟩

end PedraDb.Feed
