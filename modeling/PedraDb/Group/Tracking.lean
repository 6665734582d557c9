import PedraDb.Group.Leader

/-! What a group knows about its members.

`ownRecords` is what `prepareWriteOps` made of a member's batch, and
`preparedWave` lists it for every member of a wave. `Tracks` ties a group in
flight to the members handed to it: the result at a place, and every pending or
encoded slot with that place, belong to the member of that place. Preparing,
encoding and failing a wave all keep it. -/
namespace PedraDb.Group
open List GroupInFlight PendingWrite
variable {r : Result Nat} {db db' : Db}
variable {g : GroupInFlight} {ps : List PendingWrite} {own : List (Option (List WriteOp))}
    {slots : List Slot}

variable (f : Slot → Result Nat)

@[simp] theorem answerAll_length (slots : List Slot) (rs : Results) :
    (answerAll f slots rs).length = rs.length := by
  induction slots generalizing rs with
  | nil => rfl
  | cons s rest ih => exact (ih _).trans (List.length_set ..)

@[simp] theorem answerMissing_length (r : Result Nat) (slots : List Slot)
    (rs : Results) : (answerMissing r slots rs).length = rs.length := by
  induction slots generalizing rs with
  | nil => rfl
  | cons s rest ih =>
    refine (ih _).trans ?_
    split
    · exact List.length_set ..
    · rfl

theorem get_of_set {rs : Results} {i j : Nat} {x : Option (Result Nat)}
    (h : (rs.set j x)[i]? = some (some r)) :
    rs[i]? = some (some r) ∨ j = i ∧ x = some r := by
  by_cases hi : j = i
  · subst hi
    by_cases hlt : j < rs.length
    · rw [getElem?_set_self hlt] at h
      exact .inr ⟨rfl, Option.some.inj h⟩
    · rw [set_eq_of_length_le (by omega)] at h
      exact .inl h
  · rw [getElem?_set_ne hi] at h
    exact .inl h

/-- An answer that was not there before is the one of a listed member with its place. -/
theorem answerAll_get {f : Slot → Result Nat} {rs : Results} {i : Nat}
    (h : (answerAll f slots rs)[i]? = some (some r)) :
    rs[i]? = some (some r) ∨ ∃ s ∈ slots, s.index = i ∧ f s = r := by
  induction slots generalizing rs with
  | nil => exact .inl h
  | cons s rest ih =>
    rcases ih h with hset | ⟨t, ht, hti, hfr⟩
    · rcases get_of_set hset with hold | ⟨hi, hr⟩
      · exact .inl hold
      · exact .inr ⟨s, mem_cons_self .., hi, Option.some.inj hr⟩
    · exact .inr ⟨t, mem_cons_of_mem s ht, hti, hfr⟩

/-- Every listed member inside the list has an answer, its own or that of a listed
member with the same place. -/
theorem answerAll_mem (rs : Results) {s : Slot} (hs : s ∈ slots) (hlt : s.index < rs.length) :
    ∃ t ∈ slots, t.index = s.index ∧ (answerAll f slots rs)[s.index]? = some (some (f t)) := by
  induction slots generalizing rs s with
  | nil => cases hs
  | cons u rest ih =>
    by_cases hrest : ∃ t ∈ rest, t.index = s.index
    · obtain ⟨t, ht, hti⟩ := hrest
      obtain ⟨v, hv, hvi, hget⟩ := ih (rs.set u.index (some (f u))) ht (by simpa [hti] using hlt)
      exact ⟨v, mem_cons_of_mem u hv, hvi.trans hti, by rw [← hti]; exact hget⟩
    have hu : s = u := by
      rcases mem_cons.mp hs with rfl | hmem
      · rfl
      · exact absurd ⟨s, hmem, rfl⟩ hrest
    subst hu
    refine ⟨s, mem_cons_self .., rfl, ?_⟩
    have hfix : ∀ l rs',
        (∀ t ∈ l, t.index ≠ s.index) → (answerAll f l rs')[s.index]? = rs'[s.index]? := by
      intro l
      induction l with
      | nil => intro _ _; rfl
      | cons t l ihl =>
        intro rs' hne
        refine (ihl _ fun x hx => hne x (mem_cons_of_mem t hx)).trans ?_
        exact getElem?_set_ne (hne t (mem_cons_self ..))
    refine (hfix rest _ fun t ht heq => hrest ⟨t, ht, heq⟩).trans ?_
    exact getElem?_set_self hlt

theorem answerMissing_get {rs : Results} {i : Nat} {a : Result Nat}
    (h : (answerMissing r slots rs)[i]? = some (some a)) : rs[i]? = some (some a) ∨ a = r := by
  induction slots generalizing rs with
  | nil => exact .inl h
  | cons s rest ih =>
    rcases ih h with hset | hr
    · split at hset
      · rcases get_of_set hset with hold | ⟨_, hr⟩
        · exact .inl hold
        · exact .inr (Option.some.inj hr).symm
      · exact .inl hset
    · exact .inr hr

/-! ### A member's own records -/

/-- The records prepared for a member; an empty batch and one that cannot be prepared
have none. -/
def ownRecords (db : Db) (spill : Nat → Value → Result Value) (input : Input) : Option (List WriteOp) :=
  if input.1 = [] then none else (prepareWriteOps db spill input.1).toOption.map Prod.snd

def memberDb (db : Db) (spill : Nat → Value → Result Value) (input : Input) : Db :=
  if input.1 = [] then db
  else match prepareWriteOps db spill input.1 with
    | .error _ => db
    | .ok (db, _) => db

/-- The records prepared for each member of a wave, in order. -/
def preparedWave (spill : Nat → Nat → Value → Result Value) :
    Nat → Db → List Input → List (Option (List WriteOp))
  | _, _, [] => []
  | off, db, input :: rest =>
    ownRecords db (spill off) input :: preparedWave spill (off + 1) (memberDb db (spill off) input) rest

variable (spill : Nat → Nat → Value → Result Value)

theorem preparedWave_length (off : Nat) (db : Db)
    (inputs : List Input) : (preparedWave spill off db inputs).length = inputs.length := by
  induction inputs generalizing off db with
  | nil => rfl
  | cons input rest ih => simp [preparedWave, ih]

/-- What preparing one member can do: answer an empty batch, answer a batch that
cannot be prepared, or add a pending slot with the member's own records. -/
theorem prepareMember_cases (db : Db) (g : GroupInFlight) (spill : Nat → Value → Result Value) (i : Nat)
    (input : Input) :
    (input.1 = [] ∧ ownRecords db spill input = none ∧ memberDb db spill input = db ∧
      prepareMember db g spill i input = (db, g.answer i (.ok db.lastSequence))) ∨
    (∃ e, ownRecords db spill input = none ∧ memberDb db spill input = db ∧
      prepareMember db g spill i input = (db, g.answer i (.error e))) ∨
    (∃ db' recs, prepareWriteOps db spill input.1 = .ok (db', recs) ∧
      ownRecords db spill input = some recs ∧ memberDb db spill input = db' ∧
      prepareMember db g spill i input = (db', { g with
        anySync := g.anySync || input.2
        pending := g.pending ++ [⟨i, recs, lastOf recs⟩] })) := by
  by_cases he : input.1 = []
  · exact .inl ⟨he, by simp [ownRecords, he], by simp [memberDb, he], by simp [prepareMember, he]⟩
  cases hp : prepareWriteOps db spill input.1 with
  | error e =>
    refine .inr (.inl ⟨e, ?_, ?_, ?_⟩)
    · simp [ownRecords, he, hp, Except.toOption]
    · simp [memberDb, he, hp]
    · simp [prepareMember, he, hp]
  | ok r =>
    obtain ⟨db', recs⟩ := r
    refine .inr (.inr ⟨db', recs, rfl, ?_, ?_, ?_⟩)
    · simp [ownRecords, he, hp, Except.toOption]
    · simp [memberDb, he, hp]
    · simp [prepareMember, he, hp]

theorem prepareMember_db (db : Db) (g : GroupInFlight) (spill : Nat → Value → Result Value) (i : Nat)
    (input : Input) : (prepareMember db g spill i input).1 = memberDb db spill input := by
  rcases prepareMember_cases db g spill i input with ⟨_, _, hm, h⟩ | ⟨e, _, hm, h⟩ |
    ⟨_, _, _, _, hm, h⟩ <;>
    rw [h, hm]

/-! ### The invariant -/

/-- The group `g` has taken in the members `ps`, and `own` lists what was prepared for
each. Places past `ps` have no answer yet. -/
structure Tracks (g : GroupInFlight) (ps : List PendingWrite) (own : List (Option (List WriteOp))) :
    Prop where
  own_length : own.length = ps.length
  room : ps.length ≤ g.results.length
  unanswered : ∀ i r, ps.length ≤ i → g.results[i]? ≠ some (some r)
  slot : ∀ s ∈ g.pending ++ g.appended, own[s.index]? = some (some s.ops) ∧ s.lastSeq = lastOf s.ops
  sync : ∀ s ∈ g.pending ++ g.appended, ∀ p : PendingWrite, ps[s.index]? = some p →
    p.doSync = true → g.anySync = true
  early : ∀ (i : Nat) (p : PendingWrite) (seq : Nat),
    ps[i]? = some p → g.results[i]? = some (some (.ok seq)) → p.ops = []
  kept : g.failed = false → ∀ (i : Nat) (recs : List WriteOp), own[i]? = some (some recs) →
    ∃ s ∈ g.pending ++ g.appended, s.index = i

attribute [local simp] failPending

theorem Tracks.start (n : Nat) : Tracks (.empty n) [] [] where
  own_length := rfl
  room := Nat.zero_le _
  unanswered := by
    intro i r _ h
    simp only [empty, getElem?_replicate] at h
    split at h <;> simp at h
  slot := by simp [empty]
  sync := by simp [empty]
  early := by simp
  kept := by simp

theorem Tracks.slot_lt (h : Tracks g ps own) {s : Slot} (hs : s ∈ g.pending ++ g.appended) :
    s.index < ps.length := by
  have := (List.getElem?_eq_some_iff.mp (h.slot s hs).1).1
  rw [h.own_length] at this
  exact this

variable {p : PendingWrite}

/-- Answering the next member keeps the invariant, if an `Ok` goes to an empty batch
only. -/
theorem Tracks.answer (h : Tracks g ps own) (hlt : ps.length < g.results.length)
    (hr : ∀ seq, r = .ok seq → p.ops = []) :
    Tracks (g.answer ps.length r) (ps ++ [p]) (own ++ [none]) where
  own_length := by simp [h.own_length]
  room := by simpa [GroupInFlight.answer] using Nat.succ_le_of_lt hlt
  unanswered := by
    intro i a hi
    simp only [length_append, length_singleton] at hi
    simp only [GroupInFlight.answer]
    rw [getElem?_set_ne (by omega)]
    exact h.unanswered i a (by omega)
  slot := by
    intro s hs
    obtain ⟨hown, hlast⟩ := h.slot s hs
    refine ⟨?_, hlast⟩
    rw [getElem?_append_left (List.getElem?_eq_some_iff.mp hown).1]
    exact hown
  sync := by
    intro s hs q hq hsync
    have hlt := h.slot_lt hs
    rw [getElem?_append_left hlt] at hq
    exact h.sync s hs q hq hsync
  early := by
    intro i q seq hq hres
    simp only [GroupInFlight.answer] at hres
    by_cases hi : i = ps.length
    · subst hi
      rw [getElem?_set_self hlt] at hres
      rw [getElem?_append_right .refl] at hq
      simp only [Nat.sub_self, getElem?_cons_zero, Option.some.injEq] at hq hres
      exact hq ▸ hr seq hres
    · rw [getElem?_set_ne (Ne.symm hi)] at hres
      have hlt' : i < (ps ++ [p]).length := (List.getElem?_eq_some_iff.mp hq).1
      rw [length_append, length_singleton] at hlt'
      rw [getElem?_append_left (by omega)] at hq
      exact h.early i q seq hq hres
  kept := by
    intro hf i recs hi
    refine h.kept hf i recs ?_
    by_cases hlt' : i < own.length
    · rwa [getElem?_append_left hlt'] at hi
    · rw [getElem?_append_right (by omega)] at hi
      rcases Nat.eq_zero_or_pos (i - own.length) with hz | hpos
      · simp [hz] at hi
      · rw [getElem?_eq_none (by simp; omega)] at hi
        cases hi

variable {recs : List WriteOp}

theorem Tracks.push
    (h : Tracks g ps own) (hlt : ps.length < g.results.length) :
    Tracks { g with
        anySync := g.anySync || p.doSync
        pending := g.pending ++ [⟨ps.length, recs, lastOf recs⟩] } (ps ++ [p]) (own ++ [some recs]) where
  own_length := by simp [h.own_length]
  room := by simpa using Nat.succ_le_of_lt hlt
  unanswered := by
    intro i a hi
    simp only [length_append, length_singleton] at hi
    exact h.unanswered i a (by omega)
  slot := by
    intro s hs
    simp only [mem_append, mem_singleton] at hs
    rcases hs with (hs | rfl) | hs
    · obtain ⟨hown, hlast⟩ := h.slot s (mem_append_left _ hs)
      exact ⟨by rw [getElem?_append_left (List.getElem?_eq_some_iff.mp hown).1]; exact hown, hlast⟩
    · refine ⟨?_, rfl⟩
      show (own ++ [some recs])[ps.length]? = _
      rw [← h.own_length, getElem?_append_right .refl]
      simp
    · obtain ⟨hown, hlast⟩ := h.slot s (mem_append_right _ hs)
      exact ⟨by rw [getElem?_append_left (List.getElem?_eq_some_iff.mp hown).1]; exact hown, hlast⟩
  sync := by
    intro s hs q hq hsync
    simp only [mem_append, mem_singleton] at hs
    have hold : s ∈ g.pending ++ g.appended → (g.anySync || p.doSync) = true := by
      intro hs
      rw [getElem?_append_left (h.slot_lt hs)] at hq
      simp [h.sync s hs q hq hsync]
    rcases hs with (hs | rfl) | hs
    · exact hold (mem_append_left _ hs)
    · have hq' : p = q := by simpa using hq
      simp [hq', hsync]
    · exact hold (mem_append_right _ hs)
  early := by
    intro i q seq hq hres
    by_cases hi : i < ps.length
    · rw [getElem?_append_left hi] at hq
      exact h.early i q seq hq hres
    · exact absurd hres (h.unanswered i _ (by omega))
  kept := by
    intro hf i r hi
    by_cases hlt' : i < own.length
    · rw [getElem?_append_left hlt'] at hi
      obtain ⟨s, hs, hsi⟩ := h.kept hf i r hi
      refine ⟨s, ?_, hsi⟩
      simp only [mem_append, mem_singleton] at hs ⊢
      tauto
    · have hlen : i < (own ++ [some recs]).length := (List.getElem?_eq_some_iff.mp hi).1
      rw [length_append, length_singleton] at hlen
      have := h.own_length
      refine ⟨⟨ps.length, recs, lastOf recs⟩, by simp, ?_⟩
      show ps.length = i
      omega

def waveDb (spill : Nat → Nat → Value → Result Value) : Nat → Db → List Input → Db
  | _, db, [] => db
  | off, db, input :: rest => waveDb spill (off + 1) (memberDb db (spill off) input) rest

variable (base off : Nat)

theorem groupPrepare_db (db : Db) (g : GroupInFlight) (inputs : List Input) :
    (groupPrepare spill base off db g inputs).1 = waveDb spill off db inputs := by
  induction inputs generalizing off db g with
  | nil => rfl
  | cons input rest ih => simp [groupPrepare, waveDb, ih, prepareMember_db]

theorem prepareMember_frame (db : Db) (g : GroupInFlight) (spill : Nat → Value → Result Value)
    (i : Nat) (input : Input) :
    (prepareMember db g spill i input).2.appended = g.appended ∧
    (prepareMember db g spill i input).2.failed = g.failed ∧
      (prepareMember db g spill i input).2.nextI = g.nextI ∧
      (prepareMember db g spill i input).2.results.length = g.results.length := by
  rcases prepareMember_cases db g spill i input with ⟨_, _, _, h⟩ | ⟨e, _, _, h⟩ | ⟨_, _, _, _, _, h⟩ <;>
    rw [h] <;> simp [answer]

theorem groupPrepare_frame (db : Db) (g : GroupInFlight) (inputs : List Input) :
    (groupPrepare spill base off db g inputs).2.appended = g.appended ∧
      (groupPrepare spill base off db g inputs).2.failed = g.failed ∧
      (groupPrepare spill base off db g inputs).2.nextI = g.nextI ∧
      (groupPrepare spill base off db g inputs).2.results.length = g.results.length := by
  induction inputs generalizing off db g with
  | nil => exact ⟨rfl, rfl, rfl, rfl⟩
  | cons input rest ih =>
    obtain ⟨ha, hf, hn, hl⟩ := prepareMember_frame db g (spill off) (base + off) input
    obtain ⟨ha', hf', hn', hl'⟩ := ih (off + 1) (prepareMember db g (spill off) (base + off) input).1
      (prepareMember db g (spill off) (base + off) input).2
    exact ⟨ha'.trans ha, hf'.trans hf, hn'.trans hn, hl'.trans hl⟩

section
variable (h : Tracks g ps own)
include h

theorem Tracks.prepareMember (db : Db)
    (spill : Nat → Value → Result Value) (p : PendingWrite) (hlt : ps.length < g.results.length) :
    Tracks (Group.prepareMember db g spill ps.length p.input).2 (ps ++ [p])
    (own ++ [ownRecords db spill p.input]) := by
  rcases prepareMember_cases db g spill ps.length p.input with
    ⟨he, ho, _, heq⟩ | ⟨e, ho, _, heq⟩ | ⟨db', recs, _, ho, _, heq⟩
  · rw [heq, ho]
    exact h.answer hlt fun _ _ => he
  · rw [heq, ho]
    exact h.answer hlt fun seq hseq => nomatch hseq
  · rw [heq, ho]
    exact h.push hlt

theorem Tracks.groupPrepare (db : Db) (spill : Nat → Nat → Value → Result Value) (base off : Nat)
    (ws : List PendingWrite)
    (hbase : base + off = ps.length) (hroom : ps.length + ws.length ≤ g.results.length) :
    Tracks (Group.groupPrepare spill base off db g (ws.map input)).2 (ps ++ ws)
      (own ++ preparedWave spill off db (ws.map input)) := by
  induction ws generalizing g ps own db off with
  | nil => simpa [Group.groupPrepare, preparedWave] using h
  | cons p ws ih =>
    simp only [length_cons] at hroom
    have hp := h.prepareMember db (spill off) p (by omega)
    have hlen := (prepareMember_frame db g (spill off) (base + off) p.input).2.2.2
    simp only [map_cons, Group.groupPrepare, preparedWave,
      ← prepareMember_db db g (spill off) (base + off)]
    rw [← hbase] at hp
    have := ih hp (Group.prepareMember db g (spill off) (base + off) p.input).1 (off + 1)
      (by simp; omega) (by rw [hlen]; simp; omega)
    simpa using this

theorem Tracks.failPending (e : CoreError) : Tracks (g.failPending e) ps own where
  own_length := h.own_length
  room := by simpa using h.room
  unanswered := by
    intro i r hi hget
    rcases answerAll_get hget with hold | ⟨s, hs, hsi, _⟩
    · exact h.unanswered i r hi hold
    · have := h.slot_lt (mem_append_left _ hs)
      omega
  slot := fun s hs => h.slot s (mem_append_right _ (by simpa using hs))
  sync := fun s hs => h.sync s (mem_append_right _ (by simpa using hs))
  early := by
    intro i p seq hp hget
    rcases answerAll_get hget with hold | ⟨s, _, _, hs⟩
    · exact h.early i p seq hp hold
    · cases hs
  kept := by
    intro hf
    cases hf

theorem Tracks.groupAppendOps (db : Db) (io : WaveIo) :
    Tracks (Group.groupAppendOps db g io).2 ps own := by
  unfold Group.groupAppendOps
  split
  · exact h
  split
  · exact h.failPending _
  split
  · exact h.failPending _
  exact
    { own_length := h.own_length
      room := h.room
      unanswered := h.unanswered
      slot := fun s hs => h.slot s (by simpa [or_comm] using hs)
      sync := fun s hs => h.sync s (by simpa [or_comm] using hs)
      early := h.early
      kept := fun hf i recs hi => by
        obtain ⟨s, hs, hsi⟩ := h.kept hf i recs hi
        exact ⟨s, by simpa [or_comm] using hs, hsi⟩ }

end

/-! ### What a wave does to the store -/

theorem prepareWriteOps_db {spill : Nat → Value → Result Value} {ops : List BatchOp}
    (h : prepareWriteOps db spill ops = .ok (db', recs)) :
    ∃ next, assign spill 0 db.nextSeq ops = .ok (recs, next) ∧ db' = { db with nextSeq := next } := by
  unfold prepareWriteOps at h
  split at h
  · cases h
  · split at h
    · cases h
    · rename_i records next hassign
      cases h
      exact ⟨next, hassign, rfl⟩

theorem waveDb_eq (db : Db) (inputs : List Input) :
    ∃ next, waveDb spill off db inputs = { db with nextSeq := next } := by
  induction inputs generalizing off db with
  | nil => exact ⟨db.nextSeq, rfl⟩
  | cons input rest ih =>
    obtain ⟨next, hnext⟩ := ih (off + 1) (memberDb db (spill off) input)
    refine ⟨next, hnext.trans ?_⟩
    unfold memberDb
    split
    · rfl
    · split
      · rfl
      · rename_i db' recs hprep
        obtain ⟨n, _, rfl⟩ := prepareWriteOps_db hprep
        rfl

/-- Encoding leaves everything, fails the pending members, or moves them into the
frame. -/
theorem groupAppendOps_cases (db : Db) (g : GroupInFlight) (io : WaveIo) :
    ((g.failed = true ∨ g.pending = []) ∧ groupAppendOps db g io = (db, g)) ∨
    (∃ e, groupAppendOps db g io = (db, g.failPending e)) ∨ groupAppendOps db g io =
      ({ db with wal := db.wal.encodeWriteOpBatches (g.pending.map Slot.ops) },
        { g with appended := g.appended ++ g.pending, pending := [] }) := by
  unfold groupAppendOps
  split
  · rename_i h
    exact .inl ⟨by simpa using h, rfl⟩
  · split
    · exact .inr (.inl ⟨_, rfl⟩)
    · split
      · exact .inr (.inl ⟨_, rfl⟩)
      · exact .inr (.inr rfl)

/-- From `(db, g)` to `(db', g')` some members were encoded: they are the new slots, the
frame grew by their records, and the rest of the store moved by its counter only. -/
structure Encoded (db : Db) (g : GroupInFlight) (db' : Db) (g' : GroupInFlight) (slots : List Slot) :
    Prop where
  appended : g'.appended = g.appended ++ slots
  wal : db'.wal = db.wal.encodeWriteOpBatches (slots.map Slot.ops)
  store : { db' with wal := db.wal, nextSeq := db.nextSeq } = db

theorem Encoded.refl (db : Db) (g : GroupInFlight) : Encoded db g db g [] :=
  ⟨by simp, by simp [Wal.encodeWriteOpBatches], rfl⟩

theorem Encoded.trans {db₁ db₂ db₃ : Db} {g₁ g₂ g₃ : GroupInFlight} {s₁ s₂ : List Slot}
    (h : Encoded db₁ g₁ db₂ g₂ s₁) (h' : Encoded db₂ g₂ db₃ g₃ s₂) :
    Encoded db₁ g₁ db₃ g₃ (s₁ ++ s₂) := by
  refine ⟨by rw [h'.appended, h.appended, append_assoc], ?_, ?_⟩
  · rw [h'.wal, h.wal]
    simp [Wal.encodeWriteOpBatches]
  · have hw := h.store
    have hw' := h'.store
    obtain ⟨n₁, p₁, f₁, u₁, m₁, w₁⟩ := db₁
    obtain ⟨n₂, p₂, f₂, u₂, m₂, w₂⟩ := db₂
    obtain ⟨n₃, p₃, f₃, u₃, m₃, w₃⟩ := db₃
    simp only [Db.mk.injEq, true_and, and_true] at hw hw' ⊢
    obtain ⟨rfl, rfl, rfl, rfl⟩ := hw
    exact hw'

/-- A wave taken in by a group: what it prepared is tracked, and what it encoded is in
the frame. -/
theorem groupAppendOps_encoded (db : Db) (g : GroupInFlight) (io : WaveIo) :
    ∃ slots, Encoded db g (groupAppendOps db g io).1 (groupAppendOps db g io).2 slots := by
  rcases groupAppendOps_cases db g io with ⟨_, h⟩ | ⟨e, h⟩ | h <;> rw [h]
  · exact ⟨[], .refl db g⟩
  · exact ⟨[], by simp, by simp [Wal.encodeWriteOpBatches], rfl⟩
  · exact ⟨g.pending, rfl, rfl, rfl⟩

theorem groupAppendOps_pending (db : Db) (g : GroupInFlight) (io : WaveIo) (hg : g.failed = false) :
    (groupAppendOps db g io).2.pending = [] := by
  rcases groupAppendOps_cases db g io with ⟨hor, h⟩ | ⟨e, h⟩ | h <;> rw [h]
  · rcases hor with hf | hp
    · rw [hg] at hf
      cases hf
    · exact hp
  · rfl

theorem groupAppendOps_places (db : Db) (g : GroupInFlight) (io : WaveIo) :
    (groupAppendOps db g io).2.nextI = g.nextI ∧
      (groupAppendOps db g io).2.results.length = g.results.length := by
  rcases groupAppendOps_cases db g io with ⟨hor, h⟩ | ⟨e, h⟩ | h <;> rw [h] <;>
    simp

/-- The group between waves: it tracks its members, has a place for each and no more,
and nothing is left to encode. -/
structure Settled (g : GroupInFlight) (ps : List PendingWrite) (own : List (Option (List WriteOp))) :
    Prop extends Tracks g ps own where
  places : g.results.length = ps.length
  next : g.nextI = ps.length
  drained : g.pending = []

theorem Encoded.prepare (db : Db) (g : GroupInFlight) (inputs : List Input) :
    Encoded db g (groupPrepare spill base off db g inputs).1
    (groupPrepare spill base off db g inputs).2 [] := by
  obtain ⟨next, hnext⟩ := waveDb_eq spill off db inputs
  refine ⟨?_, ?_, ?_⟩
  · rw [(groupPrepare_frame spill base off db g inputs).1, append_nil]
  · rw [groupPrepare_db, hnext]
    simp [Wal.encodeWriteOpBatches]
  · rw [groupPrepare_db, hnext]

theorem Tracks.settle (h : Tracks g ps own) (hplaces : g.results.length = ps.length)
    (hnext : g.nextI = ps.length)
    (hf : g.failed = false) (db : Db) (io : WaveIo) :
    Settled (Group.groupAppendOps db g io).2 ps own where
  toTracks := h.groupAppendOps db io
  places := (groupAppendOps_places db g io).2.trans hplaces
  next := (groupAppendOps_places db g io).1.trans hnext
  drained := groupAppendOps_pending db g io hf

/-- What starting a group can do: nothing, for no members; refuse; prepare and fail the
flush; or prepare and encode. -/
theorem groupStart_cases (db : Db) (inputs : List Input) (io : WaveIo) :
    (inputs = [] ∧ groupStart db inputs io = (db, .ok (.empty 0))) ∨
    (∃ e, inputs ≠ [] ∧ io.refusal = some e ∧
      groupStart db inputs io = (db, .error (List.replicate inputs.length (.error e)))) ∨
    (∃ e, inputs ≠ [] ∧ io.refusal = none ∧ groupStart db inputs io =
      (waveDb io.spill 0 db inputs, .error (List.replicate inputs.length (.error e)))) ∨
    (inputs ≠ [] ∧ io.refusal = none ∧ ∃ g, Encoded db (.empty inputs.length)
      (waveDb io.spill 0 db inputs) g [] ∧
      g = (groupPrepare io.spill 0 0 db (.empty inputs.length) inputs).2 ∧
      groupStart db inputs io = ((groupAppendOps (waveDb io.spill 0 db inputs) g io).1,
        .ok (groupAppendOps (waveDb io.spill 0 db inputs) g io).2)) := by
  by_cases hnil : inputs = []
  · subst hnil
    exact .inl ⟨rfl, rfl⟩
  cases hr : io.refusal with
  | some e => exact .inr (.inl ⟨e, hnil, rfl, by simp [groupStart, hnil, hr]⟩)
  | none =>
    have henc := Encoded.prepare io.spill 0 0 db (.empty inputs.length) inputs
    rw [groupPrepare_db] at henc
    cases hv : io.vlog with
    | some e =>
      refine .inr (.inr (.inl ⟨vlogFlushError e, hnil, rfl, ?_⟩))
      simp [groupStart, hnil, hr, hv, groupPrepare_db]
    | none =>
      refine .inr (.inr (.inr ⟨hnil, rfl, _, henc, rfl, ?_⟩))
      simp [groupStart, hnil, hr, hv, groupPrepare_db]

theorem groupStart_ok {ws : List PendingWrite} {io : WaveIo}
    (h : groupStart db (ws.map input) io = (db', .ok g)) :
    Settled g ws (preparedWave io.spill 0 db (ws.map input)) ∧
    ∃ slots, Encoded db (.empty ws.length) db' g slots := by
  rcases groupStart_cases db (ws.map input) io with
    ⟨hnil, heq⟩ | ⟨e, _, _, heq⟩ | ⟨e, _, _, heq⟩ | ⟨_, _, g₁, henc, hg₁, heq⟩ <;> rw [heq] at h
  · have hws : ws = [] := by simpa using hnil
    subst hws
    cases h
    exact ⟨⟨Tracks.start 0, rfl, rfl, rfl⟩, [], .refl db _⟩
  · cases h
  · cases h
  · obtain ⟨rfl, hg⟩ := Prod.mk.inj h
    obtain rfl := Except.ok.inj hg
    rw [length_map] at henc hg₁
    have hempty : (empty ws.length).results.length = ws.length := by
      simp [empty]
    have ht := (Tracks.start ws.length).groupPrepare db io.spill 0 0 ws rfl (by simp [hempty])
    obtain ⟨_, hf, hn, hl⟩ := groupPrepare_frame io.spill 0 0 db (.empty ws.length) (ws.map input)
    rw [← hg₁] at ht hf hn hl
    have hs := ht.settle (by rw [hl, hempty]; rfl) (by rw [hn]; rfl) (by rw [hf]; rfl)
      (waveDb io.spill 0 db (ws.map input)) io
    obtain ⟨slots, hslots⟩ := groupAppendOps_encoded (waveDb io.spill 0 db (ws.map input)) g₁ io
    exact ⟨by simpa using hs, _, henc.trans hslots⟩

/-- A group that cannot start answers every member with an error and encodes nothing. -/
theorem groupStart_error {inputs : List Input} {io : WaveIo}
    {rs : List (Result Nat)} (h : groupStart db inputs io = (db', .error rs)) :
    rs.length = inputs.length ∧ (∀ r ∈ rs, ∃ e, r = .error e) ∧
    ∃ next, db' = { db with nextSeq := next } := by
  rcases groupStart_cases db inputs io with
    ⟨_, heq⟩ | ⟨e, _, _, heq⟩ | ⟨e, _, _, heq⟩ | ⟨_, _, _, _, _, heq⟩ <;> rw [heq] at h
  · cases h
  · cases h
    exact ⟨by simp, fun r hr => ⟨_, eq_of_mem_replicate hr⟩, db.nextSeq, rfl⟩
  · obtain ⟨next, hnext⟩ := waveDb_eq io.spill 0 db inputs
    cases h
    exact ⟨by simp, fun r hr => ⟨_, eq_of_mem_replicate hr⟩, next, hnext⟩
  · obtain ⟨_, hr⟩ := Prod.mk.inj h
    cases hr

theorem groupAbsorb_failed (db : Db) (g : GroupInFlight) (inputs : List Input) (io : WaveIo)
    (hf : g.failed = true) : groupAbsorb db g inputs io = (db, g) := by
  simp [groupAbsorb, hf]

theorem groupAbsorb_nil (db : Db) (g : GroupInFlight) (io : WaveIo) :
    groupAbsorb db g [] io = (db, g) := by
  simp [groupAbsorb]

theorem Tracks.grow (h : Tracks g ps own) (n : Nat) : Tracks (g.grow n) ps own where
  own_length := h.own_length
  room := by simpa [GroupInFlight.grow] using Nat.le_add_right_of_le h.room
  unanswered := by
    intro i r hi hget
    simp only [GroupInFlight.grow] at hget
    by_cases hlt : i < g.results.length
    · rw [getElem?_append_left hlt] at hget
      exact h.unanswered i r hi hget
    · rw [getElem?_append_right (by omega), getElem?_replicate] at hget
      split at hget <;> simp at hget
  slot := h.slot
  sync := h.sync
  early := by
    intro i p seq hp hget
    simp only [GroupInFlight.grow] at hget
    by_cases hlt : i < g.results.length
    · rw [getElem?_append_left hlt] at hget
      exact h.early i p seq hp hget
    · rw [getElem?_append_right (by omega), getElem?_replicate] at hget
      split at hget <;> simp at hget
  kept := h.kept

theorem Settled.groupAbsorb (h : Settled g ps own) (hf : g.failed = false) (db : Db)
    (ws : List PendingWrite) (io : WaveIo) :
    Settled (Group.groupAbsorb db g (ws.map input) io).2 (ps ++ ws)
    (own ++ preparedWave io.spill 0 db (ws.map input)) ∧
      ∃ slots, Encoded db g (Group.groupAbsorb db g (ws.map input) io).1
      (Group.groupAbsorb db g (ws.map input) io).2 slots := by
  by_cases hws : ws = []
  · subst hws
    rw [map_nil, groupAbsorb_nil]
    exact ⟨by simpa [preparedWave] using h, [], .refl db g⟩
  have hgrow := h.toTracks.grow ws.length
  have hlen : (g.grow ws.length).results.length = ps.length + ws.length := by
    simp [grow, h.places, h.next]
  have hnext : (g.grow ws.length).nextI = ps.length + ws.length := by
    simp [grow, h.next]
  have henc : Encoded db g db (g.grow ws.length) [] :=
    ⟨by simp [grow], by simp [Wal.encodeWriteOpBatches], rfl⟩
  have ht := hgrow.groupPrepare db io.spill ps.length 0 ws rfl (Nat.le_of_eq hlen.symm)
  obtain ⟨_, hf₂, hn₂, hl₂⟩ :=
    groupPrepare_frame io.spill ps.length 0 db (g.grow ws.length) (ws.map input)
  have hprep := henc.trans (Encoded.prepare io.spill ps.length 0 db (g.grow ws.length) (ws.map input))
  have hcond : ¬ (g.failed || (ws.map input).isEmpty) = true := by
    simpa [hf] using hws
  simp only [Group.groupAbsorb, if_neg hcond, h.next, length_map]
  generalize Group.groupPrepare io.spill ps.length 0 db (g.grow ws.length) (ws.map input) = r
    at ht hf₂ hn₂ hl₂ hprep
  cases io.vlog with
  | some e =>
    refine ⟨⟨ht.failPending _, ?_, ?_, rfl⟩, [], ?_, hprep.wal, hprep.store⟩
    · simp [hl₂, hlen]
    · simp [hn₂, hnext]
    · simpa using hprep.appended
  | none =>
    obtain ⟨slots, hslots⟩ := groupAppendOps_encoded r.1 r.2 io
    exact ⟨ht.settle (by rw [hl₂, hlen]; simp) (by rw [hn₂, hnext]; simp)
      (by rw [hf₂]; exact hf) r.1 io, _, hprep.trans hslots⟩

end PedraDb.Group
