import Mathlib.Data.Set.Finite.Lemmas

/-! Versions in layers.

A store keeps versions in tables and asks the tables in a fixed order. A reader sees some
of the versions and wants the one of the highest rank among them. The order answers right
if the first table with a version the reader sees has, among what was met so far, one that
no later table exceeds: `Fronts`. `Tops` is the relation between two tables that gives
this when it holds pairwise; it is what moves of tables keep or break. Where a reader may
pass over some versions, less is needed: `Leads` and `Heads`. -/
namespace Layered
open List
variable {α : Type} (sees : α → Prop) (rank : α → Nat) {ls : List (List α)} {ops t : List α}
    {met : List α}

/-- If the first table has a version that is seen, the other does not exceed it. -/
def Tops (t u : List α) : Prop := ∀ w ∈ u, sees w → (∃ v ∈ t, sees v) → ∃ v ∈ t, sees v ∧ rank w ≤ rank v

/-- From a table with a version that is seen on, nothing exceeds what was met. -/
def Fronts (met : List α) : List (List α) → Prop
  | [] => True
  | t :: rest =>
    ((∃ v ∈ t, sees v) → ∀ w ∈ rest.flatten, sees w → ∃ v ∈ met ++ t, sees v ∧ rank w ≤ rank v) ∧
      Fronts (met ++ t) rest

/-- A version that is seen and that none exceeds. -/
structure Newest (ops : List α) (c : α) : Prop where
  mem : c ∈ ops
  seen : sees c
  top : ∀ w ∈ ops, sees w → rank w ≤ rank c

variable {sees rank}

theorem newest_or_none (sees : α → Prop) (rank : α → Nat) (ops : List α) :
    (∃ c, Newest sees rank ops c) ∨ ∀ v ∈ ops, ¬ sees v := by
  by_cases h : ∃ v ∈ ops, sees v
  · obtain ⟨c, hc, htop⟩ :=
      Set.exists_max_image {v | v ∈ ops ∧ sees v} rank (ops.finite_toSet.subset fun _ hv => hv.1) h
    exact .inl ⟨c, hc.1, hc.2, fun w hw hsees => htop w ⟨hw, hsees⟩⟩
  · exact .inr (by simpa using h)

theorem Newest.unique {c d : α} (hc : Newest sees rank ops c) (hd : Newest sees rank ops d)
    (hinj : ∀ v ∈ ops, ∀ w ∈ ops, rank v = rank w → v = w) : c = d :=
  hinj c hc.mem d hd.mem (Nat.le_antisymm (hd.top c hc.mem hc.seen) (hc.top d hd.mem hd.seen))

/-- The newest version stays the newest among more, if what is added does not exceed
something seen. -/
theorem Newest.extend {more : List α} {c : α} (hc : Newest sees rank ops c) (hsub : ∀ v ∈ ops, v ∈ more)
    (hle : ∀ w ∈ more, sees w → ∃ v ∈ ops, sees v ∧ rank w ≤ rank v) : Newest sees rank more c := by
  refine ⟨hsub c hc.mem, hc.seen, fun w hw hsees => ?_⟩
  obtain ⟨v, hv, hvsees, hwv⟩ := hle w hw hsees
  exact Nat.le_trans hwv (hc.top v hv hvsees)

/-! ### Tables in order -/

theorem Tops.nil_left (u : List α) : Tops sees rank [] u := fun _ _ _ h => by simp at h

theorem Tops.of_unseen {u : List α} (h : ¬ ((∃ v ∈ t, sees v) ∧ ∃ w ∈ u, sees w)) : Tops sees rank t u :=
  fun w hw hsees hv => absurd ⟨hv, w, hw, hsees⟩ h

theorem Tops.append_left {t' u : List α} (h : Tops sees rank t u) (h' : Tops sees rank t' u) :
    Tops sees rank (t ++ t') u := by
  rintro w hw hsees ⟨v, hv, hvsees⟩
  rcases mem_append.mp hv with hv | hv
  · obtain ⟨x, hx, hrest⟩ := h w hw hsees ⟨v, hv, hvsees⟩
    exact ⟨x, mem_append_left _ hx, hrest⟩
  · obtain ⟨x, hx, hrest⟩ := h' w hw hsees ⟨v, hv, hvsees⟩
    exact ⟨x, mem_append_right _ hx, hrest⟩

theorem fronts_of_pairwise (h : ls.Pairwise (Tops sees rank)) (met : List α) :
    Fronts sees rank met ls := by
  induction ls generalizing met with
  | nil => trivial
  | cons t rest ih =>
    obtain ⟨htop, hrest⟩ := pairwise_cons.mp h
    refine ⟨fun hv w hw hsees => ?_, ih hrest _⟩
    obtain ⟨u, hu, hwu⟩ := mem_flatten.mp hw
    obtain ⟨v, hvt, hvsees, hle⟩ := htop u hu w hwu hsees hv
    exact ⟨v, mem_append_right _ hvt, hvsees, hle⟩

variable {ls' : List (List α)}

/-- Two parts of an order: the second is met after the first, and what the second adds
does not exceed a table of the first that is seen. -/
theorem fronts_append (h : Fronts sees rank met ls) (h' : Fronts sees rank (met ++ ls.flatten) ls')
    (hcross : ∀ pre t post, ls = pre ++ t :: post → (∃ v ∈ t, sees v) → ∀ w ∈ ls'.flatten, sees w →
      ∃ v ∈ met ++ pre.flatten ++ t, sees v ∧ rank w ≤ rank v) : Fronts sees rank met (ls ++ ls') := by
  induction ls generalizing met with
  | nil => simpa [Fronts] using h'
  | cons t rest ih =>
    rw [cons_append]
    refine ⟨fun hv w hw hsees => ?_, ih h.2 (by simpa using h') fun pre u post heq hu w hw hsees => ?_⟩
    · rw [flatten_append] at hw
      rcases mem_append.mp hw with hw | hw
      · exact h.1 hv w hw hsees
      · simpa using hcross [] t rest rfl hv w hw hsees
    · subst heq
      simpa using hcross (t :: pre) u post rfl hu w hw hsees

/-! ### Versions that stop a walk

Some versions a reader sees do not answer by themselves: a walk notes them and goes on.
Then only the tables with a version that stops it have to be in order. -/

section Leads
variable {stops : α → Prop}

variable (stops sees rank) in
/-- If the first table has a version that stops the walk, the other does not exceed it. -/
def Heads (t u : List α) : Prop := (∃ v ∈ t, stops v) → ∀ w ∈ u, sees w → ∃ v ∈ t, sees v ∧
    rank w ≤ rank v

variable (stops sees rank) in
/-- From a table with a version that stops the walk on, nothing exceeds what was met. -/
def Leads (met : List α) : List (List α) → Prop
  | [] => True
  | t :: rest =>
    ((∃ v ∈ t, stops v) → ∀ w ∈ rest.flatten, sees w → ∃ v ∈ met ++ t, sees v ∧ rank w ≤ rank v) ∧
      Leads (met ++ t) rest

theorem Fronts.leads (hstops : ∀ v, stops v → sees v) (h : Fronts sees rank met ls) :
    Leads sees rank stops met ls := by
  induction ls generalizing met with
  | nil => trivial
  | cons t rest ih =>
    refine ⟨fun ⟨v, hv, hstop⟩ => h.1 ⟨v, hv, hstops v hstop⟩, ih h.2⟩

theorem leads_of_pairwise (h : ls.Pairwise (Heads sees rank stops)) (met : List α) :
    Leads sees rank stops met ls := by
  induction ls generalizing met with
  | nil => trivial
  | cons t rest ih =>
    obtain ⟨hhead, hrest⟩ := pairwise_cons.mp h
    refine ⟨fun hv w hw hsees => ?_, ih hrest _⟩
    obtain ⟨u, hu, hwu⟩ := mem_flatten.mp hw
    obtain ⟨v, hvt, hvsees, hle⟩ := hhead u hu hv w hwu hsees
    exact ⟨v, mem_append_right _ hvt, hvsees, hle⟩

theorem Leads.drop (h : Leads sees rank stops met (ls ++ ls')) :
    Leads sees rank stops (met ++ ls.flatten) ls' := by
  induction ls generalizing met with
  | nil => simpa using h
  | cons t ls ih => simpa using ih h.2

/-- **The first table that stops the walk decides.** The newest version among what was met
up to it is the newest of all. -/
theorem Leads.newest {rest : List (List α)} {c : α} (h : Leads sees rank stops met (t :: rest))
    (ht : ∃ v ∈ t, stops v) (hc : Newest sees rank (met ++ t) c) :
    Newest sees rank (met ++ (t :: rest).flatten) c := by
  refine hc.extend (fun v hv => ?_) (fun w hw hsees => ?_)
  · rw [flatten_cons, ← append_assoc]
    exact mem_append_left _ hv
  · rw [flatten_cons, ← append_assoc] at hw
    rcases mem_append.mp hw with hw | hw
    · exact ⟨w, hw, hsees, le_rfl⟩
    · exact h.1 ht w hw hsees

theorem Heads.of_lt (hstops : ∀ v, stops v → sees v) {u : List α}
    (h : ∀ v ∈ t, ∀ w ∈ u, sees v → sees w → rank w ≤ rank v) : Heads sees rank stops t u :=
  fun ⟨v, hv, hstop⟩ w hw hsees => ⟨v, hv, hstops v hstop, h v hv w hw (hstops v hstop) hsees⟩

end Leads

/-! ### Caches

Copies of tables asked in front of the tables themselves. A copy that is seen must not be
exceeded by anything in the store that the copies up to it lack. -/

variable (sees rank) in
/-- From a copy with a version that is seen on, the store does not exceed the copies. -/
def Mirrors (cs : List (List α)) (ops : List α) : Prop :=
  ∀ pre c post, cs = pre ++ c :: post → (∃ v ∈ c, sees v) → ∀ w ∈ ops, sees w →
    ∃ v ∈ pre.flatten ++ c, sees v ∧ rank w ≤ rank v

theorem Mirrors.nil (ops : List α) : Mirrors sees rank [] ops := by
  intro pre c post heq
  simp at heq

variable {cs : List (List α)}

theorem Mirrors.cons (h : Mirrors sees rank cs ops) (htop : Tops sees rank t ops) :
    Mirrors sees rank (t :: cs) (t ++ ops) := by
  intro pre c post heq hc w hw hsees
  cases pre with
  | nil =>
    obtain ⟨rfl, _⟩ : t = c ∧ cs = post := by simpa using heq
    rcases mem_append.mp hw with hw | hw
    · exact ⟨w, by simpa using hw, hsees, le_rfl⟩
    · simpa using htop w hw hsees hc
  | cons u pre =>
    obtain ⟨rfl, hcs⟩ : t = u ∧ cs = pre ++ c :: post := by simpa using heq
    rcases mem_append.mp hw with hw | hw
    · exact ⟨w, by simp [hw], hsees, le_rfl⟩
    · obtain ⟨v, hv, hvsees, hle⟩ := h pre c post hcs hc w hw hsees
      refine ⟨v, ?_, hvsees, hle⟩
      rw [flatten_cons, append_assoc]
      exact mem_append_right _ hv

theorem Mirrors.left {ds : List (List α)} (h : Mirrors sees rank (cs ++ ds) ops) :
    Mirrors sees rank cs ops := by
  intro pre c post heq
  exact h pre c (post ++ ds) (by simp [heq])

variable {c : List α}

theorem Mirrors.last (h : Mirrors sees rank (cs ++ [c]) ops) (hc : ∃ v ∈ c, sees v) {w : α}
    (hw : w ∈ ops) (hsees : sees w) :
    ∃ v ∈ cs.flatten ++ c, sees v ∧ rank w ≤ rank v :=
  h cs c [] rfl hc w hw hsees

theorem Mirrors.concat (h : Mirrors sees rank cs ops)
    (hlast : (∃ v ∈ c, sees v) → ∀ w ∈ ops, sees w → ∃ v ∈ cs.flatten ++ c, sees v ∧ rank w ≤ rank v) :
    Mirrors sees rank (cs ++ [c]) ops := by
  intro pre d post heq hd w hw hsees
  rcases eq_nil_or_concat post with rfl | ⟨post, e, rfl⟩
  · obtain ⟨rfl, rfl⟩ : cs = pre ∧ c = d := by simpa using heq
    exact hlast hd w hw hsees
  · have heq' : cs ++ [c] = (pre ++ d :: post) ++ [e] := by simpa using heq
    obtain ⟨rfl, _⟩ := append_inj' heq' rfl
    exact h pre d post rfl hd w hw hsees

theorem Mirrors.fronts (h : Mirrors sees rank cs ops)
    (hwithin : ∀ v ∈ cs.flatten, sees v → ∃ w ∈ ops, sees w ∧ rank v ≤ rank w) (met : List α) :
    Fronts sees rank met cs := by
  suffices hsuff : ∀ pre rest, cs = pre ++ rest → (∀ v ∈ pre.flatten, v ∈ met) →
    Fronts sees rank met rest from
    hsuff [] cs rfl (by simp)
  intro pre rest
  induction rest generalizing pre met with
  | nil => exact fun _ _ => trivial
  | cons c rest ih =>
    intro heq hmet
    refine ⟨fun hc w hw hsees => ?_, ih (met ++ c) (pre ++ [c]) (by simp [heq]) fun v hv => ?_⟩
    · obtain ⟨w', hw', hsees', hle'⟩ := hwithin w (by simp [heq, hw]) hsees
      obtain ⟨v, hv, hvsees, hle⟩ := h pre c rest heq hc w' hw' hsees'
      refine ⟨v, ?_, hvsees, Nat.le_trans hle' hle⟩
      rcases mem_append.mp hv with hv | hv
      · exact mem_append_left _ (hmet v hv)
      · exact mem_append_right _ hv
    · rw [flatten_append, flatten_singleton] at hv
      rcases mem_append.mp hv with hv | hv
      · exact mem_append_left _ (hmet v hv)
      · exact mem_append_right _ hv

end Layered
