import PedraDb.Families.Codec
import PedraDb.Layers.Scan
import PedraDb.Library.Chunks
import PedraDb.Library.Cursor

/-! Windowed iteration over a family.

An iterator holds a page of rows and refills it when it walks off the page: forward from
the last row of the page on, backward from checkpoints which the first scan has left at
every page's start. The rows a walk shows are those of one scan of the family
(`Forward.advance`, `Backward.advance`): a forward walk stands at the start of what is left
of them, a backward walk at the end. -/
namespace PedraDb.Families
open List
variable {key key' : Key}

open Bytes (Bound)
open Layers (Distinct visibleRange)

abbrev Row := Key × Value

/-- What a DB holds at the sequence an iterator reads at. Reads of some windows may fail. -/
structure Content where
  entries : List WriteOp
  distinct : Distinct entries
  seq : Nat
  fails : Bound → Bound → Bool
  known : List Key
  defaultRaw : Bool

open Content

namespace Content
variable (c : Content) (cf : Key)

def encode (key : Key) : Key := encodeCfKey cf key c.defaultRaw

def decode (key : Key) : Key := decodeCfKey cf key c.defaultRaw

def cfStart : Bound := (cfBounds cf c.defaultRaw).1

def cfEnd : Bound := (cfBounds cf c.defaultRaw).2

/-- The live rows of a window of stored keys, or an error. -/
def tryScanWindowAt (start stop : Bound) : Option (List Row) :=
  if c.fails start stop then none else some (visibleRange c.entries c.seq start stop)

end Content

def iterWindow : Nat := 2048

def usizeMax : Nat := 2 ^ 64 - 1

section Pages
variable (c : Content) (cf : Key)

def pageForward (start stop : Bound) (limit : Nat) : Option (List Row) :=
  (c.tryScanWindowAt start stop).map fun rows => (rows.map fun r => (c.decode cf r.1, r.2)).take limit

/-- The last page of a scan, kept as a ring, and the stored keys the pages start at, but for
the last of those. -/
def pageLastNWithCheckpoints (start stop : Bound) (n : Nat) : Option (List Row × List Key) :=
  (c.tryScanWindowAt start stop).map fun rows =>
    let p := rows.foldl (Chunks.Kept.push n Prod.fst fun r => (c.decode cf r.1, r.2)) ⟨[], [], 0⟩
    (p.ring, p.marks.dropLast)

end Pages

structure DBIterator where
  items : List Row
  idx : Nat
  reverse : Bool
  cfEnd : Bound
  resumeFwd : Key
  resumeRev : Key
  revCheckpoints : List Key
  exhausted : Bool
  err : Bool
  deriving DecidableEq

open DBIterator

namespace DBIterator

def valid (it : DBIterator) : Bool := decide (it.idx < it.items.length)

def current (it : DBIterator) : Option Row := it.items[it.idx]?

def invalidate (it : DBIterator) : DBIterator :=
  { it with exhausted := true, idx := if it.reverse then usizeMax else it.items.length }

section Advance
variable (c : Content) (cf : Key)

section
variable (it : DBIterator)

def setPage (page : List Row) : DBIterator :=
  { it with
    resumeFwd := (page.getLast?.map fun r => c.encode cf r.1).getD it.resumeFwd
    resumeRev := (page.head?.map fun r => c.encode cf r.1).getD it.resumeRev
    items := page }

/-- Take the page a refill read: from its first row up, or from its last row down. A failed
read is noted. -/
def refill : Option (List Row) → DBIterator
  | some [] => it.invalidate
  | some page => { it.setPage c cf page with idx := if it.reverse then page.length - 1 else 0 }
  | none => { it with err := true }.invalidate

def refillForward : DBIterator :=
  if it.exhausted || it.items.isEmpty then it.invalidate
  else { it with resumeFwd := [] }.refill c cf
    (pageForward c cf (.excluded it.resumeFwd) it.cfEnd iterWindow)

def refillReverse : DBIterator :=
  if it.exhausted || it.items.isEmpty then it.invalidate
  else
    match it.revCheckpoints.getLast? with
    | none => { it with resumeRev := [] }.invalidate
    | some cp =>
      { it with resumeRev := [], revCheckpoints := it.revCheckpoints.dropLast }.refill c cf
        (pageForward c cf (.included cp) (.excluded it.resumeRev) iterWindow)

def advance : DBIterator :=
  if !it.valid then it
  else if it.reverse then
    if it.idx = 0 then it.refillReverse c cf else { it with idx := it.idx - 1 }
  else
    let it' := { it with idx := it.idx + 1 }
    if it'.items.length ≤ it'.idx then it'.refillForward c cf else it'

end

end Advance

end DBIterator

/-! ### Opening -/

inductive Direction where
  | forward
  | reverse
  deriving DecidableEq

inductive IteratorMode where
  | start
  | stop
  | seek (key : Key) (direction : Direction)
  deriving DecidableEq

structure IterBounds where
  lower : Option Key
  upper : Option Key

def IterBounds.none : IterBounds := ⟨.none, .none⟩

/-- A start bound raised to a key. -/
def maxIncluded : Bound → Key → Bound
  | .unbounded, k => .included k
  | .included s, k => if s < k then .included k else .included s
  | b, _ => b

/-- An end bound lowered to a key. -/
def minExcluded : Bound → Key → Bound
  | .unbounded, k => .excluded k
  | .excluded e, k => if k < e then .excluded k else .excluded e
  | b, _ => b

/-- Meant as the first key after `enc`; it is the first that does not start with `enc`. -/
def encodedSucc : Key → Option Key := Bytes.prefixEnd

section Open
variable (c : Content) (cf : Key)

def DBIterator.onPage (cfEnd : Bound) (items : List Row) (cps : List Key) (idx : Nat)
    (reverse : Bool) : DBIterator where
  items := items
  idx := idx
  reverse := reverse
  cfEnd := cfEnd
  resumeFwd := (items.getLast?.map fun r => c.encode cf r.1).getD []
  resumeRev := (items.head?.map fun r => c.encode cf r.1).getD []
  revCheckpoints := cps
  exhausted := items.isEmpty
  err := false

def scanCfAt (mode : IteratorMode) (bounds : IterBounds) : Option DBIterator :=
  if cf ≠ defaultFamily && !c.known.contains cf then none
  else
    let cfStart := match bounds.lower with
      | some lo => maxIncluded (c.cfStart cf) (c.encode cf lo)
      | none => c.cfStart cf
    let cfEnd := match bounds.upper with
      | some up => minExcluded (c.cfEnd cf) (c.encode cf up)
      | none => c.cfEnd cf
    let forward := fun lo =>
      (pageForward c cf lo cfEnd iterWindow).map fun page => onPage c cf cfEnd page [] 0 false
    let backward := fun hi => (pageLastNWithCheckpoints c cf cfStart hi iterWindow).map fun (page, cps) =>
      onPage c cf cfEnd page cps (page.length - 1) true
    match mode with
    | .start => forward cfStart
    | .seek k .forward =>
      forward (match bounds.lower with
        | some l => maxIncluded (.included (c.encode cf k)) (c.encode cf l)
        | none => .included (c.encode cf k))
    | .stop => backward cfEnd
    | .seek k .reverse =>
      backward (match encodedSucc (c.encode cf k) with
        | some s => match bounds.upper with
          | some up => minExcluded (.excluded s) (c.encode cf up)
          | none => .excluded s
        | none => cfEnd)

end Open

/-! ### The rows of a family -/

def Content.rows (c : Content) (cf : Key) : List Row :=
  (visibleRange c.entries c.seq (c.cfStart cf) (c.cfEnd cf)).map fun r => (c.decode cf r.1, r.2)

def aboveLower (lower : Option Key) (k : Key) : Bool := lower.all fun lo => decide (lo ≤ k)

def belowUpper (upper : Option Key) (k : Key) : Bool := upper.all fun hi => decide (k < hi)

def Content.bounded (c : Content) (cf : Key) (lower upper : Option Key) : List Row :=
  (c.rows cf).filter fun r => aboveLower lower r.1 && belowUpper upper r.1

abbrev Ascending (rows : List Row) : Prop := rows.Pairwise fun a b => a.1 < b.1

section Ends
variable {rows : List Row} {keep : Row → Bool}

/-- What a property that holds from some key on keeps of ascending rows is their end. -/
theorem Ascending.filter_suffix (h : Ascending rows)
    (hup : ∀ a b : Row, a.1 < b.1 → keep a = true → keep b = true) :
    rows.filter keep <:+ rows := by
  have hdrop : rows.dropWhile (fun r => !keep r) = rows.filter fun r => !!keep r :=
    Cursor.dropWhile_eq_filter h fun a b hlt hb => by simpa using mt (hup a b hlt) (by simpa using hb)
  simp only [Bool.not_not] at hdrop
  exact hdrop ▸ dropWhile_suffix _

theorem Ascending.filter_isPrefix (h : Ascending rows)
    (hdown : ∀ a b : Row, a.1 < b.1 → keep b = true → keep a = true) :
    rows.filter keep <+: rows :=
  Cursor.takeWhile_eq_filter h hdown ▸ takeWhile_prefix keep

end Ends

section Rows
variable (c : Content) (cf : Key)

theorem decode_encode (key : Key) : c.decode cf (c.encode cf key) = key :=
  decode_encodeCfKey cf c.defaultRaw key

/-- The stored keys of the window are those of the family with a property. -/
def Matches (start stop : Bound) (keep : Key → Bool) : Prop :=
  ∀ key, Bytes.inBounds start stop key = true ↔ ∃ user, key = c.encode cf user ∧ keep user = true

variable {c cf} {start stop : Bound} {keep : Key → Bool}

theorem Matches.mem_window (h : Matches c cf start stop keep) (r : Row) :
    r ∈ (visibleRange c.entries c.seq start stop).map (fun r => (c.decode cf r.1, r.2)) ↔
      keep r.1 = true ∧ ∃ v, Layers.Newest (c.encode cf r.1) c.seq c.entries v ∧ v.kind = .value ∧
      v.value = r.2 := by
  simp only [mem_map, Prod.exists]
  constructor
  · rintro ⟨key, value, hmem, rfl⟩
    obtain ⟨hrange, v, hv⟩ := (Layers.mem_visibleRange c.distinct).mp hmem
    obtain ⟨user, rfl, hkeep⟩ := (h key).mp hrange
    exact ⟨by rw [decode_encode]; exact hkeep, v, by rw [decode_encode]; exact hv⟩
  · rintro ⟨hkeep, v, hv⟩
    refine ⟨c.encode cf r.1, r.2, (Layers.mem_visibleRange c.distinct).mpr
      ⟨(h _).mpr ⟨r.1, rfl, hkeep⟩, v, hv⟩, ?_⟩
    rw [decode_encode]

theorem Matches.ascending (h : Matches c cf start stop keep) :
    Ascending ((visibleRange c.entries c.seq start stop).map fun r => (c.decode cf r.1, r.2)) := by
  refine pairwise_map.mpr (List.Pairwise.imp_of_mem ?_ Layers.visibleRange_sorted)
  rintro ⟨key, value⟩ ⟨key', value'⟩ hmem hmem' hlt
  obtain ⟨user, rfl, -⟩ := (h key).mp ((Layers.mem_visibleRange c.distinct).mp hmem).1
  obtain ⟨user', rfl, -⟩ := (h key').mp ((Layers.mem_visibleRange c.distinct).mp hmem').1
  simp only [decode_encode]
  exact (encodeCfKey_lt cf c.defaultRaw).mp hlt

variable (c cf)

theorem matches_all : Matches c cf (c.cfStart cf) (c.cfEnd cf) fun _ => true := by
  intro key
  rw [Content.cfStart, Content.cfEnd, mem_cfBounds]
  simp [Content.encode]

theorem rows_ascending : Ascending (c.rows cf) := (matches_all c cf).ascending

variable {c cf}

/-- **A window of stored keys is a part of the family's rows.** -/
theorem Matches.window_eq (h : Matches c cf start stop keep) :
    (visibleRange c.entries c.seq start stop).map (fun r => (c.decode cf r.1, r.2)) =
    (c.rows cf).filter fun r => keep r.1 := by
  refine Overlay.sorted_ext h.ascending ((rows_ascending c cf).filter _) fun r => ?_
  rw [h.mem_window, mem_filter, rows, (matches_all c cf).mem_window]
  simp [and_comm]

end Rows

/-! ### The windows of an iterator -/

section Windows
variable (c : Content) (cf : Key)

theorem encode_le : c.encode cf key ≤ c.encode cf key' ↔ key ≤ key' := encodeCfKey_le cf c.defaultRaw

theorem encode_lt : c.encode cf key < c.encode cf key' ↔ key < key' := encodeCfKey_lt cf c.defaultRaw

theorem encode_isPrefix : c.encode cf key <+: c.encode cf key' ↔ key <+: key' := by
  rw [encode, encode, encodeCfKey_eq, encodeCfKey_eq, prefix_append_right_inj]

theorem mem_family : (c.cfStart cf).above key = true ∧ (c.cfEnd cf).below key = true ↔
    ∃ user, key = c.encode cf user := by
  rw [← Bool.and_eq_true]
  exact mem_cfBounds cf c.defaultRaw key

/-- The family's keys above a start are those with a property, and nothing before the family is. -/
structure From (start : Bound) (low : Key → Bool) : Prop where
  inside : ∀ {key}, start.above key = true → (c.cfStart cf).above key = true
  keeps : ∀ user, start.above (c.encode cf user) = low user

/-- The same of an end. -/
structure UpTo (stop : Bound) (high : Key → Bool) : Prop where
  inside : ∀ {key}, stop.below key = true → (c.cfEnd cf).below key = true
  keeps : ∀ user, stop.below (c.encode cf user) = high user

theorem from_cfStart : From c cf (c.cfStart cf) fun _ => true :=
  ⟨id, fun user => ((mem_family c cf).mpr ⟨user, rfl⟩).1⟩

theorem upTo_cfEnd : UpTo c cf (c.cfEnd cf) fun _ => true :=
  ⟨id, fun user => ((mem_family c cf).mpr ⟨user, rfl⟩).2⟩

section
variable (k : Key)

theorem from_included : From c cf (.included (c.encode cf k)) fun u => decide (k ≤ u) :=
  ⟨fun h => Bound.above_mono (of_decide_eq_true h) ((from_cfStart c cf).keeps k),
    fun _ => decide_eq_decide.mpr (encode_le c cf)⟩

theorem from_excluded : From c cf (.excluded (c.encode cf k)) fun u => decide (k < u) :=
  ⟨fun h => Bound.above_mono (List.le_of_lt (of_decide_eq_true h)) ((from_cfStart c cf).keeps k),
    fun _ => decide_eq_decide.mpr (encode_lt c cf)⟩

theorem upTo_excluded : UpTo c cf (.excluded (c.encode cf k)) fun u => decide (u < k) :=
  ⟨fun h => Bound.below_mono (List.le_of_lt (of_decide_eq_true h)) ((upTo_cfEnd c cf).keeps k),
    fun _ => decide_eq_decide.mpr (encode_lt c cf)⟩

/-- Of the keys up to one and its extensions there are only the former, if there is none of the latter. -/
theorem upTo_regular {k u : Key} (h : (!(k.isPrefixOf u && u != k)) = true) :
    (decide (u ≤ k) || k.isPrefixOf u) = decide (u ≤ k) := by
  by_cases hpre : k.isPrefixOf u = true
  · have heq : u = k := by simpa [hpre] using h
    simp [heq]
  · simp [hpre]

/-- The end of a backward scan from a key. -/
def backwardStop : Bound :=
  match encodedSucc (c.encode cf k) with
  | some s => .excluded s
  | none => c.cfEnd cf

/-- **A backward scan from a key** starts at the last key that is not greater, or extends
it. -/
theorem upTo_backwardStop : UpTo c cf (backwardStop c cf k) fun u =>
    decide (u ≤ k) || k.isPrefixOf u := by
  have hstop : ∀ key, (backwardStop c cf k).below key = true ↔
      (c.cfEnd cf).below key = true ∧ (key ≤ c.encode cf k ∨ c.encode cf k <+: key) := by
    intro key
    rw [← Bytes.below_prefixStop]
    cases hs : Bytes.prefixEnd (c.encode cf k) with
    | none =>
      have h1 : backwardStop c cf k = c.cfEnd cf := by rw [backwardStop, encodedSucc, hs]
      have h2 : Bytes.prefixStop (c.encode cf k) = .unbounded := by rw [Bytes.prefixStop, hs]
      rw [h1, h2]
      exact ⟨fun h => ⟨h, rfl⟩, fun h => h.1⟩
    | some s =>
      have h1 : backwardStop c cf k = Bytes.prefixStop (c.encode cf k) := by
        rw [backwardStop, Bytes.prefixStop, encodedSucc, hs]
      rw [h1]
      refine ⟨fun h => ⟨?_, h⟩, fun h => h.2⟩
      rcases Bytes.below_prefixStop.mp h with hle | ⟨t, rfl⟩
      · exact Bound.below_mono hle ((upTo_cfEnd c cf).keeps k)
      · refine ((mem_family c cf).mpr ⟨k ++ t, ?_⟩).2
        rw [encode, encode, encodeCfKey_eq, encodeCfKey_eq, append_assoc]
  refine ⟨fun h => ((hstop _).mp h).1, fun user => ?_⟩
  rw [Bool.eq_iff_iff, hstop, encode_le, encode_isPrefix]
  simp [(upTo_cfEnd c cf).keeps user]

end

variable {c cf} {start stop : Bound} {low high : Key → Bool} {rows : List Row}

theorem From.suffix (h : From c cf start low) (hrows : Ascending rows) :
    (rows.filter fun r => low r.1) <:+ rows := by
  refine hrows.filter_suffix fun a b hlt ha => ?_
  rw [← h.keeps] at ha ⊢
  exact Bound.above_mono ((encode_le c cf).mpr (List.le_of_lt hlt)) ha

theorem UpTo.isPrefix (h : UpTo c cf stop high) (hrows : Ascending rows) :
    (rows.filter fun r => high r.1) <+: rows := by
  refine hrows.filter_isPrefix fun a b hlt hb => ?_
  rw [← h.keeps] at hb ⊢
  exact Bound.below_mono ((encode_le c cf).mpr (List.le_of_lt hlt)) hb

theorem From.lower (h : From c cf start low) (hstart : ∀ s, start ≠ .excluded s) (lower : Option Key) :
    From c cf (match lower with | some lo => maxIncluded start (c.encode cf lo) | none => start)
      fun u => low u && aboveLower lower u := by
  cases lower with
  | none => simpa [aboveLower] using h
  | some lo =>
    have habove : ∀ key, (maxIncluded start (c.encode cf lo)).above key =
        (start.above key && decide (c.encode cf lo ≤ key)) := by
      intro key
      cases start with
      | unbounded => rfl
      | included s =>
        rw [maxIncluded, ← apply_ite Bound.included]
        exact Bytes.ite_lt_le ..
      | excluded s => exact absurd rfl (hstart s)
    refine ⟨fun hkey => h.inside ?_, fun user => ?_⟩
    · rw [habove, Bool.and_eq_true] at hkey
      exact hkey.1
    · rw [habove, h.keeps]
      simp [aboveLower, encode_le]

theorem UpTo.upper (h : UpTo c cf stop high) (hstop : ∀ e, stop ≠ .included e) (upper : Option Key) :
    UpTo c cf (match upper with | some up => minExcluded stop (c.encode cf up) | none => stop)
      fun u => high u && belowUpper upper u := by
  cases upper with
  | none => simpa [belowUpper] using h
  | some up =>
    have hbelow : ∀ key, (minExcluded stop (c.encode cf up)).below key =
        (stop.below key && decide (key < c.encode cf up)) := by
      intro key
      cases stop with
      | unbounded => rfl
      | included e => exact absurd rfl (hstop e)
      | excluded e =>
        rw [minExcluded, ← apply_ite Bound.excluded]
        exact Bytes.lt_ite_lt ..
    refine ⟨fun hkey => h.inside ?_, fun user => ?_⟩
    · rw [hbelow, Bool.and_eq_true] at hkey
      exact hkey.1
    · rw [hbelow, h.keeps]
      simp [belowUpper, encode_lt]

theorem From.matches (hs : From c cf start low) (he : UpTo c cf stop high) :
    Matches c cf start stop fun u => low u && high u := by
  intro key
  rw [Bytes.inBounds, Bool.and_eq_true]
  constructor
  · rintro ⟨habove, hbelow⟩
    obtain ⟨user, rfl⟩ := (mem_family c cf).mp ⟨hs.inside habove, he.inside hbelow⟩
    exact ⟨user, rfl, by simp [← hs.keeps, ← he.keeps, habove, hbelow]⟩
  · rintro ⟨user, rfl, h⟩
    rwa [hs.keeps, he.keeps, ← Bool.and_eq_true]

end Windows

section Pages
variable {c : Content} {cf : Key} (hreads : ∀ start stop, c.fails start stop = false)
include hreads

theorem tryScanWindowAt_eq (start stop : Bound) :
    c.tryScanWindowAt start stop = some (visibleRange c.entries c.seq start stop) := by
  rw [tryScanWindowAt, hreads]
  rfl

variable {start stop : Bound} {keep : Key → Bool}

theorem Matches.pageForward (h : Matches c cf start stop keep) (limit : Nat) :
    pageForward c cf start stop limit = some (((c.rows cf).filter fun r => keep r.1).take limit) := by
  rw [Families.pageForward, tryScanWindowAt_eq hreads, Option.map_some, h.window_eq]

theorem Matches.pageLast (h : Matches c cf start stop keep) {n : Nat} (hn : 0 < n) :
    ∃ cps, pageLastNWithCheckpoints c cf start stop n =
        some (((c.rows cf).filter fun r => keep r.1).drop
          (((c.rows cf).filter fun r => keep r.1).length - n), cps) ∧
      Chunks.Chunked n (fun r : Row => c.encode cf r.1)
        (((c.rows cf).filter fun r => keep r.1).take
          (((c.rows cf).filter fun r => keep r.1).length - n)) cps := by
  have hpass := Chunks.pass_foldl Prod.fst (fun r : Row => (c.decode cf r.1, r.2)) hn
    (visibleRange c.entries c.seq start stop)
  rw [pageLastNWithCheckpoints, tryScanWindowAt_eq hreads, Option.map_some]
  generalize (visibleRange c.entries c.seq start stop).foldl
    (Chunks.Kept.push n Prod.fst fun r : Row => (c.decode cf r.1, r.2)) ⟨[], [], 0⟩ = p at hpass ⊢
  have hlen : (visibleRange c.entries c.seq start stop).length =
      ((c.rows cf).filter fun r => keep r.1).length := by
    rw [← h.window_eq, length_map]
  refine ⟨p.marks.dropLast, ?_, ?_⟩
  · simp [hpass.ring, h.window_eq, hlen]
  · rw [← h.window_eq, length_map, ← map_take]
    refine hpass.chunks.map fun r hr => ?_
    obtain ⟨user, hkey, -⟩ := (h r.1).mp ((Layers.mem_visibleRange c.distinct).mp (mem_of_mem_take hr)).1
    show c.encode cf (c.decode cf r.1) = r.1
    rw [hkey, decode_encode]

end Pages

/-! ### Walks -/

theorem iterWindow_pos : 0 < iterWindow := by decide

theorem iterWindow_le : iterWindow ≤ usizeMax := by decide

attribute [local irreducible] iterWindow

theorem take_window_ne {rows : List Row} (h : rows ≠ []) : rows.take iterWindow ≠ [] := by
  have := iterWindow_pos
  rw [Ne, take_eq_nil_iff]
  rintro (hn | hnil)
  · omega
  · exact h hnil

section Walks
variable (c : Content) (cf : Key)

/-- A forward iterator stands at the start of what is left of the rows. -/
structure Forward (it : DBIterator) (left : List Row) : Prop where
  reverse : it.reverse = false
  position : left = [] ∧ it.valid = false ∨
    ∃ items last tail high, it.items = items ++ [last] ∧ it.idx < it.items.length ∧
    left = it.items.drop it.idx ++ tail ∧
      it.exhausted = false ∧ it.resumeFwd = c.encode cf last.1 ∧ UpTo c cf it.cfEnd high ∧
      (it.items ++ tail) <:+ (c.rows cf).filter fun r => high r.1

/-- A backward iterator stands at the end of what is left of the rows. -/
structure Backward (it : DBIterator) (left : List Row) : Prop where
  reverse : it.reverse = true
  position : left = [] ∧ it.valid = false ∨
    ∃ head first items, it.items = first :: items ∧ it.idx < it.items.length ∧
    it.items.length ≤ iterWindow ∧
      left = head ++ it.items.take (it.idx + 1) ∧ it.exhausted = false ∧
      it.resumeRev = c.encode cf first.1 ∧
      Chunks.Chunked iterWindow (fun r : Row => c.encode cf r.1) head it.revCheckpoints ∧
      (head ++ it.items) <:+: c.rows cf

variable {c cf} {it : DBIterator} {left : List Row}

theorem Forward.current (h : Forward c cf it left) : it.current = left.head? := by
  rcases h.position with ⟨rfl, hvalid⟩ | ⟨items, last, tail, high, -, hidx, rfl, -⟩
  · simpa [current, valid] using hvalid
  · rw [current, head?_append, head?_drop, getElem?_eq_getElem hidx]
    rfl

theorem Backward.current (h : Backward c cf it left) : it.current = left.getLast? := by
  rcases h.position with ⟨rfl, hvalid⟩ | ⟨head, first, items, -, hidx, -, rfl, -⟩
  · simpa [current, valid] using hvalid
  · rw [current, take_succ_eq_append_getElem hidx, ← append_assoc, getLast?_concat,
      getElem?_eq_getElem hidx]

theorem invalidate_valid (h : it.reverse = true → it.items.length ≤ iterWindow) :
    it.invalidate.valid = false := by
  rw [valid, invalidate]
  cases hrev : it.reverse with
  | false => simp
  | true =>
    have := h hrev
    simp only [if_true, decide_eq_false_iff_not, not_lt]
    exact le_trans this iterWindow_le

variable {high : Key → Bool}

theorem Forward.of_page (hne : left ≠ []) (hrev : it.reverse = false)
    (hitems : it.items = left.take iterWindow) (hidx : it.idx = 0) (hex : it.exhausted = false)
    (hresume : ∀ r, it.items.getLast? = some r → it.resumeFwd = c.encode cf r.1)
    (hstop : UpTo c cf it.cfEnd high)
    (hleft : left <:+ (c.rows cf).filter fun r => high r.1) : Forward c cf it left := by
  have htake := take_window_ne hne
  rw [← hitems] at htake
  have hlast := dropLast_append_getLast htake
  refine ⟨hrev, .inr ⟨_, _, left.drop iterWindow, high, hlast.symm, ?_, ?_, hex, ?_, hstop, ?_⟩⟩
  · rw [hidx]
    exact length_pos_iff.mpr htake
  · rw [hidx, drop_zero, hitems, take_append_drop]
  · exact hresume _ (getLast?_eq_some_getLast htake)
  · rwa [hitems, take_append_drop]

theorem onPage_forward {stop : Bound} (hstop : UpTo c cf stop high)
    (hleft : left <:+ (c.rows cf).filter fun r => high r.1) :
    Forward c cf (onPage c cf stop (left.take iterWindow) [] 0 false) left := by
  by_cases hnil : left = []
  · exact ⟨rfl, .inl ⟨hnil, by simp [valid, onPage, hnil]⟩⟩
  · refine .of_page hnil rfl rfl rfl ?_ (fun r hr => ?_) hstop hleft
    · exact isEmpty_eq_false_iff.mpr (take_window_ne hnil)
    · exact congrArg (fun x => (Option.map _ x).getD _) hr

theorem onPage_backward (hleft : left <:+: c.rows cf) (cfEnd : Bound) {cps : List Key}
    (hcps : Chunks.Chunked iterWindow (fun r : Row => c.encode cf r.1)
      (left.take (left.length - iterWindow)) cps) :
    Backward c cf (onPage c cf cfEnd (left.drop (left.length - iterWindow)) cps
      ((left.drop (left.length - iterWindow)).length - 1) true) left := by
  refine ⟨rfl, ?_⟩
  by_cases hnil : left = []
  · exact .inl ⟨hnil, by simp [valid, onPage, hnil]⟩
  have hlen : 0 < left.length := length_pos_iff.mpr hnil
  have hne : left.drop (left.length - iterWindow) ≠ [] := by
    have := iterWindow_pos
    rw [Ne, drop_eq_nil_iff]
    omega
  have hpos : 0 < (left.drop (left.length - iterWindow)).length := length_pos_iff.mpr hne
  have hle : (left.drop (left.length - iterWindow)).length ≤ iterWindow := by
    rw [length_drop]
    omega
  obtain ⟨first, items, hfirst⟩ := exists_cons_of_ne_nil hne
  refine .inr ⟨left.take (left.length - iterWindow), first, items, hfirst,
    Nat.sub_lt hpos Nat.one_pos, hle, ?_, ?_, ?_, hcps, ?_⟩
  · rw [onPage, Nat.sub_add_cancel hpos, take_length, take_append_drop]
  · simp [onPage, hfirst]
  · simp [onPage, hfirst]
  · rwa [onPage, take_append_drop]

variable (hreads : ∀ start stop, c.fails start stop = false)
include hreads

theorem page_after {stop : Bound} (hstop : UpTo c cf stop high) {items tail : List Row} {last : Row}
    (hrows : (items ++ [last] ++ tail) <:+ (c.rows cf).filter fun r => high r.1) :
    pageForward c cf (.excluded (c.encode cf last.1)) stop iterWindow = some (tail.take iterWindow) := by
  obtain ⟨before, hrows⟩ := hrows
  have hsplit : ((c.rows cf).filter fun r => high r.1) = (before ++ items) ++ last :: tail := by
    simp [← hrows]
  rw [((from_excluded c cf last.1).matches hstop).pageForward hreads, ← filter_filter,
    (Cursor.filter_sides ((rows_ascending c cf).filter _) hsplit).1]

omit hreads in
theorem refill_page {page : List Row} (hpage : page ≠ []) :
    it.refill c cf (some page) = { it.setPage c cf page with idx := if it.reverse
      then page.length - 1 else 0 } := by
  cases page with
  | nil => exact absurd rfl hpage
  | cons r page => rfl

/-- **A step of a forward walk.** -/
theorem Forward.advance (h : Forward c cf it left) : Forward c cf (it.advance c cf) left.tail := by
  rcases h.position with ⟨rfl, hvalid⟩ |
    ⟨items, last, tail, high, hitems, hidx, rfl, hex, hresume, hstop, hrows⟩
  · rw [advance, hvalid]
    exact ⟨h.reverse, .inl ⟨rfl, hvalid⟩⟩
  have hvalid : it.valid = true := decide_eq_true hidx
  rw [drop_eq_getElem_cons hidx, cons_append, tail_cons, advance, hvalid, h.reverse]
  simp only [Bool.not_true, Bool.false_eq_true, if_false]
  split
  · -- the page is done
    rename_i hend
    have hne : it.items.isEmpty = false := by simp [hitems]
    rw [drop_eq_nil_of_le hend, nil_append, refillForward]
    simp only [hex, hne, Bool.or_self, Bool.false_eq_true, if_false, hresume,
      page_after hreads hstop (hitems ▸ hrows)]
    by_cases htail : tail = []
    · subst htail
      rw [take_nil]
      exact ⟨rfl, .inl ⟨rfl, invalidate_valid fun hr => by cases hr⟩⟩
    rw [refill_page (take_window_ne htail)]
    refine .of_page htail rfl rfl rfl rfl (fun r hr => ?_) hstop
      ((suffix_append it.items tail).trans hrows)
    exact congrArg (fun x => (Option.map _ x).getD _) hr
  · rename_i hin
    exact ⟨rfl, .inr ⟨items, last, tail, high, hitems, not_le.mp hin, rfl, hex, hresume, hstop, hrows⟩⟩

theorem page_before {head rest items : List Row} {first front : Row}
    (hrows : (head ++ front :: rest ++ first :: items) <:+: c.rows cf) (hlen : rest.length < iterWindow) :
    pageForward c cf (.included (c.encode cf front.1))
    (.excluded (c.encode cf first.1)) iterWindow = some (front :: rest) := by
  obtain ⟨before, after, hrows⟩ := hrows
  have hsplit : c.rows cf = (before ++ head ++ front :: rest) ++ first :: (items ++ after) := by
    simp [← hrows]
  obtain ⟨-, -, hbelow, -⟩ := Cursor.filter_sides (rows_ascending c cf) hsplit
  rw [((from_included c cf front.1).matches (upTo_excluded c cf first.1)).pageForward hreads,
    ← filter_filter,
    (Cursor.filter_sides ((rows_ascending c cf).filter _) hbelow).2.1, take_of_length_le hlen]

/-- **A step of a backward walk.** -/
theorem Backward.advance (h : Backward c cf it left) : Backward c cf (it.advance c cf) left.dropLast := by
  rcases h.position with ⟨rfl, hvalid⟩ |
    ⟨head, first, items, hitems, hidx, hlen, rfl, hex, hresume, hchunks, hrows⟩
  · rw [advance, hvalid]
    exact ⟨h.reverse, .inl ⟨rfl, hvalid⟩⟩
  have hvalid : it.valid = true := decide_eq_true hidx
  have hleft : (head ++ it.items.take (it.idx + 1)).dropLast = head ++ it.items.take it.idx := by
    rw [take_succ_eq_append_getElem hidx, ← append_assoc, dropLast_concat]
  rw [hleft, advance, hvalid, h.reverse]
  simp only [Bool.not_true, Bool.false_eq_true, if_false, if_true]
  split
  · -- the page is done
    rename_i hzero
    have hne : it.items.isEmpty = false := by simp [hitems]
    rw [hzero, take_zero, append_nil, refillReverse]
    simp only [hex, hne, Bool.or_self, Bool.false_eq_true, if_false]
    rcases eq_nil_or_concat it.revCheckpoints with hcps | ⟨cps, cp, hcps⟩
    · rw [hcps] at hchunks ⊢
      exact ⟨h.reverse, .inl ⟨hchunks.marks_nil, invalidate_valid fun _ => hlen⟩⟩
    rw [concat_eq_append] at hcps
    rw [hcps] at hchunks
    obtain ⟨head', front, rest, rfl, rfl, hrest, hchunks'⟩ := hchunks.last
    simp only [hcps, getLast?_concat, dropLast_concat, hresume, page_before hreads (hitems ▸ hrows) hrest]
    rw [refill_page (by simp)]
    refine ⟨h.reverse, .inr ⟨head', front, rest, rfl, ?_, ?_, ?_, rfl, ?_, hchunks', ?_⟩⟩
    · simp [setPage, h.reverse]
    · simp only [setPage, length_cons]
      omega
    · simp [setPage, h.reverse]
    · simp [setPage]
    · exact (prefix_append _ _).isInfix.trans hrows
  · rename_i hpos
    refine ⟨rfl, .inr ⟨head, first, items, hitems, ?_, hlen, ?_, hex, hresume, hchunks, hrows⟩⟩
    · exact lt_of_le_of_lt (Nat.sub_le _ _) hidx
    · simp [Nat.sub_add_cancel (Nat.pos_of_ne_zero hpos)]

section
variable {start stop : Bound} {low : Key → Bool} (hs : From c cf start low) (he : UpTo c cf stop high)
include hs he

theorem open_forward :
    ∃ it, (pageForward c cf start stop iterWindow).map (fun page =>
      onPage c cf stop page [] 0 false) = some it ∧
      it.err = false ∧ Forward c cf it ((c.rows cf).filter fun r => low r.1 && high r.1) := by
  rw [(hs.matches he).pageForward hreads, Option.map_some, ← filter_filter]
  exact ⟨_, rfl, rfl, onPage_forward he (hs.suffix ((rows_ascending c cf).filter _))⟩

theorem open_backward (cfEnd : Bound) : ∃ it, (pageLastNWithCheckpoints c cf start stop iterWindow).map
        (fun (page, cps) => onPage c cf cfEnd page cps (page.length - 1) true) = some it ∧
      it.err = false ∧ Backward c cf it ((c.rows cf).filter fun r => low r.1 && high r.1) := by
  obtain ⟨cps, hpage, hcps⟩ := (hs.matches he).pageLast hreads iterWindow_pos
  rw [hpage]
  refine ⟨_, rfl, rfl, onPage_backward ?_ cfEnd hcps⟩
  rw [← filter_filter]
  exact (hs.suffix ((rows_ascending c cf).filter _)).isInfix.trans
    (he.isPrefix (rows_ascending c cf)).isInfix

end

def Opened (c : Content) (cf : Key) (rows : List Row) (mode : IteratorMode) (it : DBIterator) : Prop :=
  match mode with
  | .start => Forward c cf it rows
  | .seek k .forward => Forward c cf it (rows.filter fun r => decide (k ≤ r.1))
  | .stop => Backward c cf it rows
  | .seek k .reverse => Backward c cf it (rows.filter fun r => decide (r.1 ≤ k) || k.isPrefixOf r.1)

/-- **A scan opens on the family's rows inside the bounds.** -/
theorem scanCfAt_within (hknown : cf = defaultFamily ∨ cf ∈ c.known) (mode : IteratorMode)
    (bounds : IterBounds) :
    ∃ it, scanCfAt c cf mode bounds = some it ∧ it.err = false ∧
      Opened c cf (c.bounded cf bounds.lower bounds.upper) mode it := by
  have hguard : (cf ≠ defaultFamily && !c.known.contains cf) = false := by
    rcases hknown with h | h <;> simp [h]
  have hcf : (∀ s, c.cfStart cf ≠ .excluded s) ∧ ∀ e, c.cfEnd cf ≠ .included e := by
    rw [Content.cfStart, Content.cfEnd, cfBounds]
    split
    · simp
    · dsimp only
      split <;> simp
  have hlow := (from_cfStart c cf).lower hcf.1 bounds.lower
  have hhigh := (upTo_cfEnd c cf).upper hcf.2 bounds.upper
  simp only [Bool.true_and] at hlow hhigh
  rw [scanCfAt, hguard]
  cases mode with
  | start => exact open_forward hreads hlow hhigh
  | stop => exact open_backward hreads hlow hhigh _
  | seek k direction =>
    cases direction with
    | forward =>
      obtain ⟨it, hopen, herr, hit⟩ :=
        open_forward hreads ((from_included c cf k).lower (by simp) bounds.lower) hhigh
      refine ⟨it, hopen, herr, ?_⟩
      rw [Opened, bounded, filter_filter]
      simpa [Bool.and_assoc] using hit
    | reverse =>
      have hne : ∀ e, backwardStop c cf k ≠ .included e := by
        rw [backwardStop]
        split
        · simp
        · exact hcf.2
      obtain ⟨it, hopen, herr, hit⟩ :=
        open_backward hreads hlow ((upTo_backwardStop c cf k).upper hne bounds.upper)
        (bounds.upper.elim (c.cfEnd cf) fun up => minExcluded (c.cfEnd cf) (c.encode cf up))
      refine ⟨it, ?_, herr, ?_⟩
      · rw [← hopen, backwardStop]
        dsimp only
        cases encodedSucc (c.encode cf k) <;> cases bounds.upper <;> rfl
      · rw [Opened, bounded, filter_filter]
        refine (congrArg _ (filter_congr fun r _ => ?_)).mpr hit
        rw [Bool.and_left_comm]

/-- **An unbounded scan opens on all of them.** -/
theorem scanCfAt_opened (hknown : cf = defaultFamily ∨ cf ∈ c.known) (mode : IteratorMode) :
    ∃ it, scanCfAt c cf mode .none = some it ∧ Opened c cf (c.rows cf) mode it := by
  obtain ⟨it, hopen, -, hit⟩ := scanCfAt_within hreads hknown mode .none
  have hall : c.bounded cf none none = c.rows cf := filter_eq_self.mpr fun _ _ => rfl
  exact ⟨it, hopen, hall ▸ hit⟩

end Walks

/-! ### Whole walks -/

namespace DBIterator

/-- The window a step reads, if it reads one. -/
def nextWindow (it : DBIterator) : Option (Bound × Bound) :=
  if !it.valid || it.exhausted then none
  else if it.reverse then
    if it.idx = 0 then it.revCheckpoints.getLast?.map fun cp =>
      (.included cp, .excluded it.resumeRev) else none
  else if it.items.length ≤ it.idx + 1 then some (.excluded it.resumeFwd, it.cfEnd)
  else none

/-- The rows shown step after step, and the iterator that has no more. -/
def walk (c : Content) (cf : Key) : Nat → DBIterator → List Row × DBIterator
  | 0, it => ([], it)
  | fuel + 1, it =>
    match it.current with
    | none => ([], it)
    | some r =>
      let (rows, it') := walk c cf fuel (it.advance c cf)
      (r :: rows, it')

/-- Enough steps show exactly the rows, without an error. -/
def Shows (c : Content) (cf : Key) (it : DBIterator) (rows : List Row) : Prop :=
  ∀ fuel, rows.length < fuel →
    (it.walk c cf fuel).1 = rows ∧ (it.walk c cf fuel).2.valid = false ∧ (it.walk c cf fuel).2.err = false

end DBIterator

def Content.scanned (c : Content) (cf : Key) (mode : IteratorMode) (bounds : IterBounds) : List Row :=
  let rows := c.bounded cf bounds.lower bounds.upper
  match mode with
  | .start => rows
  | .seek k .forward => rows.filter fun r => decide (k ≤ r.1)
  | .stop => rows.reverse
  | .seek k .reverse => (rows.filter fun r => decide (r.1 ≤ k)).reverse

/-- No row inside the bounds extends the key a backward walk starts from. -/
def Content.regular (c : Content) (cf : Key) (mode : IteratorMode) (bounds : IterBounds) : Bool :=
  match mode with
  | .seek k .reverse =>
    (c.bounded cf bounds.lower bounds.upper).all fun r => !(k.isPrefixOf r.1 && r.1 != k)
  | _ => true

section Walks
variable {c : Content} {cf : Key} {it : DBIterator} {left : List Row}

theorem refill_err (page : Option (List Row)) : (it.refill c cf page).err = (it.err || page.isNone) := by
  cases page with
  | none => simp [refill, invalidate]
  | some page => cases page <;> simp [refill, invalidate, setPage]

theorem pageForward_isNone (start stop : Bound) (limit : Nat) :
    (pageForward c cf start stop limit).isNone = c.fails start stop := by
  rw [pageForward, tryScanWindowAt]
  cases c.fails start stop <;> rfl

theorem advance_err : (it.advance c cf).err = (it.err || it.nextWindow.any fun w => c.fails w.1 w.2) := by
  rw [advance, nextWindow]
  by_cases hvalid : it.valid = true
  swap
  · simp [hvalid]
  have hne : it.items.isEmpty = false := by
    cases hitems : it.items with
    | nil => simp [valid, hitems] at hvalid
    | cons r rows => rfl
  cases hex : it.exhausted with
  | true =>
    simp only [hvalid, Bool.not_true, Bool.or_true, Bool.false_eq_true, if_false, if_true,
      Option.any_none, Bool.or_false]
    split <;> split <;> simp [refillReverse, refillForward, invalidate, hex]
  | false =>
    simp only [hvalid, Bool.not_true, Bool.or_false, Bool.false_eq_true, if_false, refillReverse,
      refillForward, hex, hne]
    split
    · split
      · cases it.revCheckpoints.getLast? with
        | none => simp [invalidate]
        | some cp => simp [refill_err, pageForward_isNone]
      · simp
    · split <;> simp [refill_err, pageForward_isNone]

/-- An iterator that stands on the first of some rows, step after step, shows them. -/
theorem walk_shows {ahead : DBIterator → List Row → Prop}
    (hcurrent : ∀ it left, ahead it left → it.current = left.head?)
    (hadvance : ∀ it left, ahead it left → ahead (it.advance c cf) left.tail)
    (hreads : ∀ start stop, c.fails start stop = false) (herr : it.err = false)
    (h : ahead it left) : it.Shows c cf left := by
  intro fuel hfuel
  induction fuel generalizing it left with
  | zero => exact absurd hfuel (Nat.not_lt_zero _)
  | succ fuel ih =>
    have hhead := hcurrent it left h
    rw [DBIterator.walk, hhead]
    cases left with
    | nil =>
      have : it.items.length ≤ it.idx := by simpa [current] using hhead
      exact ⟨rfl, decide_eq_false (Nat.not_lt.mpr this), herr⟩
    | cons r left =>
      have herr' : (it.advance c cf).err = false := by simp [advance_err, hreads, herr]
      obtain ⟨hrows, hend⟩ := ih herr' (hadvance it _ h) (Nat.lt_of_succ_lt_succ hfuel)
      exact ⟨congrArg _ hrows, hend⟩

/-- What an iterator shows is one list. -/
theorem DBIterator.Shows.unique {rows rows' : List Row} (h : it.Shows c cf rows)
    (h' : it.Shows c cf rows') : rows = rows' := by
  have hfuel := h (rows.length + rows'.length + 1) (by omega)
  have hfuel' := h' (rows.length + rows'.length + 1) (by omega)
  exact hfuel.1.symm.trans hfuel'.1

/-- Rows that extend the key are all that is too much. -/
theorem upTo_rows_iff {rows : List Row} {k : Key} :
    (rows.filter fun r => decide (r.1 ≤ k) || k.isPrefixOf r.1) =
        (rows.filter fun r => decide (r.1 ≤ k)) ↔
      (rows.all fun r => !(k.isPrefixOf r.1 && r.1 != k)) = true := by
  refine ⟨fun h => all_eq_true.mpr fun r hr => ?_, fun h =>
    filter_congr fun r hr => upTo_regular (all_eq_true.mp h r hr)⟩
  by_cases hpre : k.isPrefixOf r.1 = true
  swap
  · simp [hpre]
  have hshown : r ∈ rows.filter fun r => decide (r.1 ≤ k) || k.isPrefixOf r.1 :=
    mem_filter.mpr ⟨hr, by simp [hpre]⟩
  rw [h] at hshown
  have hle : r.1 ≤ k := of_decide_eq_true (mem_filter.mp hshown).2
  have heq : r.1 = k := List.le_antisymm hle ( isPrefixOf_iff_prefix.mp hpre).le
  simp [heq]

/-- A scan shows rows that are the right ones exactly if the scan is regular. -/
theorem scanCfAt_shows (hreads : ∀ start stop, c.fails start stop = false)
    (hknown : cf = defaultFamily ∨ cf ∈ c.known) (mode : IteratorMode) (bounds : IterBounds) :
    ∃ it rows, scanCfAt c cf mode bounds = some it ∧ it.Shows c cf rows ∧
      (rows = c.scanned cf mode bounds ↔ c.regular cf mode bounds = true) := by
  obtain ⟨it, hopen, herr, hit⟩ := scanCfAt_within hreads hknown mode bounds
  have hforward : ∀ left, Forward c cf it left → it.Shows c cf left := fun left =>
    walk_shows (fun _ _ h => h.current) (fun _ _ h => h.advance hreads) hreads herr
  have hbackward : ∀ left, Backward c cf it left → it.Shows c cf left.reverse := fun left h => by
    let ahead := fun it rows => Backward c cf it (reverse rows)
    refine walk_shows (c := c) (fun it rows (h : ahead it rows) => ?_) (fun it rows h => ?_)
      hreads herr ?_
    · simpa using h.current
    · simpa [ahead] using h.advance hreads
    · simpa [ahead] using h
  cases mode with
  | start => exact ⟨it, _, hopen, hforward _ hit, iff_of_true rfl rfl⟩
  | stop => exact ⟨it, _, hopen, hbackward _ hit, iff_of_true rfl rfl⟩
  | seek k direction =>
    cases direction with
    | forward => exact ⟨it, _, hopen, hforward _ hit, iff_of_true rfl rfl⟩
    | reverse =>
      refine ⟨it, _, hopen, hbackward _ hit, ?_⟩
      rw [Content.scanned, reverse_inj]
      exact upTo_rows_iff

end Walks

/-- **Windowed iteration is one scan exactly if** no row inside the bounds extends the key a
backward walk starts from. Page by page an iterator then shows the family's rows inside the
bounds. Its status tells, in every case, whether a page could not be read. -/
theorem windowed_iteration (c : Content) (cf : Key) (mode : IteratorMode) (bounds : IterBounds)
    (hknown : cf = defaultFamily ∨ cf ∈ c.known) :
    ((∀ start stop, c.fails start stop = false) →
      ((∃ it, scanCfAt c cf mode bounds = some it ∧ it.Shows c cf (c.scanned cf mode bounds)) ↔
        c.regular cf mode bounds = true)) ∧
    ∀ it : DBIterator,
      (it.advance c cf).err = (it.err || it.nextWindow.any fun w => c.fails w.1 w.2) := by
  refine ⟨fun hreads => ?_, fun it => advance_err⟩
  obtain ⟨it, rows, hopen, hshows, hrows⟩ := scanCfAt_shows hreads hknown mode bounds
  constructor
  · intro h
    obtain ⟨it', hopen', hscanned⟩ := h
    obtain rfl : it = it' := Option.some.inj (hopen.symm.trans hopen')
    exact hrows.mp (hshows.unique hscanned)
  · intro hok
    exact ⟨it, hopen, hrows.mpr hok ▸ hshows⟩

/-- Keys 6, 7, 7 5 and 8 of the default family, beside a family b. -/
def fourKeys : Content where
  entries := [([6], 1), ([7], 2), ([7, 5], 3), ([8], 4)].map fun (k, n) =>
    .put n (encodeCfKey defaultFamily k false) [9]
  distinct := by unfold Layers.Distinct; decide
  seq := 9
  fails _ _ := false
  known := [[98]]
  defaultRaw := false

theorem windowed_iteration_down :
    fourKeys.scanned defaultFamily (.seek [7, 9] .reverse) ⟨some [7], none⟩ =
    [([7, 5], [9]), ([7], [9])] ∧
      ∃ it, scanCfAt fourKeys defaultFamily (.seek [7, 9] .reverse) ⟨some [7], none⟩ = some it ∧
        it.Shows fourKeys defaultFamily
        (fourKeys.scanned defaultFamily (.seek [7, 9] .reverse) ⟨some [7], none⟩) :=
  ⟨by decide +kernel,
    ((windowed_iteration fourKeys defaultFamily _ _ (.inl rfl)).1 fun _ _ => rfl).mpr
      (by decide +kernel)⟩

/-- Down from 7, the first row is one that extends it. -/
theorem reverse_walk_overshoots : fourKeys.scanned defaultFamily
    (.seek [7] .reverse) .none = [([7], [9]), ([6], [9])] ∧
      (scanCfAt fourKeys defaultFamily (.seek [7] .reverse) .none).map (fun it =>
        (it.walk fourKeys defaultFamily 5).1) =
        some [([7, 5], [9]), ([7], [9]), ([6], [9])] := by
  decide +kernel

end PedraDb.Families
