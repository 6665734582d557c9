import PedraDb.Batch
import PedraDb.Wal.Format

/-! The filter of a file.

A file carries a Bloom filter of its keys, one bit array for a few keys and four arrays by
hash for more. It is written behind the index with its sizes, and a reader checks them
before it looks at the bits. What a writer of files writes passes these checks
(`decode_encode_built`), and no key it was given is missed (`no_false_negatives`). -/
namespace PedraDb.Sst
open List
open Wal (Bytes leBytes ofLe leBytes_length ofLe_leBytes)
variable {p : BloomPart} {parts : List BloomPart}

def filterPartMagic : Nat := 0xFFFFFFFE

def maxK : Nat := 30

def defaultBitsPerKey : Nat := 10

/-- More bits for the keys of small files. -/
def bitsPerKeyForRun (n : Nat) : Nat :=
  if n = 0 then defaultBitsPerKey else if n < 4096 then 16 else if n < 65536 then 12
    else defaultBitsPerKey

def filterNparts (n : Nat) : Nat := if n < 4 then 1 else 4

def kFromBitsPerKey (bitsPerKey : Nat) : Nat := min (max (bitsPerKey * 69 / 100) 1) 30

def nbytesForNbits (nbits : Nat) : Nat := (nbits + 7) / 8

/-- One bit array. -/
structure BloomPart where
  bits : Bytes
  nbits : Nat
  k : Nat
  deriving DecidableEq

/-- One array, or several. Those of a filter that was read are kept encoded. -/
inductive BloomFilter where
  | mono (part : BloomPart)
  | parts (loaded : List BloomPart)
  | encoded (parts : List Bytes)
  deriving DecidableEq

namespace BloomPart

def alwaysTrue : BloomPart := ⟨[], 0, 0⟩

def isActive (p : BloomPart) : Bool := decide (0 < p.nbits) && decide (0 < p.k) && !p.bits.isEmpty

def withCapacity (n bitsPerKey : Nat) : BloomPart :=
  if n = 0 ∨ bitsPerKey = 0 then alwaysTrue
  else
    let nbits := min (max (n * bitsPerKey) 64) (2 ^ 32 - 1)
    ⟨List.replicate (nbytesForNbits nbits) 0, nbits, kFromBitsPerKey bitsPerKey⟩

end BloomPart

def fnvPrime : UInt64 := 0x0100000001b3

/-- Two hashes of a key in one pass; the second is never zero. -/
def hashPair (key : Key) : UInt64 × UInt64 :=
  let h := key.foldl (fun h b => ((h.1 ^^^ b.toUInt64) * fnvPrime, (h.2 ^^^ b.toUInt64) * fnvPrime))
    (0xcbf29ce484222325, 0x9e3779b97f4a7c15)
  if h.2 = 0 then (h.1, 0x9e3779b97f4a7c15) else h

def probeBit (h1 h2 : UInt64) (i : Nat) (nbits : Nat) : Nat := (h1 + UInt64.ofNat i * h2).toNat % nbits

def setBit (bits : Bytes) (i : Nat) : Bytes :=
  bits.set (i / 8) (bits.getD (i / 8) 0 ||| (1 <<< UInt8.ofNat (i % 8)))

def BloomPart.insertPrehashed (p : BloomPart) (h1 h2 : UInt64) : BloomPart :=
  if p.isActive then { p with bits := (List.range p.k).foldl (fun bits i =>
    setBit bits (probeBit h1 h2 i p.nbits)) p.bits } else p

/-! ### The bytes -/

/-- A size in a field of 32 bits, cut off at the largest value. -/
def sizeField (n : Nat) : Bytes := leBytes 4 (min n (2 ^ 32 - 1))

def BloomPart.encode (p : BloomPart) : Bytes :=
  leBytes 4 p.nbits ++ leBytes 4 p.k ++ sizeField p.bits.length ++ p.bits

def partsBody (parts : List Bytes) : Bytes := parts.flatMap fun enc => leBytes 4 enc.length ++ enc

def encodePartitioned (parts : List Bytes) : Bytes :=
  leBytes 4 filterPartMagic ++ leBytes 4 parts.length ++ sizeField (partsBody parts).length ++
    partsBody parts

def BloomFilter.encode : BloomFilter → Bytes
  | .mono part => part.encode
  | .parts loaded => encodePartitioned (loaded.map BloomPart.encode)
  | .encoded bytes => encodePartitioned bytes

inductive BloomError where
  | tooShort
  | bitsTruncated
  | headerInvalid
  | nparts (n : Nat)
  | partTruncated
  deriving DecidableEq

def bloomHeaderOk (nbits k nbytes residual : Nat) : Bool :=
  decide (1 ≤ k) && decide (k ≤ maxK) && decide (nbytesForNbits nbits ≤ nbytes) &&
    decide (nbytes ≤ residual)

def decodeParts : Nat → Bytes → Except BloomError (List Bytes)
  | 0, _ => .ok []
  | n + 1, body =>
    if body.length < 4 then .error .partTruncated
    else
      let len := ofLe (body.take 4)
      if (body.drop 4).length < len then .error .partTruncated
      else (decodeParts n ((body.drop 4).drop len)).map ((body.drop 4).take len :: ·)

def decodePartitioned (body : Bytes) (nparts : Nat) : Except BloomError BloomFilter :=
  if nparts ≤ 1 ∨ 64 < nparts then .error (.nparts nparts) else (decodeParts nparts body).map .encoded

def BloomFilter.decode (buf : Bytes) : Except BloomError BloomFilter :=
  if buf = [] then .ok (.mono .alwaysTrue)
  else if buf.length < 12 then .error .tooShort
  else
    let nbits := ofLe (buf.take 4)
    let k := ofLe ((buf.drop 4).take 4)
    let nbytes := ofLe ((buf.drop 8).take 4)
    let rest := buf.drop 12
    if rest.length < nbytes then .error .bitsTruncated
    else if nbits = filterPartMagic then decodePartitioned (rest.take nbytes) k
    else if nbits = 0 ∨ k = 0 ∨ nbytes = 0 then .ok (.mono .alwaysTrue)
    else if !bloomHeaderOk nbits k nbytes rest.length then .error .headerInvalid
    else .ok (.mono ⟨rest.take nbytes, nbits, k⟩)

/-- A part is read without a look at the magic number. -/
def decodeMono (buf : Bytes) : Except BloomError BloomPart :=
  if buf = [] then .ok .alwaysTrue
  else if buf.length < 12 then .error .tooShort
  else
    let nbits := ofLe (buf.take 4)
    let k := ofLe ((buf.drop 4).take 4)
    let nbytes := ofLe ((buf.drop 8).take 4)
    let rest := buf.drop 12
    if rest.length < nbytes then .error .bitsTruncated
    else if nbits = 0 ∨ k = 0 ∨ nbytes = 0 then .ok .alwaysTrue
    else if !bloomHeaderOk nbits k nbytes rest.length then .error .headerInvalid
    else .ok ⟨rest.take nbytes, nbits, k⟩

def BloomFilter.isActive : BloomFilter → Bool
  | .mono part => part.isActive
  | .parts _ => true
  | .encoded _ => true

/-- Arrays sized for `cap` keys, with these keys in them: one array, or parts picked by the
first hash. -/
def fillParts (cap : Nat) (keys : List Key) : List BloomPart :=
  let bpk := bitsPerKeyForRun cap
  let nparts := filterNparts cap
  let fresh := if nparts ≤ 1 then [BloomPart.withCapacity cap bpk]
    else List.replicate nparts (BloomPart.withCapacity (cap / nparts + 1) bpk)
  keys.foldl (fun parts key =>
    let (h1, h2) := hashPair key
    parts.modify (h1.toNat % parts.length) fun p => p.insertPrehashed h1 h2) fresh

def bulkParts (keys : List Key) : List BloomPart := fillParts (min keys.length 2097152) keys

def bulkFilter (keys : List Key) : BloomFilter :=
  match bulkParts keys with
  | [] => .mono .alwaysTrue
  | [p] => .mono p
  | parts => .parts parts

/-! ### Keys and answers -/

def testBit (bits : Bytes) (i : Nat) : Bool := bits.getD (i / 8) 0 &&& (1 <<< UInt8.ofNat (i % 8)) != 0

namespace BloomPart

def mayContainWithHashes (p : BloomPart) (h : UInt64 × UInt64) : Bool :=
  !p.isActive || (List.range p.k).all fun i => testBit p.bits (probeBit h.1 h.2 i p.nbits)

def insert (p : BloomPart) (key : Key) : BloomPart := p.insertPrehashed (hashPair key).1 (hashPair key).2

end BloomPart

def partitionIndex (h : UInt64 × UInt64) (nparts : Nat) : Nat := h.1.toNat % nparts

def insertPart (parts : List BloomPart) (key : Key) : List BloomPart :=
  parts.modify (partitionIndex (hashPair key) parts.length) (·.insert key)

namespace BloomFilter

def withPartitions (n bitsPerKey nparts : Nat) : BloomFilter :=
  if nparts ≤ 1 then .mono (.withCapacity n bitsPerKey)
  else .parts (List.replicate nparts (.withCapacity (n / nparts + 1) bitsPerKey))

/-- Of a lone array nothing is kept. -/
def fromPartitionBuilders (builders : List BloomPart) : BloomFilter :=
  if builders.length ≤ 1 then .mono .alwaysTrue else .parts builders

/-- Into what `withPartitions` made; an assembled filter answers from copies made before. -/
def insert : BloomFilter → Key → BloomFilter
  | .mono p, key => .mono (p.insert key)
  | .parts loaded, key => .parts (insertPart loaded key)
  | .encoded parts, _ => .encoded parts

def freezePartitions : BloomFilter → BloomFilter
  | .parts loaded => .encoded (loaded.map BloomPart.encode)
  | f => f

def mayContainWithHashes (h : UInt64 × UInt64) : BloomFilter → Bool
  | .mono p => p.mayContainWithHashes h
  | .parts loaded => loaded[partitionIndex h loaded.length]?.all (·.mayContainWithHashes h)
  | .encoded parts =>
    match decodeMono (parts.getD (partitionIndex h parts.length) []) with
    | .ok p => p.mayContainWithHashes h
    | .error _ => true

def mayContain (f : BloomFilter) (key : Key) : Bool := f.mayContainWithHashes (hashPair key)

/-- A lone array does not have the number of bits that marks parts; there are as many parts as
a reader takes, and the length of their bytes has room in its field. -/
def readable : BloomFilter → Bool
  | .mono p => p.nbits != filterPartMagic
  | .parts loaded =>
    decide (loaded.length ≤ 64) &&
      decide ((partsBody (loaded.map BloomPart.encode)).length < 2 ^ 32)
  | .encoded _ => true

end BloomFilter

/-! ### What is written can be read -/

/-- The sizes of an array fit their fields and each other. -/
structure BloomPart.Sized (p : BloomPart) : Prop where
  nbits : p.nbits < filterPartMagic
  k : 1 ≤ p.k ∧ p.k ≤ maxK
  bits : p.bits.length = nbytesForNbits p.nbits
  some : 0 < p.nbits

theorem setBit_length (bits : Bytes) (i : Nat) : (setBit bits i).length = bits.length := length_set

theorem setBits_length (f : Nat → Nat) (l : List Nat) (bits : Bytes) :
    (l.foldl (fun bits i => setBit bits (f i)) bits).length = bits.length := by
  induction l generalizing bits with
  | nil => rfl
  | cons i l ih => rw [foldl_cons, ih, setBit_length]

theorem BloomPart.Sized.insertPrehashed (h : p.Sized)
    (h1 h2 : UInt64) : (p.insertPrehashed h1 h2).Sized := by
  rw [BloomPart.insertPrehashed]
  split
  · exact ⟨h.nbits, h.k, (setBits_length _ _ _).trans h.bits, h.some⟩
  · exact h

theorem BloomPart.encode_length (p : BloomPart) : p.encode.length = 12 + p.bits.length := by
  simp [BloomPart.encode, sizeField]
  omega

theorem BloomPart.bits_pos (hbits : p.bits.length = nbytesForNbits p.nbits) (hpos : 0 < p.nbits) :
    0 < p.bits.length := by
  rw [hbits, nbytesForNbits]
  omega

theorem BloomPart.active (hk : 1 ≤ p.k) (hbits : p.bits.length = nbytesForNbits p.nbits)
    (hpos : 0 < p.nbits) : p.isActive = true := by
  simp [isActive, hpos, Nat.lt_of_lt_of_le Nat.one_pos hk, ne_nil_of_length_pos (bits_pos hbits hpos)]

/-- The three numbers in front, and what follows them. -/
theorem header_fields {a b : Nat} (ha : a < 2 ^ 32) (hb : b < 2 ^ 32) (c : Nat) (rest : Bytes) :
    let buf := leBytes 4 a ++ leBytes 4 b ++ sizeField c ++ rest
    ofLe (buf.take 4) = a ∧ ofLe ((buf.drop 4).take 4) = b ∧
      ofLe ((buf.drop 8).take 4) = min c (2 ^ 32 - 1) ∧ buf.drop 12 = rest := by
  intro buf
  have h4 : buf.drop 4 = leBytes 4 b ++ (sizeField c ++ rest) := by simp [buf]
  have h8 : buf.drop 8 = leBytes 4 (min c (2 ^ 32 - 1)) ++ rest := by
    rw [show 8 = 4 + 4 from rfl, ← drop_drop, h4]
    simp [sizeField]
  have h12 : buf.drop 12 = rest := by
    rw [show 12 = 8 + 4 from rfl, ← drop_drop, h8]
    simp
  have htake : buf.take 4 = leBytes 4 a := by simp [buf]
  refine ⟨?_, ?_, ?_, h12⟩
  · rw [htake]
    exact ofLe_leBytes ha
  · rw [h4, take_left' (leBytes_length 4 b)]
    exact ofLe_leBytes hb
  · rw [h8, take_left' (leBytes_length 4 _)]
    exact ofLe_leBytes (by omega)

theorem or_and_ne_zero {a b m : UInt8} : (a ||| b) &&& m ≠ 0 ↔ a &&& m ≠ 0 ∨ b &&& m ≠ 0 := by
  have hdistrib : (a ||| b) &&& m = a &&& m ||| b &&& m :=
    UInt8.eq_of_toBitVec_eq (by ext i; simp [Bool.and_or_distrib_right])
  rw [hdistrib, ne_eq, UInt8.or_eq_zero_iff]
  tauto

theorem mask_and_mask : ∀ m < 8, ∀ n < 8,
    (1 : UInt8) <<< UInt8.ofNat m &&& 1 <<< UInt8.ofNat n ≠ 0 ↔ m = n := by
  decide

/-- Setting a bit adds exactly that bit. -/
theorem testBit_setBit {bits : Bytes} {i j : Nat} (hi : i / 8 < bits.length) :
    testBit (setBit bits i) j = true ↔ testBit bits j = true ∨ i = j := by
  simp only [testBit, bne_iff_ne]
  rw [setBit, getD_eq_getElem?_getD, getElem?_set]
  by_cases hbyte : i / 8 = j / 8
  · have hmask := mask_and_mask (i % 8) (Nat.mod_lt _ (by decide)) (j % 8) (Nat.mod_lt _ (by decide))
    have hsame : i % 8 = j % 8 ↔ i = j := by omega
    rw [if_pos hbyte, if_pos hi, Option.getD_some, or_and_ne_zero, hmask, hsame, hbyte]
  · have hne : i ≠ j := fun heq => hbyte (heq ▸ rfl)
    simp [hbyte, hne]

theorem testBit_setBits (f : Nat → Nat) (l : List Nat) {bits : Bytes} {j : Nat}
    (hf : ∀ i ∈ l, f i / 8 < bits.length) :
    testBit (l.foldl (fun bits i => setBit bits (f i)) bits) j = true ↔
      testBit bits j = true ∨ ∃ i ∈ l, f i = j := by
  induction l generalizing bits with
  | nil => simp
  | cons i l ih =>
    obtain ⟨hi, hf⟩ := forall_mem_cons.mp hf
    rw [foldl_cons, ih (by simpa [setBit_length] using hf), testBit_setBit hi]
    simp [or_assoc]

/-- An array as it was made: without filtering, or with sizes that fit their fields and each other. -/
def BloomPart.Built (p : BloomPart) : Prop :=
  p = .alwaysTrue ∨ p.nbits < 2 ^ 32 ∧ (1 ≤ p.k ∧ p.k ≤ maxK) ∧
    p.bits.length = nbytesForNbits p.nbits ∧ 0 < p.nbits

namespace BloomPart.Built

theorem withCapacity (n bitsPerKey : Nat) : (BloomPart.withCapacity n bitsPerKey).Built := by
  rw [BloomPart.withCapacity]
  split
  · exact .inl rfl
  · refine .inr ⟨by simp only; omega, ?_, by simp, by simp only; omega⟩
    simp only [kFromBitsPerKey, maxK]
    omega

/-- The probes of the key hit bits that the array has. -/
theorem probe_lt (hbits : p.bits.length = nbytesForNbits p.nbits) (hpos : 0 < p.nbits)
    (h1 h2 : UInt64) (i : Nat) : probeBit h1 h2 i p.nbits / 8 < p.bits.length := by
  have hprobe : probeBit h1 h2 i p.nbits < p.nbits := Nat.mod_lt _ hpos
  rw [hbits, nbytesForNbits]
  omega

theorem insert (h : p.Built) (key : Key) : (p.insert key).Built := by
  rcases h with rfl | ⟨hnbits, hk, hbits, hpos⟩
  · exact .inl rfl
  rw [show p.insert key = _ from if_pos (active hk.1 hbits hpos)]
  exact .inr ⟨hnbits, hk, (setBits_length _ _ _).trans hbits, hpos⟩

theorem fold (h : p.Built) (keys : List Key) : (keys.foldl BloomPart.insert p).Built := by
  induction keys generalizing p with
  | nil => exact h
  | cons key keys ih => exact ih (h.insert key)

/-- The bits of an array after insertions: those it had, and those the keys' probes hit. -/
theorem testBit_fold (h : p.Built) (hactive : p.isActive = true) (keys : List Key) (j : Nat) :
    let q := keys.foldl BloomPart.insert p
    q.nbits = p.nbits ∧ q.k = p.k ∧ q.isActive =
      true ∧ (testBit q.bits j = true ↔ testBit p.bits j = true ∨
      ∃ key ∈ keys, ∃ i < p.k, probeBit (hashPair key).1 (hashPair key).2 i p.nbits = j) := by
  induction keys generalizing p with
  | nil => simp [hactive]
  | cons key keys ih =>
    rcases h with rfl | ⟨hnbits, hk, hbits, hpos⟩
    · cases hactive
    have hinsert : p.insert key = { p with bits := (List.range p.k).foldl (fun bits i =>
        setBit bits (probeBit (hashPair key).1 (hashPair key).2 i p.nbits)) p.bits } := if_pos hactive
    have hbits' : (p.insert key).bits.length = nbytesForNbits p.nbits := by
      rw [hinsert]
      exact (setBits_length _ _ _).trans hbits
    have hsizes : (p.insert key).nbits = p.nbits ∧ (p.insert key).k = p.k := by simp [hinsert]
    have hactive' : (p.insert key).isActive = true :=
      active (hsizes.2 ▸ hk.1) (by rw [hbits', hsizes.1]) (hsizes.1 ▸ hpos)
    have hstep : testBit (p.insert key).bits j = true ↔ testBit p.bits j = true ∨
        ∃ i < p.k, probeBit (hashPair key).1 (hashPair key).2 i p.nbits = j := by
      rw [hinsert]
      simpa using testBit_setBits (fun i => probeBit (hashPair key).1 (hashPair key).2 i p.nbits)
        (List.range p.k) (j := j) fun i _ => probe_lt hbits hpos _ _ i
    have hrest := ih (insert (.inr ⟨hnbits, hk, hbits, hpos⟩) key) hactive'
    simp only [hsizes, hstep] at hrest
    simpa [or_assoc] using hrest

/-- **What an array answers after insertions**: yes if each probe hits a bit it had or one that
a key's probe hits. -/
theorem mayContain_fold (h : p.Built) (keys : List Key) (hs : UInt64 × UInt64) :
    (keys.foldl BloomPart.insert p).mayContainWithHashes hs = true ↔
      (p.isActive = true → ∀ i < p.k, testBit p.bits (probeBit hs.1 hs.2 i p.nbits) = true ∨
        ∃ key ∈ keys, ∃ j < p.k, probeBit (hashPair key).1 (hashPair key).2 j p.nbits =
          probeBit hs.1 hs.2 i p.nbits) := by
  by_cases hactive : p.isActive = true
  · have hfold := h.testBit_fold hactive keys
    obtain ⟨hnbits, hk, hactive', -⟩ := hfold 0
    simp only [mayContainWithHashes, hactive', Bool.not_true, Bool.false_or, all_eq_true, mem_range,
      hnbits, hk, (hfold _).2.2.2]
    exact ⟨fun h _ => h, fun h => h hactive⟩
  · rcases h with rfl | ⟨-, hk, hbits, hpos⟩
    · have hidle : keys.foldl BloomPart.insert .alwaysTrue = .alwaysTrue := by
        induction keys with
        | nil => rfl
        | cons key keys ih => exact ih
      rw [hidle]
      exact ⟨fun _ h => absurd h hactive, fun _ => rfl⟩
    · exact absurd (active hk.1 hbits hpos) hactive

theorem mayContain_inserted (h : p.Built) {keys : List Key} {key : Key} (hkey : key ∈ keys) :
    (keys.foldl BloomPart.insert p).mayContainWithHashes (hashPair key) = true :=
  (h.mayContain_fold keys _).mpr fun _ i hi => .inr ⟨key, hkey, i, hi, rfl⟩

theorem length_lt (h : p.Built) : p.bits.length < 2 ^ 29 + 1 := by
  rcases h with rfl | ⟨hnbits, -, hbits, -⟩
  · decide
  · rw [hbits, nbytesForNbits]
    omega

theorem decodeMono (h : p.Built) : Sst.decodeMono p.encode = .ok p := by
  have hlength := h.length_lt
  rcases h with rfl | ⟨hnbits, hk, hbits, hpos⟩
  · decide
  simp only [maxK] at hk
  obtain ⟨h₁, h₂, h₃, h₄⟩ :=
    header_fields (a := p.nbits) (b := p.k) hnbits (by omega) p.bits.length p.bits
  have hfield : min p.bits.length (2 ^ 32 - 1) = p.bits.length := by omega
  have hne : p.encode ≠ [] := ne_nil_of_length_pos (by rw [p.encode_length]; omega)
  have hbytes := bits_pos hbits hpos
  rw [Sst.decodeMono, if_neg hne, if_neg (by rw [p.encode_length]; omega)]
  simp only [BloomPart.encode, h₁, h₂, h₃, h₄, hfield]
  rw [if_neg (by omega), if_neg (by omega), if_neg (by simp [bloomHeaderOk, maxK, hk, hbits]),
    take_length]

end BloomPart.Built

/-- Without the magic number in front, a filter is read as one array. -/
theorem decode_of_ne_magic {buf : Bytes} (h : ofLe (buf.take 4) ≠ filterPartMagic) :
    BloomFilter.decode buf = (decodeMono buf).map .mono := by
  rw [BloomFilter.decode, decodeMono]
  simp only [if_neg h]
  split_ifs <;> rfl

theorem BloomPart.Built.front (h : p.Built) : ofLe (p.encode.take 4) = p.nbits := by
  have hnbits : p.nbits < 2 ^ 32 := by
    rcases h with rfl | h
    · decide
    · exact h.1
  rw [BloomPart.encode, append_assoc, append_assoc, take_left' (leBytes_length 4 _)]
  exact ofLe_leBytes hnbits

theorem decode_mono (h : p.Built) (hmagic : p.nbits ≠ filterPartMagic) :
    BloomFilter.decode p.encode = .ok (.mono p) := by
  rw [decode_of_ne_magic (h.front ▸ hmagic), h.decodeMono]
  rfl

/-- Behind the magic number the bytes are read as parts. -/
theorem decode_of_magic {n c : Nat} (hn : n < 2 ^ 32) {body : Bytes}
    (hc : min c (2 ^ 32 - 1) ≤ body.length) :
    BloomFilter.decode (leBytes 4 filterPartMagic ++ leBytes 4 n ++ sizeField c ++ body) =
      decodePartitioned (body.take (min c (2 ^ 32 - 1))) n := by
  have hlength : (leBytes 4 filterPartMagic ++ leBytes 4 n ++ sizeField c ++ body).length =
      12 + body.length := by
    simp only [length_append, leBytes_length, sizeField]
  obtain ⟨h₁, h₂, h₃, h₄⟩ := header_fields (a := filterPartMagic) (b := n) (by decide) hn c body
  rw [BloomFilter.decode, if_neg (ne_nil_of_length_pos (by omega)), if_neg (by omega)]
  simp only [h₁, h₂, h₃, h₄]
  rw [if_neg (by omega), if_pos trivial]

/-- A lone array with the magic number of bits is read as parts, as many as it has probes. -/
theorem decode_mono_magic (h : p.Built) (hmagic : p.nbits = filterPartMagic) :
    BloomFilter.decode p.encode = decodePartitioned p.bits p.k := by
  have hlength := h.length_lt
  rcases h with rfl | ⟨hnbits, hk, hbits, hpos⟩
  · cases hmagic
  simp only [maxK] at hk
  rw [BloomPart.encode, hmagic, decode_of_magic (by omega) (by omega), take_of_length_le (by omega)]

theorem partsBody_cons (enc : Bytes) (parts : List Bytes) :
    partsBody (enc :: parts) = leBytes 4 enc.length ++ (enc ++ partsBody parts) := by
  simp [partsBody]

section
variable {enc : Bytes} (henc : enc.length < 2 ^ 32) (rest : Bytes)
include henc

theorem decodeParts_next (n : Nat) : decodeParts (n + 1) (leBytes 4 enc.length ++ (enc ++ rest)) =
    (decodeParts n rest).map (enc :: ·) := by
  rw [decodeParts, if_neg (by simp), take_left' (leBytes_length 4 _), drop_left' (leBytes_length 4 _)]
  have hfield : ofLe (leBytes 4 enc.length) = enc.length := ofLe_leBytes henc
  simp only [hfield]
  rw [if_neg (by simp), drop_left, take_left]

/-- A part that is cut off. -/
theorem decodeParts_short (n : Nat) {m : Nat} (hm : m < 4 + enc.length) :
    decodeParts (n + 1) ((leBytes 4 enc.length ++ (enc ++ rest)).take m) = .error .partTruncated := by
  rw [decodeParts]
  split
  · rfl
  rename_i hlen
  rw [length_take] at hlen
  have hm4 : 4 ≤ m := by omega
  have hfield : ((leBytes 4 enc.length ++ (enc ++ rest)).take m).take 4 = leBytes 4 enc.length := by
    rw [take_take, Nat.min_eq_left hm4, take_left' (leBytes_length 4 _)]
  have hlength : ofLe (leBytes 4 enc.length) = enc.length := ofLe_leBytes henc
  simp only [hfield, hlength]
  rw [if_pos]
  simp only [length_drop, length_take, length_append, leBytes_length]
  omega

end

theorem decodeParts_encoded {encs : List Bytes} (hencs : ∀ enc ∈ encs, enc.length < 2 ^ 32) :
    decodeParts encs.length (partsBody encs) = .ok encs := by
  induction encs with
  | nil => rfl
  | cons enc encs ih =>
    obtain ⟨henc, hencs⟩ := forall_mem_cons.mp hencs
    rw [partsBody_cons, length_cons, decodeParts_next henc, ih hencs]
    rfl

/-- Parts whose bytes are cut off anywhere are refused. -/
theorem decodeParts_cut {encs : List Bytes} (hencs : ∀ enc ∈ encs, enc.length < 2 ^ 32) {m : Nat}
    (hm : m < (partsBody encs).length) :
    decodeParts encs.length ((partsBody encs).take m) = .error .partTruncated := by
  induction encs generalizing m with
  | nil => simp [partsBody] at hm
  | cons enc encs ih =>
    obtain ⟨henc, hencs⟩ := forall_mem_cons.mp hencs
    rw [partsBody_cons] at hm ⊢
    rw [length_cons]
    by_cases hshort : m < 4 + enc.length
    · exact decodeParts_short henc _ _ hshort
    · simp only [length_append, leBytes_length] at hm
      have htake : (leBytes 4 enc.length ++ (enc ++ partsBody encs)).take m =
          leBytes 4 enc.length ++ (enc ++ (partsBody encs).take (m - 4 - enc.length)) := by
        rw [take_append, take_append, leBytes_length, take_of_length_le (by simp; omega),
          take_of_length_le (by omega)]
      rw [htake, decodeParts_next henc, ih hencs (by omega)]
      rfl

/-- **Parts are read back exactly if they are at most 64 and the length of their bytes has room
in its field**, and refused otherwise. -/
theorem decode_parts {encs : List Bytes} (hencs : ∀ enc ∈ encs, enc.length < 2 ^ 32)
    (hmany : 1 < encs.length) (hfield : encs.length < 2 ^ 32) :
    if encs.length ≤ 64 ∧ (partsBody encs).length < 2 ^ 32 then
      BloomFilter.decode (encodePartitioned encs) = .ok (.encoded encs)
    else ∃ e, BloomFilter.decode (encodePartitioned encs) = .error e := by
  rw [encodePartitioned, decode_of_magic hfield (Nat.min_le_left _ _), decodePartitioned]
  split_ifs with hread hparts hparts
  · omega
  · rw [take_of_length_le (by omega), decodeParts_encoded hencs]
    rfl
  · exact ⟨_, rfl⟩
  · rw [decodeParts_cut hencs (by omega)]
    exact ⟨_, rfl⟩

theorem BloomPart.Sized.built (h : p.Sized) : p.Built :=
  .inr ⟨Nat.lt_trans h.nbits (by decide), h.k, h.bits, h.some⟩

theorem partsBody_lt (hparts : ∀ p ∈ parts, p.Built) (hfew : parts.length ≤ 4) :
    (partsBody (parts.map BloomPart.encode)).length < 2 ^ 32 := by
  have hle : ∀ l : List BloomPart, (∀ p ∈ l, p.Built) →
      (partsBody (l.map BloomPart.encode)).length ≤ l.length * (2 ^ 29 + 17) := by
    intro l hl
    induction l with
    | nil => simp [partsBody]
    | cons p l ih =>
      obtain ⟨hp, hl⟩ := forall_mem_cons.mp hl
      have := ih hl
      have := hp.length_lt
      rw [map_cons, partsBody_cons, length_append, length_append, leBytes_length, p.encode_length,
        length_cons, Nat.add_mul]
      omega
  have hbody := hle parts hparts
  omega

theorem BloomPart.Built.encode_lt (hparts : ∀ p ∈ parts, p.Built) :
    ∀ enc ∈ parts.map BloomPart.encode, enc.length < 2 ^ 32 := by
  intro enc henc
  obtain ⟨p, hp, rfl⟩ := mem_map.mp henc
  have := (hparts p hp).length_lt
  rw [p.encode_length]
  omega

theorem insertParts_get (keys : List Key) (parts : List BloomPart) (i : Nat) :
    (keys.foldl insertPart parts)[i]? =
      parts[i]?.map fun p => (keys.filter fun key =>
        partitionIndex (hashPair key) parts.length == i).foldl BloomPart.insert p := by
  induction keys generalizing parts with
  | nil => simp
  | cons key keys ih =>
    rw [foldl_cons, ih, insertPart, length_modify, getElem?_modify, filter_cons]
    by_cases h : partitionIndex (hashPair key) parts.length = i <;> simp [h, Function.comp_def]

theorem insertParts_length (keys : List Key) (parts : List BloomPart) :
    (keys.foldl insertPart parts).length = parts.length := by
  induction keys generalizing parts with
  | nil => rfl
  | cons key keys ih => rw [foldl_cons, ih, insertPart, length_modify]

theorem BloomPart.withCapacity_sized {n bitsPerKey : Nat} (hn : 0 < n) (hbpk : 0 < bitsPerKey)
    (hsize : n * bitsPerKey < filterPartMagic) :
    (withCapacity n bitsPerKey).Sized := by
  rw [withCapacity, if_neg (by omega)]
  simp only [filterPartMagic] at hsize
  refine ⟨?_, ?_, ?_, ?_⟩
  · simp only [filterPartMagic]
    omega
  · simp only [kFromBitsPerKey, maxK]
    omega
  · simp
  · simp only
    omega

theorem fill_sized (keys : List Key) (hparts : ∀ p ∈ parts, p.Sized) :
    (keys.foldl insertPart parts).length = parts.length ∧ ∀ p ∈ keys.foldl insertPart parts, p.Sized := by
  refine ⟨insertParts_length keys parts, fun p hp => ?_⟩
  obtain ⟨i, hi⟩ := mem_iff_getElem?.mp hp
  rw [insertParts_get, Option.map_eq_some_iff] at hi
  obtain ⟨q, hq, rfl⟩ := hi
  exact foldlRecOn _ _ (hparts q (mem_of_getElem? hq)) fun p h key _ => h.insertPrehashed _ _

theorem bulkParts_sized (keys : List Key) (hcap : 0 < min keys.length 2097152) :
    (1 ≤ (bulkParts keys).length ∧ (bulkParts keys).length ≤ 4) ∧ ∀ p ∈ bulkParts keys, p.Sized := by
  have hle : min keys.length 2097152 ≤ 2097152 := Nat.min_le_right _ _
  rw [bulkParts, fillParts, filterNparts]
  generalize min keys.length 2097152 = cap at hcap hle ⊢
  have hbpk : 0 < bitsPerKeyForRun cap ∧ bitsPerKeyForRun cap ≤ 16 := by
    rw [bitsPerKeyForRun, defaultBitsPerKey]
    split_ifs <;> omega
  have hsized (n : Nat) (hn : 0 < n) (hle : n ≤ 2097152) :
      (BloomPart.withCapacity n (bitsPerKeyForRun cap)).Sized := by
    refine BloomPart.withCapacity_sized hn hbpk.1 ?_
    calc n * bitsPerKeyForRun cap ≤ 2097152 * 16 := Nat.mul_le_mul hle hbpk.2
      _ < filterPartMagic := by decide
  split_ifs with hfew hone hone
  · obtain ⟨hlength, hall⟩ := fill_sized keys (forall_mem_singleton.mpr (hsized cap hcap hle))
    exact ⟨⟨Nat.le_of_eq hlength.symm, Nat.le_trans (Nat.le_of_eq hlength) (by decide : 1 ≤ 4)⟩, hall⟩
  · omega
  · omega
  · have hfresh :
        ∀ p ∈ List.replicate 4 (BloomPart.withCapacity (cap / 4 + 1) (bitsPerKeyForRun cap)),
        p.Sized := fun p hp =>
      eq_of_mem_replicate hp ▸ hsized _ (Nat.succ_pos _) (by omega)
    obtain ⟨hlength, hall⟩ := fill_sized keys hfresh
    exact ⟨⟨Nat.le_trans (by decide : 1 ≤ 4) (Nat.le_of_eq hlength.symm), Nat.le_of_eq hlength⟩, hall⟩

/-- **The filter that is written can be read.** -/
theorem decode_encode_built {keys : List Key} (hne : keys ≠ []) :
    ∃ f, BloomFilter.decode (bulkFilter keys).encode = .ok f ∧ f.isActive = true := by
  have hcap : 0 < min keys.length 2097152 := by
    have := length_pos_of_ne_nil hne
    omega
  obtain ⟨hlength, hsized⟩ := bulkParts_sized keys hcap
  rw [bulkFilter]
  split
  · next h => simp [h] at hlength
  · next p h =>
    have hp : p.Sized := hsized p (h ▸ mem_cons_self)
    exact ⟨_, decode_mono hp.built (Nat.ne_of_lt hp.nbits), BloomPart.active hp.k.1 hp.bits hp.some⟩
  · next hnil hone =>
    have hbuilt : ∀ p ∈ bulkParts keys, p.Built := fun p hp => (hsized p hp).built
    have hmany : 1 < (bulkParts keys).length := by
      by_contra hle
      obtain ⟨p, hp⟩ := length_eq_one_iff.mp (by omega : (bulkParts keys).length = 1)
      exact hone p hp
    have hread := decode_parts (BloomPart.Built.encode_lt hbuilt) (by rwa [length_map])
      (by rw [length_map]; omega)
    rw [length_map, if_pos ⟨by omega, partsBody_lt hbuilt hlength.2⟩] at hread
    exact ⟨_, hread, rfl⟩

/-! ### No key is missed -/

/-- A frozen filter answers from the same arrays. -/
theorem mayContain_frozen (hparts : ∀ p ∈ parts, p.Built) (hs : UInt64 × UInt64) :
    (BloomFilter.encoded (parts.map BloomPart.encode)).mayContainWithHashes hs =
    (BloomFilter.parts parts).mayContainWithHashes hs := by
  simp only [BloomFilter.mayContainWithHashes, length_map, getD_eq_getElem?_getD, getElem?_map]
  cases h : parts[partitionIndex hs parts.length]? with
  | none => rfl
  | some p => simp [(hparts p (mem_of_getElem? h)).decodeMono]

/-- Every key is answered with yes and the frozen filter answers alike. Reading the bytes back
gives the frozen filter if and only if the sizes allow it. Otherwise it fails, but for a lone
array with the magic number of bits and some probes, whose bits are taken for parts. -/
structure BloomFilter.Keeps (f : BloomFilter) (keys : List Key) : Prop where
  inserted : ∀ key ∈ keys, f.mayContain key = true
  frozen : ∀ hs, f.freezePartitions.mayContainWithHashes hs = f.mayContainWithHashes hs
  read : BloomFilter.decode f.encode = .ok f.freezePartitions ↔ f.readable = true
  refused : f.readable = false →
    (∃ e, BloomFilter.decode f.encode = .error e) ∨ ∃ p, f = .mono p ∧ p.nbits = filterPartMagic ∧ 2 ≤ p.k

theorem mono_keeps (h : p.Built) (keys : List Key) :
    (BloomFilter.mono (keys.foldl BloomPart.insert p)).Keeps keys := by
  have hbuilt := h.fold keys
  refine ⟨fun key hkey => h.mayContain_inserted hkey, fun _ => rfl, ⟨fun hread => ?_, fun hmagic =>
    decode_mono hbuilt (bne_iff_ne.mp hmagic)⟩, fun hread => ?_⟩
  · -- what is read behind the magic number is not a lone array
    refine bne_iff_ne.mpr fun hmagic => ?_
    rw [BloomFilter.encode, decode_mono_magic hbuilt hmagic, decodePartitioned] at hread
    split at hread
    · cases hread
    · cases hparts : decodeParts (keys.foldl BloomPart.insert p).k
        (keys.foldl BloomPart.insert p).bits <;>
        simp [hparts, BloomFilter.freezePartitions, Except.map] at hread
  · have hmagic : (keys.foldl BloomPart.insert p).nbits = filterPartMagic := by
      simpa [BloomFilter.readable] using hread
    by_cases hk : 2 ≤ (keys.foldl BloomPart.insert p).k
    · exact .inr ⟨_, rfl, hmagic, hk⟩
    · left
      rw [BloomFilter.encode, decode_mono_magic hbuilt hmagic, decodePartitioned, if_pos (by omega)]
      exact ⟨_, rfl⟩

theorem parts_keep (h : ∀ p ∈ parts, p.Built) (hmany : 1 < parts.length)
    (hfield : parts.length < 2 ^ 32) (keys : List Key) :
    (BloomFilter.parts (keys.foldl insertPart parts)).Keeps keys := by
  have hlength := insertParts_length keys parts
  have hget {i : Nat} {p : BloomPart} (hp : (keys.foldl insertPart parts)[i]? = some p) :
      p.Built ∧ ∀ key ∈ keys, partitionIndex (hashPair key) parts.length = i →
        p.mayContainWithHashes (hashPair key) = true := by
    rw [insertParts_get, Option.map_eq_some_iff] at hp
    obtain ⟨p, hp, rfl⟩ := hp
    have hbuilt := h p (mem_of_getElem? hp)
    exact ⟨hbuilt.fold _, fun key hkey hi =>
      hbuilt.mayContain_inserted (mem_filter.mpr ⟨hkey, beq_iff_eq.mpr hi⟩)⟩
  have hbuilt : ∀ p ∈ keys.foldl insertPart parts, p.Built := by
    intro p hp
    obtain ⟨i, hi⟩ := mem_iff_getElem?.mp hp
    exact (hget hi).1
  have hdecode := decode_parts (BloomPart.Built.encode_lt hbuilt)
    (by rwa [length_map, hlength]) (by rwa [length_map, hlength])
  have hread : (BloomFilter.parts (keys.foldl insertPart parts)).readable = true ↔
      ((keys.foldl insertPart parts).map BloomPart.encode).length ≤ 64 ∧
        (partsBody ((keys.foldl insertPart parts).map BloomPart.encode)).length < 2 ^ 32 := by
    simp [BloomFilter.readable]
  refine ⟨fun key hkey => ?_, mayContain_frozen hbuilt, ?_, fun hnot => ?_⟩
  · rw [BloomFilter.mayContain, BloomFilter.mayContainWithHashes, hlength, Option.all_eq_true]
    exact fun p hp => (hget hp).2 key hkey rfl
  · rw [hread]
    split at hdecode
    · exact ⟨fun _ => ‹_›, fun _ => hdecode⟩
    · obtain ⟨e, he⟩ := hdecode
      exact ⟨fun hok => absurd (he.symm.trans hok) (by simp), fun h => absurd h ‹_›⟩
  · rw [if_neg fun h => by simp [hread.mpr h] at hnot] at hdecode
    exact .inl hdecode

/-- Every probe of every key hits a bit that a probe of an inserted key hits, or the array does
not filter. -/
def Saturated (n bitsPerKey : Nat) (keys : List Key) : Prop :=
  let p := BloomPart.withCapacity n bitsPerKey
  n = 0 ∨ bitsPerKey = 0 ∨ ∀ key, ∀ i < p.k, ∃ key' ∈ keys, ∃ j < p.k,
    probeBit (hashPair key').1 (hashPair key').2 j p.nbits =
    probeBit (hashPair key).1 (hashPair key).2 i p.nbits

theorem saturated_iff (n bitsPerKey : Nat) (keys : List Key) :
    (∀ key, (BloomFilter.mono (keys.foldl BloomPart.insert (.withCapacity n bitsPerKey))).mayContain
      key = true) ↔
      Saturated n bitsPerKey keys := by
  simp only [BloomFilter.mayContain, BloomFilter.mayContainWithHashes,
    (BloomPart.Built.withCapacity n bitsPerKey).mayContain_fold, Saturated]
  by_cases hidle : n = 0 ∨ bitsPerKey = 0
  · have : (BloomPart.withCapacity n bitsPerKey).isActive = false := by
      rw [BloomPart.withCapacity, if_pos hidle]
      rfl
    simp only [this]
    tauto
  · have hactive : (BloomPart.withCapacity n bitsPerKey).isActive = true := by
      rcases BloomPart.Built.withCapacity n bitsPerKey with heq | ⟨-, hk, hbits, hpos⟩
      · have := congrArg BloomPart.nbits heq
        rw [BloomPart.withCapacity, if_neg hidle] at this
        simp only [BloomPart.alwaysTrue] at this
        omega
      · exact BloomPart.active hk.1 hbits hpos
    have hclear : ∀ j, testBit (BloomPart.withCapacity n bitsPerKey).bits j = false := by
      intro j
      have hzero : ∀ m : Nat, (List.replicate m (0 : UInt8)).getD (j / 8) 0 = 0 := by
        intro m
        rw [getD_eq_getElem?_getD, getElem?_replicate]
        split <;> rfl
      rw [BloomPart.withCapacity, if_neg hidle, testBit, hzero]
      simp
    obtain ⟨hn, hbpk⟩ := not_or.mp hidle
    simp [hactive, hclear, hn, hbpk]

/-- **No key is missed**, in a filter of partitions and in one put together from arrays. The two
answer alike if there is more than one array, or the lone one lets every key pass. -/
theorem no_false_negatives (n bitsPerKey : Nat) (nparts : UInt32) (keys : List Key) :
    let f := keys.foldl BloomFilter.insert (.withPartitions n bitsPerKey nparts.toNat)
    let g := BloomFilter.fromPartitionBuilders (keys.foldl insertPart
      (List.replicate nparts.toNat (.withCapacity (n / nparts.toNat + 1) bitsPerKey)))
    f.Keeps keys ∧ g.Keeps keys ∧
      ((∀ key, f.mayContain key = g.mayContain key) ↔ 1 < nparts.toNat ∨
        Saturated n bitsPerKey keys) := by
  intro f g
  have hfield := nparts.toNat_lt
  by_cases hmany : nparts.toNat ≤ 1
  · have hf : f = .mono (keys.foldl BloomPart.insert (.withCapacity n bitsPerKey)) := by
      simp only [f, BloomFilter.withPartitions, if_pos hmany]
      exact foldl_hom _ fun _ _ => rfl
    have hg : g = .mono .alwaysTrue := if_pos (by rw [insertParts_length, length_replicate]; exact hmany)
    have hidle : (BloomFilter.mono .alwaysTrue).Keeps keys :=
      ⟨fun _ _ => rfl, fun _ => rfl, ⟨fun _ => rfl, fun _ => by decide⟩, fun h => by cases h⟩
    refine ⟨hf ▸ mono_keeps (.withCapacity n bitsPerKey) keys, hg ▸ hidle, ?_⟩
    rw [hf, hg, ← saturated_iff]
    exact ⟨fun h => .inr h, fun h => h.resolve_left (Nat.not_lt.mpr hmany)⟩
  · have hf : f = .parts (keys.foldl insertPart
        (List.replicate nparts.toNat (.withCapacity (n / nparts.toNat + 1) bitsPerKey))) := by
      simp only [f, BloomFilter.withPartitions, if_neg hmany]
      exact foldl_hom _ fun _ _ => rfl
    have hg : g = f := (if_neg (by rw [insertParts_length, length_replicate]; exact hmany)).trans hf.symm
    have hkeeps : f.Keeps keys := hf ▸ parts_keep (fun p hp => eq_of_mem_replicate hp ▸ .withCapacity _ _)
      (by rw [length_replicate]; omega) (by rwa [length_replicate]) keys
    exact ⟨hkeeps, hg ▸ hkeeps, fun _ => .inl (by omega), fun _ _ => by rw [hg]⟩

/-- Sixty-five parts are written and not read back, and of one array nothing is kept. -/
theorem many_parts_refused : BloomFilter.decode (BloomFilter.withPartitions 1 1 65).encode = .error
    (.nparts 65) ∧
      (BloomFilter.withPartitions 1 1 1).mayContain [] = false ∧
        (BloomFilter.fromPartitionBuilders [.withCapacity 2 1]).mayContain [] = true := by
  refine ⟨?_, ?_, ?_⟩ <;> decide +kernel

end PedraDb.Sst
