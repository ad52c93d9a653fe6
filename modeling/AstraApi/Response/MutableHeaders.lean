import AstraApi.Http.Request
import AstraApi.Server.ChunkedStreaming
import AstraApi.Lib.Positions
import AstraApi.Lib.Utf8

/-!
# MutableHeaders

A list of raw headers, and an index from lower-case names to positions.  The constructor, the
assignment, `append` and the deletion each keep the index in their own way.
-/

namespace AstraApi.Response

open Option hiding map_map mem_map
open List
open Server (Octets HeaderPair)
open Positions (First Last)

variable {raw : List HeaderPair} {name : Bytes} {key : Text} {pair : HeaderPair}
  {headers : MutableHeaders}

inductive HeaderExc where
  | keyError (key : Octets)
  | indexError
  | unicodeEncodeError

/-! ## Names -/

def bytesLower (name : Bytes) : Bytes := name.map Http.lower

def lowerLatin1 (b : Byte) : Byte :=
  if 65 ≤ b ∧ b ≤ 90 ∨ 192 ≤ b ∧ b ≤ 222 ∧ b ≠ 215 then b + 32 else b

/-- `str.lower` and `encode("latin-1")` of one character.  Four characters beyond Latin-1 have
a lower case in it. -/
def lowerChar (c : CodePoint) : Option Byte :=
  if c.val < 256 then some (lowerLatin1 (UInt8.ofNat c.val))
  else if c.val = 0x178 then some 0xFF
  else if c.val = 0x1E9E then some 0xDF
  else if c.val = 0x212A then some 0x6B
  else if c.val = 0x212B then some 0xE5
  else none

def keyBytes (key : Text) : Option Bytes := key.mapM lowerChar

def decoded : Octets → Text
  | .bytes data => Text.ofLatin1 data
  | .str text => text

/-! ## The mapping -/

structure MutableHeaders where
  raw : List HeaderPair
  index : Bytes → Option ℕ

namespace MutableHeaders

/-- The loop of `__init__`. -/
def buildIndex : ℕ → List HeaderPair → (Bytes → Option ℕ) → Option (Bytes → Option ℕ)
  | _, [], index => some index
  | i, pair :: rest, index =>
    match pair.1.latin1 with
    | none => none
    | some name => buildIndex (i + 1) rest (Function.update index (bytesLower name) (some i))

def init (raw : List HeaderPair) : Option MutableHeaders :=
  (buildIndex 0 raw fun _ => none).map fun index => { raw, index }

section Methods

variable (headers : MutableHeaders)

def find : Octets → Except HeaderExc (Option ℕ)
  | .bytes key => .ok (headers.index (bytesLower key))
  | .str key =>
    match keyBytes key with
    | none => .error .unicodeEncodeError
    | some name => .ok (headers.index name)

/-- `__getitem__` -/
def getItem (key : Octets) : Except HeaderExc Text :=
  match headers.find key with
  | .error exc => .error exc
  | .ok none => .error (.keyError key)
  | .ok (some i) =>
    match headers.raw[i]? with
    | none => .error .indexError
    | some pair => .ok (decoded pair.2)

def contains (key : Octets) : Except HeaderExc Bool := (headers.find key).map (·.isSome)

/-- `__setitem__` -/
def setItem (key value : Text) : Except HeaderExc Unit × MutableHeaders :=
  match keyBytes key, value.latin1 with
  | some name, some data =>
    match headers.index name with
    | some i =>
      if i < headers.raw.length then
        (.ok (), { headers with raw := headers.raw.set i (.bytes name, .bytes data) })
      else (.error .indexError, headers)
    | none =>
      (.ok (), { raw := headers.raw ++ [(.bytes name, .bytes data)]
                 index := Function.update headers.index name (some headers.raw.length) })
  | _, _ => (.error .unicodeEncodeError, headers)

/-- `__delitem__`.  The entry has left the index before the list is touched. -/
def delItem (key : Text) : Except HeaderExc Unit × MutableHeaders :=
  match keyBytes key with
  | none => (.error .unicodeEncodeError, headers)
  | some name =>
    match headers.index name with
    | none => (.error (.keyError (.str key)), headers)
    | some i =>
      let index := Function.update headers.index name none
      if i < headers.raw.length then
        (.ok (), { raw := headers.raw.eraseIdx i
                   index := fun k => (index k).map fun v => if v > i then v - 1 else v })
      else (.error .indexError, { headers with index })

/-- `append`.  The value is encoded after the name has been indexed. -/
def append (key value : Text) : Except HeaderExc Unit × MutableHeaders :=
  match keyBytes key with
  | none => (.error .unicodeEncodeError, headers)
  | some name =>
    let index := if (headers.index name).isNone then
      Function.update headers.index name (some headers.raw.length) else headers.index
    match value.latin1 with
    | none => (.error .unicodeEncodeError, { headers with index })
    | some data =>
      (.ok (), { raw := headers.raw ++ [(.bytes name, .bytes data)], index })

end Methods

def update (headers : MutableHeaders) : List (Text × Text) → Except HeaderExc Unit × MutableHeaders
  | [] => (.ok (), headers)
  | (key, value) :: pairs =>
    match headers.setItem key value with
    | (.ok (), headers) => headers.update pairs
    | (.error exc, headers) => (.error exc, headers)

inductive Op where
  | setItem (key value : Text)
  | delItem (key : Text)
  | append (key value : Text)
  | update (pairs : List (Text × Text))

def step (headers : MutableHeaders) : Op → Except HeaderExc Unit × MutableHeaders
  | .setItem key value => headers.setItem key value
  | .delItem key => headers.delItem key
  | .append key value => headers.append key value
  | .update pairs => headers.update pairs

/-! ## What the index is for -/

def lowerName (pair : HeaderPair) : Option Bytes := pair.1.latin1.map (·.map lowerLatin1)

/-- The entry has the name, in any case. -/
def Named (key : Text) (pair : HeaderPair) : Prop :=
  (lowerName pair).isSome ∧ lowerName pair = keyBytes key

instance (key : Text) (pair : HeaderPair) : Decidable (Named key pair) :=
  inferInstanceAs (Decidable (_ ∧ _))

/-- Index entries point at entries of their names, and the names that are present are indexed at
their first occurrences.  Membership and reading are those of the list. -/
structure Consistent (headers : MutableHeaders) : Prop where
  points : ∀ name i, headers.index name = some i →
    ∃ pair, headers.raw[i]? = some pair ∧ lowerName pair = some name
  first : ∀ name pair, pair ∈ headers.raw → lowerName pair = some name →
    headers.index name = headers.raw.findIdx? fun pair => lowerName pair = some name
  contains_iff : ∀ key, headers.contains (.str key) = .ok true ↔
    ∃ pair ∈ headers.raw, Named key pair
  getItem_first : ∀ key pair, headers.raw.find? (fun pair => Named key pair) = some pair →
    headers.getItem (.str key) = .ok (decoded pair.2)

/-- What is seen right after an operation that has not raised. -/
def Observed : Op → Except HeaderExc Unit × MutableHeaders → Prop
  | .setItem key value, (.ok _, headers) => headers.getItem (.str key) = .ok value
  | .delItem key, (.ok _, headers) =>
    (∀ pair ∈ headers.raw, ¬ Named key pair) ∧ headers.contains (.str key) = .ok false
  | _, _ => True

/-- All states of a run, and what is seen after each operation. -/
def Faithful (headers : MutableHeaders) : List Op → Prop
  | [] => headers.Consistent
  | op :: ops => headers.Consistent ∧ Observed op (headers.step op) ∧
      Faithful (headers.step op).2 ops

/-- No name occurs twice, and names have no capital letters beyond ASCII. -/
structure Plain (raw : List HeaderPair) : Prop where
  nodup : (raw.map lowerName).Nodup
  lower : ∀ pair ∈ raw, pair.1.latin1.map bytesLower = lowerName pair

/-- A name that is deleted occurs once at most.  A value that is appended under a new name can
be encoded. -/
def Safe (headers : MutableHeaders) : Op → Prop
  | .delItem key => headers.raw.countP (fun pair => Named key pair) ≤ 1
  | .append key value => keyBytes key = none ∨ value.latin1 ≠ none ∨
      ∃ pair ∈ headers.raw, Named key pair
  | _ => True

instance (headers : MutableHeaders) : ∀ op, Decidable (headers.Safe op)
  | .setItem _ _ => inferInstanceAs (Decidable True)
  | .delItem _ => inferInstanceAs (Decidable (_ ≤ _))
  | .append _ _ => inferInstanceAs (Decidable (_ ∨ _))
  | .update _ => inferInstanceAs (Decidable True)

def Legal (headers : MutableHeaders) : List Op → Prop
  | [] => True
  | op :: ops => headers.Safe op ∧ Legal (headers.step op).2 ops

instance decidableLegal (headers : MutableHeaders) : ∀ ops, Decidable (headers.Legal ops)
  | [] => inferInstanceAs (Decidable True)
  | op :: ops =>
    have := decidableLegal (headers.step op).2 ops
    inferInstanceAs (Decidable (_ ∧ _))

/-! ## The index and the names -/

def Tracks (headers : MutableHeaders) : Prop :=
  ∀ name i, headers.index name = some i ↔ First (some name) (headers.raw.map lowerName) i

theorem findIdx?_eq_some_iff {raw : List HeaderPair} {name : Bytes} {i : ℕ} :
    (raw.findIdx? fun pair => lowerName pair = some name) = some i ↔
      First (some name) (raw.map lowerName) i := by
  rw [findIdx?_eq_some_iff_getElem]
  constructor
  · rintro ⟨hi, hname, hbefore⟩
    refine ⟨by simpa [hi] using hname, fun j hj => ?_⟩
    have hjlt : j < raw.length := hj.trans hi
    simpa [hjlt] using hbefore j hj
  · rintro ⟨hi, hbefore⟩
    have hlt : i < raw.length := by
      simpa using (List.getElem?_eq_some_iff.mp hi).1
    refine ⟨hlt, by simpa [hlt] using hi, fun j hj => ?_⟩
    have hjlt : j < raw.length := hj.trans hlt
    simpa [hjlt] using hbefore j hj

theorem named_iff (hkey : keyBytes key = some name)
    (pair : HeaderPair) : Named key pair ↔ lowerName pair = some name := by
  rw [Named, hkey]
  constructor
  · exact And.right
  · intro h
    exact ⟨by simp [h], h⟩

theorem not_named_of_none (hkey : keyBytes key = none) (pair : HeaderPair) :
    ¬ Named key pair := by
  rintro ⟨hsome, hname⟩
  rw [hname, hkey] at hsome
  cases hsome

theorem exists_named_iff (hkey : keyBytes key = some name)
    (raw : List HeaderPair) :
    (∃ pair ∈ raw, Named key pair) ↔ some name ∈ raw.map lowerName := by
  simp only [named_iff hkey, mem_map]

section Tracked

variable {headers : MutableHeaders} (h : headers.Tracks)

include h in
theorem Tracks.index_eq_none_iff (name : Bytes) :
    headers.index name = none ↔ some name ∉ headers.raw.map lowerName := by
  constructor
  · intro hnone hmem
    obtain ⟨i, hi⟩ := Positions.exists_first hmem
    rw [← h, hnone] at hi
    cases hi
  · intro hmem
    cases hindex : headers.index name with
    | none => rfl
    | some i => exact absurd ((h name i).mp hindex).mem hmem

include h in
theorem Tracks.contains_iff (key : Text) :
    headers.contains (.str key) = .ok true ↔ ∃ pair ∈ headers.raw, Named key pair := by
  cases hkey : keyBytes key with
  | none => simp [contains, find, hkey, not_named_of_none hkey, Except.map]
  | some name =>
    rw [exists_named_iff hkey, ← not_iff_not, ← h.index_eq_none_iff]
    cases hindex : headers.index name <;> simp [contains, find, hkey, hindex, Except.map]

include h in
theorem Tracks.getItem_of_first (hkey : keyBytes key = some name)
    {i : ℕ} (hi : First (some name) (headers.raw.map lowerName) i)
    (hpair : headers.raw[i]? = some pair) : headers.getItem (.str key) = .ok (decoded pair.2) := by
  simp [getItem, find, hkey, (h name i).mpr hi, hpair]

include h in
theorem Tracks.consistent : headers.Consistent where
  points name i hindex := by
    have hi := ((h name i).mp hindex).1
    rw [getElem?_map, map_eq_some_iff] at hi
    exact hi
  first name pair hmem hname := by
    obtain ⟨i, hi⟩ := Positions.exists_first (mem_map.mpr ⟨pair, hmem, hname⟩)
    rw [(h name i).mpr hi, findIdx?_eq_some_iff.mpr hi]
  contains_iff := h.contains_iff
  getItem_first key pair hpair := by
    cases hkey : keyBytes key with
    | none =>
      have hnamed : Named key pair := by simpa using find?_some hpair
      exact absurd hnamed (not_named_of_none hkey pair)
    | some name =>
      obtain ⟨hname, i, hi, heq, hbefore⟩ := find?_eq_some_iff_getElem.mp hpair
      simp only [named_iff hkey, decide_eq_true_eq, Bool.not_eq_true', decide_eq_false_iff_not]
        at hname hbefore
      have hfirst : First (some name) (headers.raw.map lowerName) i := by
        refine findIdx?_eq_some_iff.mp (findIdx?_eq_some_iff_getElem.mpr ⟨hi, ?_, ?_⟩)
        · simpa [heq] using hname
        · intro j hj
          simpa using hbefore j hj
      exact h.getItem_of_first hkey hfirst (List.getElem?_eq_some_iff.mpr ⟨hi, heq⟩)

end Tracked

theorem consistent_iff_tracks :
    headers.Consistent ↔ headers.Tracks := by
  refine ⟨fun h name i => ⟨fun hindex => ?_, fun hi => ?_⟩, Tracks.consistent⟩
  · obtain ⟨pair, hpair, hname⟩ := h.points _ i hindex
    rwa [h.first _ _ (mem_of_getElem? hpair) hname, findIdx?_eq_some_iff] at hindex
  · obtain ⟨pair, hmem, hname⟩ := mem_map.mp hi.mem
    rwa [h.first _ _ hmem hname, findIdx?_eq_some_iff]

/-! ## The constructor -/

/-- The name as the constructor reads it. -/
def indexedName (pair : HeaderPair) : Option Bytes := pair.1.latin1.map bytesLower

theorem buildIndex_eq_some {start : ℕ} {index result : Bytes → Option ℕ}
    (h : buildIndex start raw index = some result) :
    (∀ pair ∈ raw, pair.1.latin1 ≠ none) ∧ ∀ name j, result name = some j ↔
      (∃ k, j = start + k ∧ Last (some name) (raw.map indexedName) k) ∨
        some name ∉ raw.map indexedName ∧ index name = some j := by
  induction raw generalizing start index with
  | nil =>
    cases h
    simp [Last]
  | cons pair rest ih =>
    rw [buildIndex] at h
    split at h
    · cases h
    · rename_i data hdata
      obtain ⟨hencoded, hresult⟩ := ih h
      have hpair : indexedName pair = some (bytesLower data) := by simp [indexedName, hdata]
      refine ⟨by simpa [hdata] using hencoded, fun name j => ?_⟩
      rw [hresult, map_cons, hpair]
      simp only [Positions.last_cons_iff, mem_cons, some_inj]
      have hstart (k : ℕ) : start + 1 + k = start + (k + 1) := by omega
      by_cases hname : name = bytesLower data
      · subst hname
        rw [Function.update_self]
        constructor
        · rintro (⟨k, rfl, hk⟩ | ⟨hmem, hj⟩)
          · exact Or.inl ⟨k + 1, hstart k, Or.inl ⟨k, rfl, hk⟩⟩
          · exact Or.inl ⟨0, (some_inj.mp hj).symm, Or.inr ⟨hmem, rfl, rfl⟩⟩
        · rintro (⟨-, rfl, ⟨k, rfl, hk⟩ | ⟨hmem, -, rfl⟩⟩ | ⟨hmem, -⟩)
          · exact Or.inl ⟨k, (hstart k).symm, hk⟩
          · exact Or.inr ⟨hmem, rfl⟩
          · exact absurd (Or.inl rfl) hmem
      · rw [Function.update_of_ne hname]
        constructor
        · rintro (⟨k, rfl, hk⟩ | ⟨hmem, hj⟩)
          · exact Or.inl ⟨k + 1, hstart k, Or.inl ⟨k, rfl, hk⟩⟩
          · exact Or.inr ⟨fun h => h.elim hname hmem, hj⟩
        · rintro (⟨-, rfl, ⟨k, rfl, hk⟩ | ⟨-, heq, -⟩⟩ | ⟨hmem, hj⟩)
          · exact Or.inl ⟨k, (hstart k).symm, hk⟩
          · exact absurd heq hname
          · exact Or.inr ⟨fun h => hmem (Or.inr h), hj⟩

theorem init_eq_some (h : init raw = some headers) :
    headers.raw = raw ∧ (∀ pair ∈ raw, pair.1.latin1 ≠ none) ∧
      ∀ name i, headers.index name = some i ↔ Last (some name) (raw.map indexedName) i := by
  obtain ⟨index, hindex, rfl⟩ := map_eq_some_iff.mp h
  obtain ⟨hencoded, hresult⟩ := buildIndex_eq_some hindex
  refine ⟨rfl, hencoded, fun name i => ?_⟩
  rw [hresult]
  simp

theorem lowerLatin1_lower (b : Byte) : lowerLatin1 (Http.lower b) = lowerLatin1 b := by
  have hall : ∀ n < 256, lowerLatin1 (Http.lower (UInt8.ofNat n)) = lowerLatin1 (UInt8.ofNat n) := by
    decide +kernel
  have hb := hall _ b.toNat_lt
  rwa [UInt8.ofNat_toNat] at hb

theorem lowerLatin1_lowerLatin1 (b : Byte) : lowerLatin1 (lowerLatin1 b) = lowerLatin1 b := by
  have hall : ∀ n < 256, lowerLatin1 (lowerLatin1 (UInt8.ofNat n)) = lowerLatin1 (UInt8.ofNat n) := by
    decide +kernel
  have hb := hall _ b.toNat_lt
  rwa [UInt8.ofNat_toNat] at hb

theorem lowerName_eq_of_indexedName {other : HeaderPair}
    (hpair : indexedName pair = some name) (hother : lowerName other = some name) :
    lowerName pair = some name := by
  obtain ⟨data, hdata, rfl⟩ := map_eq_some_iff.mp hpair
  obtain ⟨data', hdata', heq⟩ := map_eq_some_iff.mp hother
  have hidem : (bytesLower data).map lowerLatin1 = bytesLower data := by
    rw [← heq, map_map]
    exact map_congr_left fun b _ => lowerLatin1_lowerLatin1 b
  have hlower : (bytesLower data).map lowerLatin1 = data.map lowerLatin1 := by
    rw [bytesLower, map_map]
    exact map_congr_left fun b _ => lowerLatin1_lower b
  rw [lowerName, hdata, map_some, ← hlower, hidem]

/-- A new mapping is consistent exactly for plain headers. -/
theorem tracks_init_iff (h : init raw = some headers) : headers.Tracks ↔ Plain raw := by
  obtain ⟨hraw, hencoded, hindex⟩ := init_eq_some h
  simp only [Tracks, hraw, hindex]
  constructor
  · intro htracks
    have hlower : ∀ pair ∈ raw, indexedName pair = lowerName pair := by
      intro pair hmem
      obtain ⟨data, hdata⟩ := ne_none_iff_exists'.mp (hencoded _ hmem)
      have hname : indexedName pair = some (bytesLower data) := by simp [indexedName, hdata]
      obtain ⟨i, hi⟩ := Positions.exists_last (mem_map.mpr ⟨pair, hmem, hname⟩)
      obtain ⟨other, -, hother⟩ := mem_map.mp ((htracks _ i).mp hi).mem
      rw [hname, lowerName_eq_of_indexedName hname hother]
    have hnames : raw.map indexedName = raw.map lowerName := map_congr_left hlower
    refine ⟨Positions.nodup_iff_last_first.mpr fun name i hi => ?_, hlower⟩
    cases name with
    | some name => exact (htracks _ i).mp (hnames ▸ hi)
    | none =>
      obtain ⟨pair, hmem, hnone⟩ := mem_map.mp (mem_of_getElem? hi.1)
      exact absurd (map_eq_none_iff.mp hnone) (hencoded _ hmem)
  · intro hplain name i
    have hnames : raw.map indexedName = raw.map lowerName := map_congr_left hplain.lower
    rw [hnames]
    have hfirst := Positions.nodup_iff_last_first.mp hplain.nodup
    refine ⟨hfirst _ i, fun hi => ?_⟩
    obtain ⟨j, hj⟩ := Positions.exists_last hi.mem
    rwa [hi.unique (hfirst _ j hj)]

/-! ## The operations -/

section Steps

variable {headers : MutableHeaders} (h : headers.Tracks)

theorem lowerChar_latin1 {c : CodePoint} {b : Byte} (hc : lowerChar c = some b) :
    lowerLatin1 b = b := by
  unfold lowerChar at hc
  split at hc
  · cases hc
    exact lowerLatin1_lowerLatin1 _
  · split at hc
    · cases hc
      decide
    · split at hc
      · cases hc
        decide
      · split at hc
        · cases hc
          decide
        · split at hc
          · cases hc
            decide
          · cases hc

theorem map_lowerLatin1_keyBytes (hkey : keyBytes key = some name) :
    name.map lowerLatin1 = name := by
  induction key generalizing name with
  | nil =>
    cases hkey
    rfl
  | cons c key ih =>
    simp only [keyBytes, mapM_cons, bind_eq_bind, bind_eq_some_iff] at hkey
    obtain ⟨b, hb, rest, hrest, heq⟩ := hkey
    cases heq
    rw [map_cons, lowerChar_latin1 hb, ih hrest]

theorem lowerName_keyBytes (hkey : keyBytes key = some name)
    (value : Octets) : lowerName (.bytes name, value) = some name :=
  congrArg _ (map_lowerLatin1_keyBytes hkey)

theorem map_lowerName_set {i : ℕ}
    (hi : (raw.map lowerName)[i]? = some (some name)) (hpair : lowerName pair = some name) :
    (raw.set i pair).map lowerName = raw.map lowerName := by
  rw [map_set, hpair]
  obtain ⟨hlt, hget⟩ := List.getElem?_eq_some_iff.mp hi
  rw [← hget, set_getElem_self]

include h in
/-- An entry at the end, under a name that is indexed if it was not. -/
theorem Tracks.snoc (hpair : lowerName pair = some name) :
    Tracks { raw := headers.raw ++ [pair]
             index := if (headers.index name).isNone then
               Function.update headers.index name (some headers.raw.length)
             else headers.index } := by
  intro other i
  have hlength : (headers.raw.map lowerName).length = headers.raw.length := length_map _
  rw [map_append, map_singleton, hpair, Positions.first_append_singleton_iff, ← h,
    ← h.index_eq_none_iff, some_inj, hlength]
  cases hname : headers.index name with
  | some j =>
    simp only [isNone_some, Bool.false_eq_true, if_false]
    refine ⟨Or.inl, fun hor => hor.resolve_right ?_⟩
    rintro ⟨hnone, rfl, -⟩
    rw [hname] at hnone
    cases hnone
  | none =>
    simp only [isNone_none, if_true]
    by_cases hother : other = name
    · subst hother
      simp [hname, eq_comm]
    · simp [hother]

include h in
theorem Tracks.setItem (key value : Text) :
    (headers.setItem key value).2.Tracks ∧
      Observed (.setItem key value) (headers.setItem key value) := by
  cases hkey : keyBytes key with
  | none =>
    have hset : headers.setItem key value = (.error .unicodeEncodeError, headers) := by
      simp [MutableHeaders.setItem, hkey]
    rw [hset]
    exact ⟨h, trivial⟩
  | some name =>
    cases hvalue : value.latin1 with
    | none =>
      have hset : headers.setItem key value = (.error .unicodeEncodeError, headers) := by
        simp [MutableHeaders.setItem, hkey, hvalue]
      rw [hset]
      exact ⟨h, trivial⟩
    | some data =>
      have hname := lowerName_keyBytes hkey (.bytes data)
      have hdecoded : decoded (.bytes data) = value := ofLatin1_of_latin1 hvalue
      cases hindex : headers.index name with
      | some i =>
        have hfirst := (h name i).mp hindex
        have hlt : i < headers.raw.length := by
          simpa using hfirst.lt
        have htracks : Tracks { headers with
            raw := headers.raw.set i (.bytes name, .bytes data) } := by
          intro other j
          rw [map_lowerName_set hfirst.1 hname]
          exact h other j
        have hset : headers.setItem key value = (.ok (), { headers with
            raw := headers.raw.set i (.bytes name, .bytes data) }) := by
          simp [MutableHeaders.setItem, hkey, hvalue, hindex, hlt]
        rw [hset]
        refine ⟨htracks, ?_⟩
        have hread := htracks.getItem_of_first hkey ((htracks name i).mp hindex)
          (getElem?_set_self hlt)
        rwa [hdecoded] at hread
      | none =>
        have hset : headers.setItem key value = (.ok (), {
            raw := headers.raw ++ [(.bytes name, .bytes data)]
            index := Function.update headers.index name (some headers.raw.length) }) := by
          simp [MutableHeaders.setItem, hkey, hvalue, hindex]
        have htracks := h.snoc hname
        simp only [hindex, isNone_none, if_true] at htracks
        rw [hset]
        refine ⟨htracks, ?_⟩
        have hread := htracks.getItem_of_first hkey
          ((htracks name headers.raw.length).mp (Function.update_self ..))
          (getElem?_concat_length ..)
        rwa [hdecoded] at hread

include h in
theorem Tracks.update (pairs : List (Text × Text)) : (headers.update pairs).2.Tracks := by
  induction pairs generalizing headers with
  | nil => exact h
  | cons pair pairs ih =>
    have hset := (h.setItem pair.1 pair.2).1
    rw [MutableHeaders.update]
    split
    · rename_i next hnext
      rw [hnext] at hset
      exact ih hset
    · rename_i exc next hnext
      rwa [hnext] at hset

include h in
/-- A value that cannot be encoded leaves an index entry behind the end of the list. -/
theorem Tracks.append_iff (key value : Text) :
    (headers.append key value).2.Tracks ↔ headers.Safe (.append key value) := by
  cases hkey : keyBytes key with
  | none =>
    have happend : headers.append key value = (.error .unicodeEncodeError, headers) := by
      simp [MutableHeaders.append, hkey]
    rw [happend]
    exact iff_of_true h (Or.inl hkey)
  | some name =>
    cases hvalue : value.latin1 with
    | some data =>
      have happend := h.snoc (lowerName_keyBytes hkey (.bytes data))
      simp only [MutableHeaders.append, hkey, hvalue]
      exact iff_of_true happend (Or.inr (Or.inl (by simp [hvalue])))
    | none =>
      have hsafe : headers.Safe (.append key value) ↔ headers.index name ≠ none := by
        rw [Ne, h.index_eq_none_iff, not_not, ← exists_named_iff hkey]
        simp [Safe, hkey, hvalue]
      rw [hsafe]
      cases hindex : headers.index name with
      | some i =>
        have happend : headers.append key value = (.error .unicodeEncodeError, headers) := by
          simp [MutableHeaders.append, hkey, hvalue, hindex]
        rw [happend]
        exact iff_of_true h (some_ne_none i)
      | none =>
        refine iff_of_false (fun htracks => ?_) fun hne => hne rfl
        have hlast : (headers.append key value).2.index name = some headers.raw.length := by
          simp [MutableHeaders.append, hkey, hvalue, hindex]
        have hraw : (headers.append key value).2.raw = headers.raw := by
          simp [MutableHeaders.append, hkey, hvalue]
        have hlt := ((htracks name _).mp hlast).lt
        rw [hraw, length_map] at hlt
        exact lt_irrefl _ hlt

/-- An entry that is deleted was the only one of its name. -/
theorem countP_le_one_iff
    (hkey : keyBytes key = some name) {i : ℕ} (hi : First (some name) (raw.map lowerName) i) :
    raw.countP (fun pair => Named key pair) ≤ 1 ↔ ∀ pair ∈ raw.eraseIdx i, ¬ Named key pair := by
  have hlt : i < raw.length := by
    simpa using hi.lt
  have hname : lowerName raw[i] = some name := by
    simpa [hlt] using hi.1
  have hcount : raw.countP (fun pair => Named key pair) =
      (raw.eraseIdx i).countP (fun pair => Named key pair) + 1 := by
    have hsplit : raw = raw.take i ++ raw[i] :: raw.drop (i + 1) := by
      rw [← drop_eq_getElem_cons, take_append_drop]
    have hnamed : Named key raw[i] := (named_iff hkey raw[i]).mpr hname
    calc raw.countP (fun pair => Named key pair)
        = (raw.take i ++ raw[i] :: raw.drop (i + 1)).countP (fun pair => Named key pair) := by
          rw [← hsplit]
      _ = (raw.eraseIdx i).countP (fun pair => Named key pair) + 1 := by
          rw [eraseIdx_eq_take_drop_succ, countP_append, countP_append,
            countP_cons, if_pos (decide_eq_true hnamed), Nat.add_assoc]
  rw [hcount, Nat.add_le_add_iff_right, Nat.le_zero, countP_eq_zero]
  simp only [decide_eq_true_eq]

include h in
/-- Without the only entry of a name, the positions behind it have moved by one. -/
theorem Tracks.erase {name : Bytes} {i : ℕ} (hindex : headers.index name = some i)
    (hgone : some name ∉ (headers.raw.eraseIdx i).map lowerName) :
    Tracks { raw := headers.raw.eraseIdx i
             index := fun k => (Function.update headers.index name none k).map fun v =>
               if v > i then v - 1 else v } := by
  intro other j
  have hi := (h name i).mp hindex
  by_cases hother : other = name
  · subst hother
    simp only [Function.update_self, map_none, reduceCtorEq, false_iff]
    exact fun hfirst => hgone hfirst.mem
  · have hne : some other ≠ some name := fun heq => hother (some_inj.mp heq)
    simp only [Function.update_of_ne hother]
    rw [← eraseIdx_map, Positions.first_eraseIdx_iff hi.1 hne, ← h, map_eq_some_iff]
    constructor
    · rintro ⟨v, hv, rfl⟩
      have hvi : v ≠ i := by
        rintro rfl
        exact hne (some_inj.mp (((h other v).mp hv).1.symm.trans hi.1))
      have hback : (if (if v > i then v - 1 else v) < i then (if v > i then v - 1 else v)
          else (if v > i then v - 1 else v) + 1) = v := by
        split <;> split <;> omega
      rwa [hback]
    · intro hv
      refine ⟨_, hv, ?_⟩
      split <;> split <;> omega

include h in
theorem Tracks.delItem_iff (key : Text) :
    ((headers.delItem key).2.Tracks ∧ Observed (.delItem key) (headers.delItem key)) ↔
      headers.Safe (.delItem key) := by
  cases hkey : keyBytes key with
  | none =>
    have hdel : headers.delItem key = (.error .unicodeEncodeError, headers) := by
      simp [MutableHeaders.delItem, hkey]
    rw [hdel]
    refine iff_of_true ⟨h, trivial⟩ ?_
    simp [Safe, not_named_of_none hkey]
  | some name =>
    cases hindex : headers.index name with
    | none =>
      have hdel : headers.delItem key = (.error (.keyError (.str key)), headers) := by
        simp [MutableHeaders.delItem, hkey, hindex]
      have habsent := (h.index_eq_none_iff name).mp hindex
      rw [← exists_named_iff hkey] at habsent
      rw [hdel]
      refine iff_of_true ⟨h, trivial⟩ ?_
      have hcount : headers.raw.countP (fun pair => Named key pair) = 0 := by
        rw [countP_eq_zero]
        intro pair hmem hnamed
        exact habsent ⟨pair, hmem, of_decide_eq_true hnamed⟩
      simp [Safe, hcount]
    | some i =>
      have hfirst := (h name i).mp hindex
      have hlt : i < headers.raw.length := by
        simpa using hfirst.lt
      have hdel : headers.delItem key = (.ok (), {
          raw := headers.raw.eraseIdx i
          index := fun k => (Function.update headers.index name none k).map fun v =>
            if v > i then v - 1 else v }) := by
        simp [MutableHeaders.delItem, hkey, hindex, hlt]
      rw [hdel, Safe, countP_le_one_iff hkey hfirst]
      constructor
      · exact fun hafter => hafter.2.1
      · intro hgone
        refine ⟨h.erase hindex fun hmem => ?_, hgone, by simp [contains, find, hkey, Except.map]⟩
        obtain ⟨pair, hpair, hname⟩ := mem_map.mp hmem
        exact hgone pair hpair ((named_iff hkey pair).mpr hname)

include h in
theorem Tracks.step_iff (op : Op) :
    ((headers.step op).2.Tracks ∧ Observed op (headers.step op)) ↔ headers.Safe op := by
  cases op with
  | setItem key value => exact iff_of_true (h.setItem key value) trivial
  | delItem key => exact h.delItem_iff key
  | append key value => exact (and_iff_left trivial).trans (h.append_iff key value)
  | update pairs => exact iff_of_true ⟨h.update pairs, trivial⟩ trivial

end Steps

theorem Faithful.tracks {headers : MutableHeaders} {ops : List Op} (h : Faithful headers ops) :
    headers.Tracks := by
  cases ops with
  | nil => exact consistent_iff_tracks.mp h
  | cons op ops => exact consistent_iff_tracks.mp h.1

theorem Tracks.faithful_iff (h : headers.Tracks) (ops : List Op) :
    Faithful headers ops ↔ Legal headers ops := by
  induction ops generalizing headers with
  | nil => exact iff_of_true h.consistent trivial
  | cons op ops ih =>
    rw [Faithful, Legal, ← h.step_iff]
    constructor
    · rintro ⟨-, hobserved, hrest⟩
      exact ⟨⟨hrest.tracks, hobserved⟩, (ih hrest.tracks).mp hrest⟩
    · rintro ⟨⟨htracks, hobserved⟩, hlegal⟩
      exact ⟨h.consistent, hobserved, (ih htracks).mpr hlegal⟩

/-- Every state of a run is as it should be exactly for plain headers and safe operations. -/
theorem mutableHeaders_faithful_iff {raw : List HeaderPair} {headers : MutableHeaders}
    (h : init raw = some headers) (ops : List Op) :
    Faithful headers ops ↔ Plain raw ∧ Legal headers ops := by
  rw [← tracks_init_iff h]
  constructor
  · intro hfaithful
    exact ⟨hfaithful.tracks, (hfaithful.tracks.faithful_iff _).mp hfaithful⟩
  · rintro ⟨htracks, hlegal⟩
    exact (htracks.faithful_iff _).mpr hlegal

def plainHeaders : List HeaderPair := [(.bytes (ascii "Content-Type"), .bytes (ascii "text/html"))]

def plainOps : List Op :=
  [.append (plainText "Set-Cookie") (plainText "a=1"),
    .append (plainText "set-cookie") (plainText "b=2"),
    .setItem (plainText "Content-type") (plainText "text/plain"),
    .delItem (plainText "CONTENT-TYPE"), .update [(plainText "Set-Cookie", plainText "c=3")]]

theorem mutableHeaders_faithful_plain :
    ∃ headers, init plainHeaders = some headers ∧ Faithful headers plainOps := by
  have hplain : Plain plainHeaders := ⟨by decide +kernel, by decide +kernel⟩
  obtain ⟨headers, hinit⟩ : ∃ headers, init plainHeaders = some headers := ⟨_, rfl⟩
  refine ⟨headers, hinit, (mutableHeaders_faithful_iff hinit _).mpr ⟨hplain, ?_⟩⟩
  cases hinit
  decide +kernel

def cookieHeaders : List HeaderPair :=
  [(.bytes (ascii "Set-Cookie"), .bytes (ascii "a=1")),
    (.bytes (ascii "set-cookie"), .bytes (ascii "b=2"))]

/-- The last of two cookies is read, and after its deletion the first one is still there. -/
theorem mutableHeaders_cookies :
    ∃ headers, init cookieHeaders = some headers ∧
      headers.getItem (.str (plainText "set-cookie")) = .ok (plainText "b=2") ∧
      (headers.delItem (plainText "set-cookie")).2.raw = cookieHeaders.take 1 ∧
      (headers.delItem (plainText "set-cookie")).2.contains (.str (plainText "set-cookie")) =
        .ok false ∧
      ¬ Faithful headers [.delItem (plainText "set-cookie")] := by
  refine ⟨_, rfl, rfl, rfl, rfl, fun h => ?_⟩
  have hnodup : ¬ (cookieHeaders.map lowerName).Nodup := by decide +kernel
  exact hnodup ((tracks_init_iff rfl).mp h.tracks).nodup

end MutableHeaders

end AstraApi.Response
