import AstraApi.Dispatch.Parameters
import AstraApi.Lib.Grouping
import AstraApi.Lib.Words
import AstraApi.Router.Agreement

/-!
# Three readers of a query string

`parse_query_string` and its fallback `_parse_qs_python` make a dictionary of lists for
`Request.query_params`, and `dispatch_one_request` reads the declared parameters by
itself.  They differ on segments without `=`: the dispatcher skips them all, the fallback
those that are empty, and `parse_query_string` none.
-/

namespace AstraApi.Dispatch

open List
open Deps (Name Kwargs)
open Grouping (appendValue valuesAt valuesOf)
open Routing (splitAtByte splitAtByte_append splitAtByte_none not_mem_bytes)
open Words (of_mem_splitOn)

/-! ## The readers -/

abbrev MultiDict := List (Text × List Text)

/-- The segments that the scan meets: it is over behind a last `&`. -/
def segments (query : Bytes) : List Bytes :=
  let pieces := query.splitOn ampersand
  if pieces.getLast? = some [] then pieces.dropLast else pieces

def keyValue (segment : Bytes) : Bytes × Bytes := (splitAtByte equals segment).getD (segment, [])

def parseSegment (result : MultiDict) (segment : Bytes) : Option MultiDict := do
  let key ← Text.ofUtf8 (percentDecode (keyValue segment).1)
  let val ← Text.ofUtf8 (percentDecode (keyValue segment).2)
  return appendValue result (key, val)

/-- `py_parse_query_string`; `none` is an exception. -/
def parseQueryString (query : Bytes) : Option MultiDict := (segments query).foldlM parseSegment []

def unquoteToBytes : Bytes → Bytes
  | c :: high :: low :: rest =>
    match if c = percent then hexVal high else none, hexVal low with
    | some hi, some lo => (hi <<< 4 ||| lo) :: unquoteToBytes rest
    | _, _ => c :: unquoteToBytes (high :: low :: rest)
  | c :: rest => c :: unquoteToBytes rest
  | [] => []

def unquoteRuns (run : Bytes) : Text → Text
  | [] => Text.ofUtf8Replacing (unquoteToBytes run)
  | c :: text =>
    if c.val < 128 then unquoteRuns (run ++ [UInt8.ofNat c.val]) text
    else Text.ofUtf8Replacing (unquoteToBytes run) ++ c :: unquoteRuns [] text

def unquote (text : Text) : Text := if 0x25 ∈ text then unquoteRuns [] text else text

def plusToSpace (c : CodePoint) : CodePoint := if c = 0x2b then 0x20 else c

def splitEquals (part : Text) : Text × Text :=
  if 0x3d ∈ part then (part.takeWhile (· != 0x3d), (part.dropWhile (· != 0x3d)).tail)
  else (part, [])

def parsePart (result : MultiDict) (part : Text) : MultiDict :=
  let (k, v) := splitEquals part
  appendValue result (unquote (k.map plusToSpace), unquote (v.map plusToSpace))

def parseQsPython (qs : Text) : MultiDict :=
  ((qs.splitOn 0x26).filter (· ≠ [])).foldl parsePart []

/-- The query string in `dispatch_one_request`. -/
def queryLoop (spec : FastRouteSpec) (query : Bytes) (kwargs : Kwargs Value) :
    Except Fault (Kwargs Value) :=
  (if spec.hasQueryParams then querySegments query else []).foldlM (queryStep spec) kwargs

/-- The values of an entry that was built by `promote`. -/
def collected : Option Value → List Value
  | none => []
  | some (.list items) => items
  | some value => [value]

/-- The loop adds the values that the dictionary has for the key of a parameter. -/
def CollectsMap (spec : FastRouteSpec) (query : Bytes) (kwargs : Kwargs Value) (fs : FieldSpec) :
    Prop :=
  ∃ multi result, parseQueryString query = some multi ∧ queryLoop spec query kwargs = .ok result ∧
    (collected (result fs.fieldName)).map some =
      (collected (kwargs fs.fieldName)).map some ++
        ((Text.ofUtf8 fs.aliasKey).elim [] (valuesAt · multi)).map fun value =>
          coerceParam value.bytes fs.typeTag

/-! ## Decoding -/

def plusToSpaceByte (b : Byte) : Byte := if b = plus then space else b

/-- No escape sequence starts here. -/
def Literal (c : Byte) (rest : Bytes) : Prop :=
  ∀ high low tail, c = percent → rest = high :: low :: tail → hexVal high = none ∨ hexVal low = none

theorem unquoteToBytes_literal {c : Byte} {rest : Bytes} (h : Literal c rest) :
    unquoteToBytes (c :: rest) = c :: unquoteToBytes rest := by
  match rest with
  | [] => rfl
  | [_] => rfl
  | high :: low :: tail =>
    rw [unquoteToBytes]
    split
    · next hi lo hhigh hlow =>
      split at hhigh
      · next hc =>
        rcases h high low tail hc rfl with hnone | hnone
        · rw [hnone] at hhigh
          cases hhigh
        · rw [hnone] at hlow
          cases hlow
      · cases hhigh
    · rfl

theorem percentDecode_literal {c : Byte} {rest : Bytes} (h : Literal c rest) :
    percentDecode (c :: rest) = plusToSpaceByte c :: percentDecode rest := by
  match rest with
  | [] => rfl
  | [_] => rfl
  | high :: low :: tail =>
    rw [percentDecode]
    split
    · next hi lo hhigh hlow =>
      split at hhigh
      · next hc =>
        rcases h high low tail hc rfl with hnone | hnone
        · rw [hnone] at hhigh
          cases hhigh
        · rw [hnone] at hlow
          cases hlow
      · cases hhigh
    · rfl

theorem escape_induction {motive : Bytes → Prop} (hnil : motive [])
    (hescape : ∀ high low hi lo rest, hexVal high = some hi → hexVal low = some lo → motive rest →
      motive (percent :: high :: low :: rest))
    (hliteral : ∀ c rest, Literal c rest → motive rest → motive (c :: rest)) (bytes : Bytes) :
    motive bytes := by
  induction bytes using percentDecode.induct with
  | case1 c high low rest hi lo hlow hhigh ih =>
    split at hhigh
    · next hc =>
      rw [hc]
      exact hescape high _ hi _ _ hhigh hlow ih
    · cases hhigh
  | case2 c high low rest hnot ih =>
    refine hliteral c _ (fun high' low' tail hc heq => ?_) ih
    cases heq
    by_contra hsome
    obtain ⟨hhigh, hlow⟩ := not_or.mp hsome
    obtain ⟨hi, hhi⟩ := Option.ne_none_iff_exists'.mp hhigh
    obtain ⟨lo, hlo⟩ := Option.ne_none_iff_exists'.mp hlow
    exact hnot hi _ (by rw [if_pos hc, hhi]) hlo
  | case3 c rest hshort ih => exact hliteral c _ (fun _ _ _ _ heq => (hshort _ _ _ heq).elim) ih
  | case4 => exact hnil

theorem unquoteToBytes_escape {high low hi lo : Byte} (hhigh : hexVal high = some hi)
    (hlow : hexVal low = some lo) (rest : Bytes) :
    unquoteToBytes (percent :: high :: low :: rest) = (hi <<< 4 ||| lo) :: unquoteToBytes rest := by
  rw [unquoteToBytes, if_pos rfl, hhigh, hlow]

theorem percentDecode_escape {high low hi lo : Byte} (hhigh : hexVal high = some hi)
    (hlow : hexVal low = some lo) (rest : Bytes) :
    percentDecode (percent :: high :: low :: rest) = (hi <<< 4 ||| lo) :: percentDecode rest := by
  rw [percentDecode, if_pos rfl, hhigh, hlow]

theorem hexVal_plusToSpaceByte (b : Byte) : hexVal (plusToSpaceByte b) = hexVal b := by
  rw [plusToSpaceByte]
  split
  · next heq => rw [heq]; rfl
  · rfl

theorem Literal.plusToSpace {c : Byte} {rest : Bytes} (h : Literal c rest) :
    Literal (plusToSpaceByte c) (rest.map plusToSpaceByte) := by
  intro high low tail hc heq
  have hpercent : c = percent := by
    rw [plusToSpaceByte] at hc
    split at hc
    · cases hc
    · exact hc
  match rest with
  | high' :: low' :: tail' =>
    cases heq
    rw [hexVal_plusToSpaceByte, hexVal_plusToSpaceByte]
    exact h high' low' _ hpercent rfl

theorem percentDecode_eq (bytes : Bytes) :
    percentDecode bytes = unquoteToBytes (bytes.map plusToSpaceByte) := by
  induction bytes using escape_induction with
  | hnil => rfl
  | hescape high low hi lo rest hhigh hlow ih =>
    rw [percentDecode_escape hhigh hlow, ih]
    rw [← hexVal_plusToSpaceByte] at hhigh hlow
    exact (unquoteToBytes_escape hhigh hlow _).symm
  | hliteral c rest hliteral ih =>
    rw [percentDecode_literal hliteral, ih, map_cons, unquoteToBytes_literal hliteral.plusToSpace]

/-- An escape sequence ends before a byte that is no hexadecimal digit. -/
theorem unquoteToBytes_append {right : Bytes} (hright : ∀ b ∈ right.head?, hexVal b = none)
    (left : Bytes) : unquoteToBytes (left ++ right) = unquoteToBytes left ++ unquoteToBytes right := by
  induction left using escape_induction with
  | hnil => rfl
  | hescape high low hi lo rest hhigh hlow ih =>
    rw [unquoteToBytes_escape hhigh hlow]
    exact (unquoteToBytes_escape hhigh hlow _).trans (congrArg _ ih)
  | hliteral c rest hliteral ih =>
    rw [unquoteToBytes_literal hliteral, cons_append, cons_append, ← ih]
    refine unquoteToBytes_literal fun high low tail hc heq => ?_
    match rest with
    | [] =>
      left
      apply hright
      rw [show right = high :: low :: tail from heq]
      rfl
    | [b] =>
      obtain ⟨rfl, hlow⟩ := List.cons.inj heq
      right
      apply hright
      rw [show right = low :: tail from hlow]
      rfl
    | b :: d :: more =>
      cases heq
      exact hliteral high _ _ hc rfl

theorem percentDecode_append {right : Bytes} (hright : ∀ b ∈ right.head?, hexVal b = none)
    (left : Bytes) : percentDecode (left ++ right) = percentDecode left ++ percentDecode right := by
  simp only [percentDecode_eq, map_append]
  refine unquoteToBytes_append (fun b hb => ?_) _
  rw [head?_map] at hb
  obtain ⟨d, hd, rfl⟩ := Option.map_eq_some_iff.mp hb
  rw [hexVal_plusToSpaceByte, hright d hd]

theorem percentDecode_separator {sep : Byte} (hsep : sep = ampersand ∨ sep = equals)
    (left right : Bytes) :
    percentDecode (left ++ sep :: right) = percentDecode left ++ sep :: percentDecode right := by
  have hhex : hexVal sep = none := by rcases hsep with rfl | rfl <;> rfl
  have hliteral : Literal sep right := by
    rintro _ _ _ rfl
    exact absurd hsep (by decide)
  have hplus : plusToSpaceByte sep = sep := by rcases hsep with rfl | rfl <;> rfl
  rw [percentDecode_append (fun b hb => by rw [← Option.some.inj hb, hhex]),
    percentDecode_literal hliteral, hplus]

/-! ## Decoding of strings -/

theorem hexVal_high {b : Byte} (h : 128 ≤ b.toNat) : hexVal b = none := by
  have hbound (n : Byte) (hn : n.toNat < 128) : ¬ b ≤ n := fun hle => by
    have := UInt8.le_iff_toNat_le.mp hle
    omega
  rw [hexVal, if_neg fun h => hbound 57 (by decide) h.2, if_neg fun h => hbound 102 (by decide) h.2,
    if_neg fun h => hbound 70 (by decide) h.2]

theorem unquoteToBytes_of_notMem {bytes : Bytes} (h : percent ∉ bytes) (rest : Bytes) :
    unquoteToBytes (bytes ++ rest) = bytes ++ unquoteToBytes rest := by
  induction bytes with
  | nil => rfl
  | cons b bytes ih =>
    obtain ⟨hb, hmore⟩ := ne_and_not_mem_of_not_mem_cons h
    rw [cons_append, unquoteToBytes_literal fun _ _ _ heq => absurd heq.symm hb, ih hmore]
    rfl

theorem unquoteRuns_eq {run : Bytes} {text decoded : Text} (hencodable : text.Encodable)
    (hdecoded : decoded.Encodable) (h : decoded.bytes = unquoteToBytes (run ++ text.bytes)) :
    unquoteRuns run text = decoded := by
  induction text generalizing run decoded with
  | nil =>
    rw [Text.bytes_nil, append_nil] at h
    rw [unquoteRuns, ← h, Text.ofUtf8Replacing_bytes hdecoded]
  | cons c text ih =>
    obtain ⟨hc, hmore⟩ := forall_mem_cons.mp hencodable
    rw [Text.bytes_cons] at h
    rw [unquoteRuns]
    split
    · next hascii =>
      apply ih hmore hdecoded
      rw [h, encode_ascii hascii, append_assoc]
    · next hascii =>
      -- A character above ASCII stays as it is and ends what was decoded before it.
      have hhigh := le_of_mem_encode hc (not_lt.mp hascii)
      obtain ⟨first, tail, hencode, hfirst, -⟩ := encode_first hc
      have hpercent : percent ∉ encode c := fun hmem => absurd (hhigh _ hmem) (by decide)
      have hhead (rest : Bytes) : ∀ b ∈ (encode c ++ rest).head?, b = first := by
        rw [hencode]
        exact fun b hb => (Option.some.inj hb).symm
      have hhex : hexVal first = none :=
        hexVal_high (hhigh _ (by rw [hencode]; exact mem_cons_self))
      rw [unquoteToBytes_append (fun b hb => by rw [hhead _ b hb, hhex]),
        unquoteToBytes_of_notMem hpercent] at h
      obtain ⟨front, back, rfl, hfront, hback⟩ :=
        Text.exists_append hdecoded (fun b hb => by rw [hhead _ b hb, hfirst]) h
      obtain ⟨hfrontEncodable, hbackEncodable⟩ := forall_mem_append.mp hdecoded
      cases back with
      | nil => exact absurd (append_eq_nil_iff.mp hback.symm).1 (encode_ne_nil c)
      | cons d back =>
        obtain ⟨hd, hbackMore⟩ := forall_mem_cons.mp hbackEncodable
        obtain ⟨rfl, hrest⟩ := encode_append_inj hd hc hback
        rw [← hfront, Text.ofUtf8Replacing_bytes hfrontEncodable, @ih [] back hmore hbackMore hrest]

/-- Where the decoded bytes are UTF-8, Python finds their string. -/
theorem unquote_eq {text decoded : Text} (hencodable : text.Encodable) (hdecoded : decoded.Encodable)
    (h : decoded.bytes = unquoteToBytes text.bytes) : unquote text = decoded := by
  rw [unquote]
  split
  · exact unquoteRuns_eq hencodable hdecoded h
  · next hpercent =>
    have hnot : percent ∉ text.bytes := not_mem_bytes 0x25 (by decide) hencodable hpercent
    have hself := unquoteToBytes_of_notMem hnot []
    rw [append_nil, unquoteToBytes, append_nil] at hself
    rw [hself] at h
    exact (Text.bytes_inj hdecoded hencodable h).symm

theorem bytes_plusToSpace {text : Text} (h : text.Encodable) :
    Text.Encodable (text.map plusToSpace) ∧
      Text.bytes (text.map plusToSpace) = text.bytes.map plusToSpaceByte := by
  induction text with
  | nil => exact ⟨forall_mem_nil _, rfl⟩
  | cons c text ih =>
    obtain ⟨hc, hmore⟩ := forall_mem_cons.mp h
    obtain ⟨hencodable, hbytes⟩ := ih hmore
    rw [map_cons, Text.bytes_cons, Text.bytes_cons, map_append, hbytes, plusToSpace]
    by_cases hplus : c = 0x2b
    · rw [if_pos hplus, hplus]
      exact ⟨forall_mem_cons.mpr ⟨rfl, hencodable⟩, rfl⟩
    · rw [if_neg hplus]
      refine ⟨forall_mem_cons.mpr ⟨hc, hencodable⟩, ?_⟩
      have hnot : plus ∉ encode c := by
        have hbytes := not_mem_bytes 0x2b (by decide) (forall_mem_singleton.mpr hc)
          (by rw [mem_singleton]; exact fun heq => hplus heq.symm)
        rwa [Text.bytes_cons, Text.bytes_nil, append_nil] at hbytes
      have hself : (encode c).map plusToSpaceByte = encode c := by
        rw [map_congr_left, map_id]
        intro b hb
        exact if_neg fun heq : b = plus => hnot (heq ▸ hb)
      rw [hself]

/-- Python decodes a key or value as the scan does. -/
theorem unquote_plusToSpace {text decoded : Text} (hencodable : text.Encodable)
    (h : Text.ofUtf8 (percentDecode text.bytes) = some decoded) :
    unquote (text.map plusToSpace) = decoded := by
  obtain ⟨hdecoded, hbytes⟩ := Text.ofUtf8_eq_some_iff.mp h
  obtain ⟨hmap, hmapBytes⟩ := bytes_plusToSpace hencodable
  apply unquote_eq hmap hdecoded
  rw [hbytes, hmapBytes, percentDecode_eq]

/-! ## Splitting -/

theorem bytes_intercalate (sep : CodePoint) (pieces : List Text) :
    Text.bytes ([sep].intercalate pieces) = (encode sep).intercalate (pieces.map Text.bytes) := by
  induction pieces with
  | nil => rfl
  | cons piece pieces ih =>
    cases pieces with
    | nil => rw [map_singleton, intercalate_singleton, intercalate_singleton]
    | cons next pieces =>
      rw [intercalate_cons_cons, map_cons, map_cons, intercalate_cons_cons,
        Text.bytes_append, Text.bytes_append, ih, map_cons, Text.bytes_cons, Text.bytes_nil,
        append_nil]

theorem bytes_splitOn {text : Text} (h : text.Encodable) :
    text.bytes.splitOn ampersand = (text.splitOn 0x26).map Text.bytes := by
  have hpieces : ∀ piece ∈ (text.splitOn 0x26).map Text.bytes, ampersand ∉ piece := by
    refine forall_mem_map.mpr fun piece hpiece => ?_
    obtain ⟨hsep, hmem⟩ := of_mem_splitOn hpiece
    exact not_mem_bytes 0x26 (by decide) (fun c hc => h c (hmem c hc)) hsep
  have hne : (text.splitOn 0x26).map Text.bytes ≠ [] :=
    fun hnil => splitOn_ne_nil _ _ (map_eq_nil_iff.mp hnil)
  have hsplit := splitOn_intercalate _ hpieces hne
  have hsep : [ampersand] = encode 0x26 := by decide
  rw [hsep, ← bytes_intercalate, intercalate_splitOn] at hsplit
  exact hsplit

theorem keyValue_bytes {part : Text} (h : part.Encodable) :
    keyValue part.bytes = ((splitEquals part).1.bytes, (splitEquals part).2.bytes) := by
  rw [keyValue, splitEquals]
  split
  · next hmem =>
    obtain ⟨front, back, rfl, hfront⟩ := eq_append_cons_of_mem hmem
    have hpos : ∀ c ∈ front, (c != 0x3d) = true :=
      fun c hc => bne_iff_ne.mpr fun heq => hfront (heq ▸ hc)
    have hfrontBytes := not_mem_bytes 0x3d (by decide) (forall_mem_append.mp h).1 hfront
    rw [takeWhile_append_of_pos hpos, dropWhile_append_of_pos hpos,
      takeWhile_cons_of_neg (by decide), dropWhile_cons_of_neg (by decide),
      append_nil, tail_cons, Text.bytes_append]
    exact congrArg (Option.getD · _) (splitAtByte_append hfrontBytes (Text.bytes _))
  · next hnot =>
    exact congrArg (Option.getD · _) (splitAtByte_none (not_mem_bytes 0x3d (by decide) h hnot))

def Decodes (bytes : Bytes) : Prop := ∃ text, Text.ofUtf8 (percentDecode bytes) = some text

theorem decodes_iff {bytes : Bytes} : Decodes bytes ↔ IsUtf8 (percentDecode bytes) := by
  rw [Decodes, isUtf8_iff]
  simp [Text.ofUtf8_eq_some_iff]

theorem Decodes.split {sep : Byte} (hsep : sep = ampersand ∨ sep = equals) {left right : Bytes}
    (h : Decodes (left ++ sep :: right)) : Decodes left ∧ Decodes right := by
  have hascii : sep.toNat < 128 := by rcases hsep with rfl | rfl <;> decide
  rw [decodes_iff, percentDecode_separator hsep] at h
  obtain ⟨hleft, hright⟩ := isUtf8_split hascii h
  exact ⟨decodes_iff.mpr hleft, decodes_iff.mpr hright⟩

theorem Decodes.piece {query : Bytes} (h : Decodes query) :
    ∀ piece ∈ query.splitOn ampersand, Decodes piece := by
  have hpieces (pieces : List _) (h : Decodes ([ampersand].intercalate pieces)) :
      ∀ piece ∈ pieces, Decodes piece := by
    induction pieces with
    | nil => exact forall_mem_nil _
    | cons piece pieces ih =>
      cases pieces with
      | nil =>
        rw [intercalate_singleton] at h
        exact forall_mem_singleton.mpr h
      | cons next pieces =>
        obtain ⟨hpiece, hmore⟩ := Decodes.split (.inl rfl) h
        exact forall_mem_cons.mpr ⟨hpiece, ih hmore⟩
  exact hpieces _ (by rwa [intercalate_splitOn])

theorem Decodes.keyValue {segment : Bytes} (h : Decodes segment) :
    Decodes (keyValue segment).1 ∧ Decodes (keyValue segment).2 := by
  by_cases hmem : equals ∈ segment
  · obtain ⟨front, back, rfl, hfront⟩ := eq_append_cons_of_mem hmem
    rw [Dispatch.keyValue, splitAtByte_append hfront, Option.getD_some]
    exact h.split (.inr rfl)
  · rw [Dispatch.keyValue, splitAtByte_none hmem, Option.getD_none]
    exact ⟨h, [], rfl⟩

/-! ## What the readers agree on -/

def decoded (bytes : Bytes) : Text := (Text.ofUtf8 (percentDecode bytes)).getD []

def decodedPair (segment : Bytes) : Text × Text :=
  (decoded (keyValue segment).1, decoded (keyValue segment).2)

theorem Decodes.ofUtf8 {bytes : Bytes} (h : Decodes bytes) :
    Text.ofUtf8 (percentDecode bytes) = some (decoded bytes) := by
  obtain ⟨text, htext⟩ := h
  rw [decoded, htext]
  rfl

theorem mem_of_mem_segments {query segment : Bytes} (h : segment ∈ segments query) :
    segment ∈ query.splitOn ampersand := by
  rw [segments] at h
  split at h
  · exact mem_of_mem_dropLast h
  · exact h

theorem filter_segments (query : Bytes) :
    (segments query).filter (· ≠ []) = (query.splitOn ampersand).filter (· ≠ []) := by
  rw [segments]
  split
  · next hlast =>
    obtain ⟨front, hfront⟩ := getLast?_eq_some_iff.mp hlast
    rw [hfront, dropLast_concat, filter_append]
    exact (append_nil _).symm
  · rfl

theorem parseQueryString_eq {query : Bytes} (h : Decodes query) :
    parseQueryString query = some (((segments query).map decodedPair).foldl appendValue []) := by
  have hsegments : ∀ segment ∈ segments query, Decodes segment :=
    fun segment hmem => h.piece _ (mem_of_mem_segments hmem)
  rw [parseQueryString]
  generalize ([] : MultiDict) = dict
  generalize segments query = rest at hsegments
  induction rest generalizing dict with
  | nil => rfl
  | cons segment rest ih =>
    obtain ⟨hsegment, hmore⟩ := forall_mem_cons.mp hsegments
    have hstep : parseSegment dict segment = some (appendValue dict (decodedPair segment)) := by
      rw [parseSegment, hsegment.keyValue.1.ofUtf8, hsegment.keyValue.2.ofUtf8]
      rfl
    rw [foldlM_cons, hstep]
    exact ih _ hmore

theorem encodable_splitEquals {part : Text} (h : part.Encodable) :
    (splitEquals part).1.Encodable ∧ (splitEquals part).2.Encodable := by
  rw [splitEquals]
  split
  · refine ⟨fun c hc => h c (takeWhile_subset _ hc), fun c hc => h c ?_⟩
    exact dropWhile_subset _ (mem_of_mem_tail hc)
  · exact ⟨h, forall_mem_nil _⟩

theorem bytes_eq_nil_iff {text : Text} : text.bytes = [] ↔ text = [] := by
  cases text with
  | nil => exact iff_of_true rfl rfl
  | cons c text =>
    refine iff_of_false (fun h => ?_) (cons_ne_nil _ _)
    exact encode_ne_nil c (append_eq_nil_iff.mp h).1

theorem parseQsPython_eq {text : Text} (hencodable : text.Encodable) (h : Decodes text.bytes) :
    parseQsPython text =
      (((text.bytes.splitOn ampersand).filter (· ≠ [])).map decodedPair).foldl appendValue [] := by
  have hpart (dict : MultiDict) (part : Text) (hmem : part ∈ text.splitOn 0x26) :
      parsePart dict part = appendValue dict (decodedPair part.bytes) := by
    have hpartEncodable : part.Encodable := fun c hc => hencodable c ((of_mem_splitOn hmem).2 c hc)
    have hpartDecodes : Decodes part.bytes :=
      h.piece _ (by rw [bytes_splitOn hencodable]; exact mem_map_of_mem hmem)
    obtain ⟨hkey, hvalue⟩ := encodable_splitEquals hpartEncodable
    obtain ⟨hkeyDecodes, hvalueDecodes⟩ := hpartDecodes.keyValue
    rw [keyValue_bytes hpartEncodable] at hkeyDecodes hvalueDecodes
    rw [decodedPair, keyValue_bytes hpartEncodable,
      ← unquote_plusToSpace hkey hkeyDecodes.ofUtf8, ← unquote_plusToSpace hvalue hvalueDecodes.ofUtf8]
    rfl
  have hfilter : (text.bytes.splitOn ampersand).filter (· ≠ []) =
      ((text.splitOn 0x26).filter (· ≠ [])).map Text.bytes := by
    rw [bytes_splitOn hencodable, filter_map]
    congr 1
    refine filter_congr fun part _ => ?_
    simp [bytes_eq_nil_iff]
  rw [hfilter, map_map, foldl_map, parseQsPython]
  exact foldl_ext _ _ _ fun dict part hmem => hpart _ _ (mem_filter.mp hmem).1

/-- The two dictionaries are the same unless the scan meets an empty segment. -/
theorem parseQueryString_python_iff {text : Text} (hencodable : text.Encodable)
    (h : Decodes text.bytes) :
    parseQueryString text.bytes = some (parseQsPython text) ↔ [] ∉ segments text.bytes := by
  rw [parseQueryString_eq h, parseQsPython_eq hencodable h, ← filter_segments, Option.some.injEq]
  constructor
  · intro heq hmem
    have hlength := congrArg (fun dict : MultiDict => (dict.flatMap Prod.snd).length) heq
    simp only [Grouping.length_foldl_appendValue, length_map] at hlength
    have hall := length_filter_eq_length_iff.mp (Nat.add_left_cancel hlength).symm [] hmem
    exact absurd rfl (of_decide_eq_true hall)
  · intro hnot
    have hall : (segments text.bytes).filter (· ≠ []) = segments text.bytes :=
      filter_eq_self.mpr fun segment hmem =>
        decide_eq_true fun hnil => hnot (hnil ▸ hmem)
    rw [hall]

/-! ## What the dispatcher collects -/

/-- What a segment with `=` gives to a field. -/
def takenPair (spec : FastRouteSpec) (name : Name) (pair : Bytes × Bytes) : Option (Option Value) :=
  (spec.queryMap (percentDecode pair.1)).bind fun fs =>
    if fs.fieldName = name then some (coerceParam (percentDecode pair.2) fs.typeTag) else none

def taken (spec : FastRouteSpec) (name : Name) (segment : Bytes) : Option (Option Value) :=
  (splitAtByte equals segment).bind (takenPair spec name)

def sent (fs : FieldSpec) (segment : Bytes) : Option (Option Value) :=
  if percentDecode (keyValue segment).1 = fs.aliasKey then
    some (coerceParam (percentDecode (keyValue segment).2) fs.typeTag)
  else none

theorem coerceParam_ne_list {val : Bytes} {tag : ParamType} {value : Value}
    (h : coerceParam val tag = some value) (items : List Value) : value ≠ .list items := by
  have htext (h : (pyUnicode val).map Value.text = some value) : value ≠ .list items := by
    obtain ⟨string, -, rfl⟩ := Option.map_eq_some_iff.mp h
    rintro ⟨⟩
  cases tag with
  | str | int | float => exact htext h
  | bool =>
    rw [coerceParam] at h
    split at h
    · cases h
      rintro ⟨⟩
    · split at h
      · cases h
        rintro ⟨⟩
      · exact htext h

theorem collected_promote (old : Option Value) {value : Value} (h : ∀ items, value ≠ .list items) :
    collected (some (promote old value)) = collected old ++ [value] := by
  have hsingle : collected (some value) = [value] := by
    cases value with
    | list items => exact absurd rfl (h _)
    | _ => rfl
  cases old with
  | none => exact hsingle
  | some existing =>
    cases existing with
    | list items => rfl
    | _ => rfl

/-- The loop adds what each segment gives to a field. -/
theorem foldlM_queryStep (spec : FastRouteSpec) (name : Name) {pairs : List (Bytes × Bytes)}
    (h : ∀ pair ∈ pairs, Decodes pair.2) (kwargs : Kwargs Value) :
    ∃ result, pairs.foldlM (queryStep spec) kwargs = .ok result ∧
      (collected (result name)).map some =
        (collected (kwargs name)).map some ++ pairs.filterMap (takenPair spec name) := by
  induction pairs generalizing kwargs with
  | nil => exact ⟨kwargs, rfl, (append_nil _).symm⟩
  | cons pair pairs ih =>
    obtain ⟨hpair, hmore⟩ := forall_mem_cons.mp h
    have hstep : ∃ next, queryStep spec kwargs pair = .ok next ∧ (collected (next name)).map some =
          (collected (kwargs name)).map some ++ (takenPair spec name pair).toList := by
      rw [queryStep, takenPair]
      cases spec.queryMap (percentDecode pair.1) with
      | none => exact ⟨kwargs, rfl, (append_nil _).symm⟩
      | some fs =>
        obtain ⟨value, hvalue⟩ := (exists_coerceParam_iff _ fs.typeTag).mpr (decodes_iff.mp hpair)
        simp only [hvalue, Option.bind_some]
        refine ⟨_, rfl, ?_⟩
        by_cases hname : fs.fieldName = name
        · rw [if_pos hname, ← hname, Kwargs.set_apply, if_pos rfl,
            collected_promote _ (coerceParam_ne_list hvalue), map_append]
          rfl
        · rw [if_neg hname, Kwargs.set_apply, if_neg (Ne.symm hname)]
          exact (append_nil _).symm
    obtain ⟨next, hnext, hcollected⟩ := hstep
    obtain ⟨result, hresult, hmap⟩ := ih hmore _
    refine ⟨result, by rw [foldlM_cons, hnext]; exact hresult, ?_⟩
    rw [hmap, hcollected, append_assoc, filterMap_cons]
    cases takenPair spec name pair <;> rfl

theorem querySegments_eq (query : Bytes) :
    querySegments query = (segments query).filterMap (splitAtByte equals) := by
  rw [querySegments, segments]
  split
  · next hlast =>
    obtain ⟨front, hfront⟩ := getLast?_eq_some_iff.mp hlast
    rw [hfront, dropLast_concat, filterMap_append]
    exact append_nil _
  · rfl

/-- The dictionary has what the segments say for a key. -/
theorem map_valuesAt {query : Bytes} (h : Decodes query) (fs : FieldSpec) :
    ((Text.ofUtf8 fs.aliasKey).elim []
        (valuesAt · (((segments query).map decodedPair).foldl appendValue []))).map
      (fun value => coerceParam value.bytes fs.typeTag) = (segments query).filterMap (sent fs) := by
  have hsegments : ∀ segment ∈ segments query, Decodes segment :=
    fun segment hmem => h.piece _ (mem_of_mem_segments hmem)
  have hbytes {bytes : Bytes} (h : Decodes _) :
      (decoded bytes).Encodable ∧ (decoded bytes).bytes = percentDecode bytes :=
    Text.ofUtf8_eq_some_iff.mp h.ofUtf8
  cases halias : Text.ofUtf8 fs.aliasKey with
  | none =>
    have hnone : ∀ segment ∈ segments query, sent fs segment = none := by
      intro segment hmem
      refine if_neg fun heq => ?_
      rw [← heq, (hsegments _ hmem).keyValue.1.ofUtf8] at halias
      cases halias
    exact (filterMap_eq_nil_iff.mpr hnone).symm
  | some key =>
    obtain ⟨hkey, hkeyBytes⟩ := Text.ofUtf8_eq_some_iff.mp halias
    rw [Option.elim_some, Grouping.valuesAt_foldl, valuesOf, filterMap_map, map_append,
      map_filterMap]
    refine filterMap_congr fun segment hmem => ?_
    obtain ⟨hfirst, hsecond⟩ := (hsegments _ hmem).keyValue
    have heq : (decodedPair segment).1 = key ↔
        percentDecode (keyValue segment).1 = fs.aliasKey := by
      rw [← hkeyBytes, ← (hbytes hfirst).2]
      exact ⟨congrArg _, Text.bytes_inj (hbytes hfirst).1 hkey⟩
    rw [Function.comp_apply, sent]
    by_cases hcond : percentDecode (keyValue segment).1 = fs.aliasKey
    · rw [if_pos hcond, if_pos (heq.mpr hcond), ← (hbytes hsecond).2]
      rfl
    · rw [if_neg hcond, if_neg (heq.not.mpr hcond)]
      rfl

theorem collectsMap_iff {spec : FastRouteSpec} {query : Bytes} (h : Decodes query)
    (kwargs : Kwargs Value) {fs : FieldSpec} (hdeclared : spec.queryMap fs.aliasKey = some fs) :
    CollectsMap spec query kwargs fs ↔ (segments query).filterMap (taken spec fs.fieldName) =
        (segments query).filterMap (sent fs) := by
  have hspecs : spec.hasQueryParams = true := by
    rw [FastRouteSpec.hasQueryParams]
    cases hempty : spec.querySpecs with
    | nil =>
      rw [FastRouteSpec.queryMap, hempty, lookupField_nil] at hdeclared
      cases hdeclared
    | cons => rfl
  have hpairs : ∀ pair ∈ querySegments query, Decodes pair.2 := by
    intro pair hpair
    rw [querySegments_eq] at hpair
    obtain ⟨segment, hmem, hsplit⟩ := mem_filterMap.mp hpair
    have hvalue := (h.piece _ (mem_of_mem_segments hmem)).keyValue.2
    rwa [keyValue, hsplit, Option.getD_some] at hvalue
  obtain ⟨result, hresult, hcollected⟩ := foldlM_queryStep _ _ hpairs _
  have htaken : (querySegments query).filterMap (takenPair spec fs.fieldName) =
      (segments query).filterMap (taken spec fs.fieldName) := by
    rw [querySegments_eq, filterMap_filterMap]
    rfl
  rw [htaken] at hcollected
  have hloop : queryLoop spec query kwargs = .ok result := by
    rw [queryLoop, hspecs, if_pos rfl]
    exact hresult
  constructor
  · rintro ⟨multi, found, hmulti, hfound, heq⟩
    rw [hloop] at hfound
    cases hfound
    rw [parseQueryString_eq h] at hmulti
    cases hmulti
    rw [map_valuesAt h, hcollected] at heq
    exact append_cancel_left heq
  · intro heq
    refine ⟨_, result, parseQueryString_eq h, hloop, ?_⟩
    rw [map_valuesAt h, hcollected, heq]

/-- Of two partial functions, one of which only lacks values of the other, the values are
the same only where the functions are. -/
theorem filterMap_eq_iff {α β : Type*} {f g : α → Option β} {list : List α}
    (h : ∀ x ∈ list, f x = g x ∨ f x = none) :
    list.filterMap f = list.filterMap g ↔ ∀ x ∈ list, f x = g x := by
  have hle (list : List α) (h : ∀ x ∈ list, f x = g x ∨ f x = none) :
      (list.filterMap f).length ≤ (list.filterMap g).length := by
    induction list with
    | nil => rfl
    | cons x list ih =>
      obtain ⟨hx, hmore⟩ := forall_mem_cons.mp h
      have hrest := ih hmore
      rw [filterMap_cons, filterMap_cons]
      rcases hx with heq | hnone
      · rw [heq]
        cases g x with
        | none => exact hrest
        | some value => exact Nat.succ_le_succ hrest
      · rw [hnone]
        cases g x with
        | none => exact hrest
        | some value => exact Nat.le_succ_of_le hrest
  constructor
  · induction list with
    | nil => exact fun _ => forall_mem_nil _
    | cons x list ih =>
      obtain ⟨hx, hmore⟩ := forall_mem_cons.mp h
      have hrest := hle _ hmore
      intro heq
      rw [filterMap_cons, filterMap_cons] at heq
      rcases hx with hsame | hnone
      · rw [hsame] at heq
        refine forall_mem_cons.mpr ⟨hsame, ih hmore ?_⟩
        cases hg : g x with
        | none => rwa [hg] at heq
        | some value =>
          rw [hg] at heq
          exact (List.cons.inj heq).2
      · rw [hnone] at heq
        cases hg : g x with
        | none =>
          rw [hg] at heq
          exact forall_mem_cons.mpr ⟨hnone.trans hg.symm, ih hmore heq⟩
        | some value =>
          rw [hg] at heq
          have hlength : (list.filterMap f).length = (list.filterMap g).length + 1 :=
            congrArg _ heq
          omega
  · exact filterMap_congr

/-- A field with a name of its own misses what a segment without `=` says. -/
theorem collectsMap_own_iff {spec : FastRouteSpec} {query : Bytes} (h : Decodes query)
    (kwargs : Kwargs Value) {fs : FieldSpec} (hdeclared : spec.queryMap fs.aliasKey = some fs)
    (hown : ∀ key other, spec.queryMap key = some other → other.fieldName = fs.fieldName →
      key = fs.aliasKey) :
    CollectsMap spec query kwargs fs ↔
      ∀ segment ∈ segments query, equals ∉ segment → percentDecode segment ≠ fs.aliasKey := by
  have hwith {segment : Bytes} (hmem : equals ∈ segment) :
      taken spec fs.fieldName segment = sent fs segment := by
    obtain ⟨front, back, rfl, hfront⟩ := eq_append_cons_of_mem hmem
    rw [taken, sent, keyValue, splitAtByte_append hfront, Option.bind_some, Option.getD_some,
      takenPair]
    by_cases hkey : percentDecode front = fs.aliasKey
    · rw [if_pos hkey, hkey, hdeclared, Option.bind_some, if_pos rfl]
    · rw [if_neg hkey]
      cases hmap : spec.queryMap (percentDecode front) with
      | none => rfl
      | some other =>
        rw [Option.bind_some, if_neg fun hname => hkey (hown _ _ hmap hname)]
  have hwithout {segment : Bytes} (hmem : equals ∉ segment) :
      taken spec fs.fieldName segment = none ∧
        (sent fs segment = none ↔ percentDecode segment ≠ fs.aliasKey) := by
    rw [taken, sent, keyValue, splitAtByte_none hmem, Option.getD_none]
    refine ⟨rfl, ?_⟩
    split
    · next heq => exact iff_of_false nofun fun hne => hne heq
    · next hne => exact iff_of_true rfl hne
  rw [collectsMap_iff h _ hdeclared, filterMap_eq_iff]
  · refine forall₂_congr fun segment _ => ?_
    by_cases hmem : equals ∈ segment
    · exact iff_of_true (hwith hmem) fun hnot => absurd hmem hnot
    · rw [(hwithout hmem).1, eq_comm, (hwithout hmem).2]
      exact ⟨fun hne _ => hne, fun hne => hne hmem⟩
  · intro segment _
    by_cases hmem : equals ∈ segment
    · exact .inl (hwith hmem)
    · exact .inr (hwithout hmem).1

/-- Where the readers of a query string agree. -/
theorem queryParsers_agree_iff (spec : FastRouteSpec) (kwargs : Kwargs Value) {query : Bytes}
    (hvalid : IsUtf8 (percentDecode query)) :
    (∀ text : Text, text.Encodable → text.bytes = query →
      (parseQueryString query = some (parseQsPython text) ↔ [] ∉ segments query)) ∧
    ∀ fs, spec.queryMap fs.aliasKey = some fs → (CollectsMap spec query kwargs fs ↔
        (segments query).filterMap (taken spec fs.fieldName) =
          (segments query).filterMap (sent fs)) ∧
      ((∀ key other, spec.queryMap key = some other → other.fieldName = fs.fieldName →
          key = fs.aliasKey) →
        (CollectsMap spec query kwargs fs ↔ ∀ segment ∈ segments query, equals ∉ segment →
            percentDecode segment ≠ fs.aliasKey)) := by
  have hdecodes : Decodes query := decodes_iff.mpr hvalid
  refine ⟨?_, fun fs hdeclared => ⟨collectsMap_iff hdecodes _ hdeclared,
    collectsMap_own_iff hdecodes _ hdeclared⟩⟩
  rintro text hencodable rfl
  exact parseQueryString_python_iff hencodable hdecodes

def searchSpec : FastRouteSpec where
  querySpecs := [{ fieldName := "q", aliasName := ascii "q" }]

theorem queryParsers_agree_search :
    IsUtf8 (percentDecode (ascii "q=a+b&q=%41")) ∧
      ∀ fs, searchSpec.queryMap fs.aliasKey = some fs →
        (CollectsMap searchSpec (ascii "q=a+b&q=%41") Kwargs.empty fs ↔
          (segments (ascii "q=a+b&q=%41")).filterMap (taken searchSpec fs.fieldName) =
            (segments (ascii "q=a+b&q=%41")).filterMap (sent fs)) :=
  ⟨by decide, fun fs hdeclared =>
    ((queryParsers_agree_iff _ _ (by decide)).2 fs hdeclared).1⟩

/-- An empty segment is a key for one reader only, and a key without `=` is no parameter. -/
theorem queryParsers_valueless :
    ¬ ∀ text : Text, text.Encodable → IsUtf8 (percentDecode text.bytes) →
      parseQueryString text.bytes = some (parseQsPython text) ∧
        ∀ (spec : FastRouteSpec) (kwargs : Kwargs Value) (fs : FieldSpec),
          spec.queryMap fs.aliasKey = some fs → CollectsMap spec text.bytes kwargs fs := by
  intro h
  have hencodable : Text.Encodable (plainText "q&&a=1") := by decide
  obtain ⟨hsame, -⟩ := h _ hencodable (by decide)
  have hnot := (parseQueryString_python_iff hencodable (decodes_iff.mpr (by decide))).mp hsame
  exact hnot (by decide)

end AstraApi.Dispatch
