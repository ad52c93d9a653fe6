import AstraApi.Response.EscapedString
import AstraApi.Response.JsonNumber

/-!
# `write_json`

The writer of every JSON response, for the types that it handles itself.  It fails
exactly when some part of the value is refused: one that is nested too deeply, a
special number, a string without UTF-8.
-/

namespace AstraApi.Response.Writer

/-- What floats look like, and the settings of the process. -/
structure Interpreter (F : Type*) where
  isnan : F → Bool
  isinf : F → Bool
  d2s : F → Bytes
  longLong : F → Option ℤ
  significant : F → Significant
  maxStrDigits : ℕ
  capitals : Bool
  simd : Simd

def isNameStart (c : CodePoint) : Bool :=
  128 ≤ c.val ∨ 0x41 ≤ c.val ∧ c.val ≤ 0x5a ∨ 0x61 ≤ c.val ∧ c.val ≤ 0x7a ∨ c.val = 0x5f

structure ClassName where
  first : CodePoint
  others : Text
  isNameStart_first : isNameStart first = true
  isName_others : ∀ c ∈ others, isNameStart c = true ∨ 0x30 ≤ c.val ∧ c.val ≤ 0x39

inductive Key where
  | str (text : Text)
  | other (str : Option Text)

/-- Python values.  An `enum` is a member that is neither an integer nor a string, with
its value; an `intEnum` is a member of a class that also is an integer, whose `str()`
names the class and the member.  A date or time is given by its `isoformat()`, a
`timedelta` by its `total_seconds()`. -/
inductive PyValue (F : Type*) where
  | none
  | bool (value : Bool)
  | int (value : ℤ)
  | intEnum (value : ℤ) (cls : ClassName) (member : Text)
  | float (value : F)
  | str (text : Text)
  | bytes (data : Bytes)
  | dict (items : List (Key × PyValue F))
  | list (items : List (PyValue F))
  | tuple (items : List (PyValue F))
  | set (items : List (PyValue F))
  | enum (value : PyValue F)
  | date (isoformat : Text)
  | timedelta (totalSeconds : F)
  | decimal (value : DecimalValue)
  | uuid (str : Text)

/-- A `ValueError` of `write_json`, or what the interpreter raised. -/
inductive WriteError where
  | value (message : Bytes)
  | raised

variable {F : Type*} (interp : Interpreter F)

/-- `str()` of an integer, which is limited in length unless the limit is zero. -/
def intStr (value : ℤ) : Except WriteError Bytes :=
  if interp.maxStrDigits ≠ 0 ∧ interp.maxStrDigits < (digits value.natAbs).length then .error .raised
  else .ok (decimal value)

/-- `PyUnicode_AsUTF8AndSize`. -/
def asUtf8 (text : Text) : Except WriteError Bytes :=
  match text.utf8 with
  | some utf8 => .ok utf8
  | none => .error .raised

def enumStr (cls : ClassName) (member : Text) : Text :=
  cls.first :: cls.others ++ plainText "." ++ member

def writeString (text : Text) : Except WriteError Bytes :=
  (asUtf8 text).map (writeEscapedStringBlocks interp.simd)

def writeKey : Key → Except WriteError Bytes
  | .str text => writeString interp text
  | .other (some str) => writeString interp str
  | .other none => .error .raised

mutual

def writeJson (depth : ℕ) (value : PyValue F) : Except WriteError Bytes :=
  if 64 < depth then .error (.value (ascii "JSON nesting too deep (>64)"))
  else
    match value with
    | .none => .ok (ascii "null")
    | .bool value => .ok (if value then ascii "true" else ascii "false")
    | .int value =>
      match asLongLong value with
      | some val => .ok (fastI64ToBuf val)
      | none => intStr interp value
    | .intEnum value cls member =>
      match asLongLong value with
      | some val => .ok (fastI64ToBuf val)
      | none => asUtf8 (enumStr cls member)
    | .float value =>
      if interp.isnan value then .error (.value (ascii "NaN is not JSON serializable"))
      else if interp.isinf value then .error (.value (ascii "Infinity is not JSON serializable"))
      else .ok (lowerExponent (interp.d2s value))
    | .str text => writeString interp text
    | .bytes data => .ok (writeEscapedStringBlocks interp.simd data)
    | .dict items => do
      let texts ← writePairs (depth + 1) items
      .ok ([0x7b] ++ (ascii ",").intercalate texts ++ [0x7d])
    | .list items | .tuple items | .set items => do
      let texts ← writeElements (depth + 1) items
      .ok (ascii "[" ++ (ascii ",").intercalate texts ++ ascii "]")
    | .enum value => writeJson depth value
    | .date isoformat => writeString interp isoformat
    | .timedelta totalSeconds =>
      match interp.longLong totalSeconds with
      | some val => .ok (decimal val)
      | none => .ok (interp.significant totalSeconds).format
    | .decimal value =>
      let s := value.str interp.capitals
      if isSpecialText s then .error (.value (s ++ ascii " is not JSON serializable"))
      else .ok s
    | .uuid str => writeString interp str

def writeElements (depth : ℕ) : List (PyValue F) → Except WriteError (List Bytes)
  | [] => .ok []
  | item :: items => do
    let text ← writeJson depth item
    let texts ← writeElements depth items
    .ok (text :: texts)

def writePairs (depth : ℕ) : List (Key × PyValue F) → Except WriteError (List Bytes)
  | [] => .ok []
  | (key, value) :: items => do
    let keyText ← writeKey interp key
    let text ← writeJson depth value
    let texts ← writePairs depth items
    .ok ((keyText ++ ascii ":" ++ text) :: texts)

end

/-! ## The parts of a value -/

mutual

/-- Everything a value is made of, with the number of containers around it. -/
def parts (depth : ℕ) (value : PyValue F) : List (ℕ × PyValue F) :=
  (depth, value) ::
    match value with
    | .dict items => pairParts (depth + 1) items
    | .list items | .tuple items | .set items => itemParts (depth + 1) items
    | .enum value => parts depth value
    | _ => []

def itemParts (depth : ℕ) : List (PyValue F) → List (ℕ × PyValue F)
  | [] => []
  | item :: items => parts depth item ++ itemParts depth items

def pairParts (depth : ℕ) : List (Key × PyValue F) → List (ℕ × PyValue F)
  | [] => []
  | (_, value) :: items => parts depth value ++ pairParts depth items

end

def refusedKey : Key → Bool
  | .str text => text.utf8.isNone
  | .other (some str) => str.utf8.isNone
  | .other none => true

def refusedPart : PyValue F → Bool
  | .int value =>
    asLongLong value = none ∧ interp.maxStrDigits ≠ 0 ∧
      interp.maxStrDigits < (digits value.natAbs).length
  | .intEnum value cls member => asLongLong value = none ∧ (enumStr cls member).utf8 = none
  | .float value => interp.isnan value || interp.isinf value
  | .str text => text.utf8.isNone
  | .dict items => items.any fun item => refusedKey item.1
  | .date isoformat => isoformat.utf8.isNone
  | .decimal value => value.refused
  | .uuid str => str.utf8.isNone
  | _ => false

/-! ## When it fails -/

def Fails {α : Type} (result : Except WriteError α) : Prop := ∃ error, result = .error error

@[simp]
theorem fails_error {α : Type} (error : WriteError) : Fails (.error error : Except WriteError α) :=
  ⟨error, rfl⟩

@[simp]
theorem not_fails_ok {α : Type} (value : α) : ¬ Fails (.ok value : Except WriteError α) := by
  rintro ⟨_, h⟩
  cases h

theorem fails_bind {α β : Type} (result : Except WriteError α) (next : α → Except WriteError β) :
    Fails (result >>= next) ↔ Fails result ∨ ∃ value, result = .ok value ∧ Fails (next value) := by
  cases result with
  | error error =>
    exact iff_of_true (fails_error _) (.inl (fails_error _))
  | ok value =>
    constructor
    · exact fun h => .inr ⟨value, rfl, h⟩
    · rintro (h | ⟨_, heq, h⟩)
      · exact absurd h (not_fails_ok _)
      · cases heq
        exact h

theorem fails_or_ok {α : Type} (result : Except WriteError α) :
    Fails result ∨ ∃ value, result = .ok value := by
  cases result with
  | error error => exact .inl (fails_error _)
  | ok value => exact .inr ⟨value, rfl⟩

theorem fails_asUtf8_iff (text : Text) : Fails (asUtf8 text) ↔ text.utf8.isNone = true := by
  rw [asUtf8]
  cases text.utf8 with
  | none => exact iff_of_true (fails_error _) rfl
  | some utf8 => exact iff_of_false (not_fails_ok _) Bool.false_ne_true

theorem fails_writeString_iff (text : Text) :
    Fails (writeString interp text) ↔ text.utf8.isNone = true := by
  rw [writeString, ← fails_asUtf8_iff]
  cases asUtf8 text with
  | error error => exact iff_of_true (fails_error _) (fails_error _)
  | ok utf8 => exact iff_of_false (not_fails_ok _) (not_fails_ok _)

theorem fails_writeKey_iff (key : Key) : Fails (writeKey interp key) ↔ refusedKey key = true := by
  cases key with
  | str text => exact fails_writeString_iff _ _
  | other str =>
    cases str with
    | none => exact iff_of_true (fails_error _) rfl
    | some str => exact fails_writeString_iff _ _

theorem fails_intStr_iff (value : ℤ) : Fails (intStr interp value) ↔
    interp.maxStrDigits ≠ 0 ∧ interp.maxStrDigits < (digits value.natAbs).length := by
  rw [intStr]
  split
  · next h => exact iff_of_true (fails_error _) h
  · next h => exact iff_of_false (not_fails_ok _) h

def Refused (part : ℕ × PyValue F) : Prop := 64 < part.1 ∨ refusedPart interp part.2 = true

instance (part : ℕ × PyValue F) : Decidable (Refused interp part) :=
  inferInstanceAs (Decidable (_ ∨ _))

theorem fails_too_deep {depth : ℕ} (h : 64 < depth) (value : PyValue F) :
    Fails (writeJson interp depth value) := by
  rw [writeJson.eq_def, if_pos h]
  exact fails_error _

theorem self_mem_parts (depth : ℕ) (value : PyValue F) : (depth, value) ∈ parts depth value := by
  cases value <;> exact List.mem_cons_self

theorem fails_container_iff {depth : ℕ} (hdepth : ¬ 64 < depth) {value : PyValue F}
    {texts : Except WriteError (List Bytes)} {inner : List (ℕ × PyValue F)}
    (hinner : Fails texts ↔ refusedPart interp value = true ∨ ∃ part ∈ inner, Refused interp part)
    (finish : List Bytes → Bytes) :
    Fails (texts >>= fun texts => .ok (finish texts)) ↔
      ∃ part ∈ (depth, value) :: inner, Refused interp part := by
  rw [fails_bind, hinner]
  constructor
  · rintro ((hvalue | ⟨part, hmem, hpart⟩) | ⟨_, _, h⟩)
    · exact ⟨_, List.mem_cons_self, .inr hvalue⟩
    · exact ⟨part, List.mem_cons_of_mem _ hmem, hpart⟩
    · exact absurd h (not_fails_ok _)
  · rintro ⟨part, hmem, hpart⟩
    cases hmem with
    | head => exact .inl (.inl (hpart.resolve_left hdepth))
    | tail _ hmem => exact .inl (.inr ⟨part, hmem, hpart⟩)

theorem fails_items_iff {depth : ℕ} (hdepth : ¬ 64 < depth) {value : PyValue F}
    (hvalue : refusedPart interp value = false) {texts : Except WriteError (List Bytes)}
    {inner : List (ℕ × PyValue F)} (hinner : Fails texts ↔ ∃ part ∈ inner, Refused interp part)
    (finish : List Bytes → Bytes) :
    Fails (texts >>= fun texts => .ok (finish texts)) ↔
      ∃ part ∈ (depth, value) :: inner, Refused interp part := by
  apply fails_container_iff _ hdepth
  rw [hinner, hvalue, or_iff_right Bool.false_ne_true]

theorem fails_step_iff {α β γ : Type} (first : Except WriteError α) (second : Except WriteError β)
    (finish : α → β → γ) :
    Fails (first >>= fun a => second >>= fun b => .ok (finish a b)) ↔ Fails first ∨ Fails second := by
  rw [fails_bind]
  constructor
  · rintro (h | ⟨_, _, h⟩)
    · exact .inl h
    · rw [fails_bind] at h
      exact .inr (h.resolve_right fun ⟨_, _, hok⟩ => not_fails_ok _ hok)
  · rintro (h | h)
    · exact .inl h
    · cases fails_or_ok first with
      | inl hfirst => exact .inl hfirst
      | inr hfirst =>
        obtain ⟨value, heq⟩ := hfirst
        exact .inr ⟨value, heq, (fails_bind _ _).mpr (.inl h)⟩

theorem fails_key_iff {α β γ δ : Type} (key : Except WriteError δ) (first : Except WriteError α)
    (second : Except WriteError β) (finish : δ → α → β → γ) :
    Fails (key >>= fun k => first >>= fun a => second >>= fun b => .ok (finish k a b)) ↔
      Fails key ∨ Fails first ∨ Fails second := by
  rw [fails_bind]
  constructor
  · rintro (h | ⟨k, _, h⟩)
    · exact .inl h
    · exact .inr ((fails_step_iff _ _ _).mp h)
  · rintro (h | h)
    · exact .inl h
    · cases fails_or_ok key with
      | inl hkey => exact .inl hkey
      | inr hkey =>
        obtain ⟨k, heq⟩ := hkey
        exact .inr ⟨k, heq, (fails_step_iff _ _ _).mpr h⟩

theorem exists_mem_append_iff {α : Type*} {P : α → Prop} {left right : List α} :
    (∃ a ∈ left ++ right, P a) ↔ (∃ a ∈ left, P a) ∨ ∃ a ∈ right, P a := by
  simp [or_and_right, exists_or]

theorem exists_singleton_refused_iff {depth : ℕ} (hdepth : ¬ 64 < depth) (value : PyValue F) :
    (∃ part ∈ [(depth, value)], Refused interp part) ↔ refusedPart interp value = true := by
  simp [Refused, hdepth]

mutual

/-- The writer fails exactly when a part of the value is refused. -/
theorem fails_writeJson_iff (depth : ℕ) (value : PyValue F) :
    Fails (writeJson interp depth value) ↔ ∃ part ∈ parts depth value, Refused interp part := by
  by_cases hdepth : 64 < depth
  · exact iff_of_true (fails_too_deep interp hdepth value)
      ⟨_, self_mem_parts depth value, .inl hdepth⟩
  · cases value with
    | none =>
      refine Iff.trans ?_ (exists_singleton_refused_iff interp hdepth _).symm
      rw [writeJson, if_neg hdepth]
      exact iff_of_false (not_fails_ok _) Bool.false_ne_true
    | bool value =>
      refine Iff.trans ?_ (exists_singleton_refused_iff interp hdepth _).symm
      rw [writeJson, if_neg hdepth]
      exact iff_of_false (not_fails_ok _) Bool.false_ne_true
    | int value =>
      refine Iff.trans ?_ (exists_singleton_refused_iff interp hdepth _).symm
      rw [writeJson, if_neg hdepth]
      simp only [refusedPart, decide_eq_true_eq]
      cases asLongLong value with
      | none => simpa using fails_intStr_iff interp value
      | some val => simp
    | intEnum value cls member =>
      refine Iff.trans ?_ (exists_singleton_refused_iff interp hdepth _).symm
      rw [writeJson, if_neg hdepth]
      simp only [refusedPart, decide_eq_true_eq]
      cases asLongLong value with
      | none => simpa using fails_asUtf8_iff (enumStr cls member)
      | some val => simp
    | float value =>
      refine Iff.trans ?_ (exists_singleton_refused_iff interp hdepth _).symm
      rw [writeJson, if_neg hdepth]
      simp only [refusedPart, Bool.or_eq_true]
      split
      · next hnan => exact iff_of_true (fails_error _) (.inl hnan)
      · next hnan =>
        split
        · next hinf => exact iff_of_true (fails_error _) (.inr hinf)
        · next hinf => exact iff_of_false (not_fails_ok _) (not_or.mpr ⟨hnan, hinf⟩)
    | str text =>
      refine Iff.trans ?_ (exists_singleton_refused_iff interp hdepth _).symm
      rw [writeJson, if_neg hdepth]
      exact fails_writeString_iff interp text
    | bytes data =>
      refine Iff.trans ?_ (exists_singleton_refused_iff interp hdepth _).symm
      rw [writeJson, if_neg hdepth]
      exact iff_of_false (not_fails_ok _) Bool.false_ne_true
    | dict items =>
      rw [parts, writeJson, if_neg hdepth]
      refine fails_container_iff interp hdepth ?_ _
      rw [fails_writePairs_iff (depth + 1) items, refusedPart, List.any_eq_true]
    | list items | tuple items | set items =>
      rw [parts, writeJson, if_neg hdepth]
      exact fails_items_iff interp hdepth rfl (fails_writeElements_iff (depth + 1) items) _
    | enum value =>
      rw [parts, writeJson, if_neg hdepth, fails_writeJson_iff depth value]
      simp [Refused, hdepth, refusedPart]
    | date isoformat =>
      refine Iff.trans ?_ (exists_singleton_refused_iff interp hdepth _).symm
      rw [writeJson, if_neg hdepth]
      exact fails_writeString_iff interp isoformat
    | timedelta totalSeconds =>
      refine Iff.trans ?_ (exists_singleton_refused_iff interp hdepth _).symm
      rw [writeJson, if_neg hdepth]
      cases interp.longLong totalSeconds with
      | none => exact iff_of_false (not_fails_ok _) Bool.false_ne_true
      | some val => exact iff_of_false (not_fails_ok _) Bool.false_ne_true
    | decimal value =>
      refine Iff.trans ?_ (exists_singleton_refused_iff interp hdepth _).symm
      rw [writeJson, if_neg hdepth]
      simp only [refusedPart, isSpecialText_str]
      cases value.refused with
      | true => exact iff_of_true (fails_error _) rfl
      | false => exact iff_of_false (not_fails_ok _) Bool.false_ne_true
    | uuid str =>
      refine Iff.trans ?_ (exists_singleton_refused_iff interp hdepth _).symm
      rw [writeJson, if_neg hdepth]
      exact fails_writeString_iff interp str

theorem fails_writeElements_iff (depth : ℕ) (items : List (PyValue F)) :
    Fails (writeElements interp depth items) ↔ ∃ part ∈ itemParts depth items, Refused interp part := by
  cases items with
  | nil => exact iff_of_false (not_fails_ok _) (fun ⟨_, hmem, _⟩ => nomatch hmem)
  | cons item items =>
    rw [writeElements, fails_step_iff, itemParts, exists_mem_append_iff,
      fails_writeJson_iff depth item, fails_writeElements_iff depth items]

theorem fails_writePairs_iff (depth : ℕ) (items : List (Key × PyValue F)) :
    Fails (writePairs interp depth items) ↔ (∃ item ∈ items, refusedKey item.1 = true) ∨
        ∃ part ∈ pairParts depth items, Refused interp part := by
  cases items with
  | nil =>
    exact iff_of_false (not_fails_ok _) fun h => h.elim (fun ⟨_, hmem, _⟩ => by cases hmem)
      fun ⟨_, hmem, _⟩ => by cases hmem
  | cons item items =>
    obtain ⟨key, value⟩ := item
    rw [writePairs, fails_key_iff, pairParts, exists_mem_append_iff,
      fails_writeKey_iff, fails_writeJson_iff depth value, fails_writePairs_iff depth items,
      List.exists_mem_cons_iff]
    exact (or_congr_right or_left_comm).trans or_assoc.symm

end

end AstraApi.Response.Writer
