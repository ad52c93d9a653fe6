import AstraApi.Lib.Bytes

/-!
# JSON results

The values an endpoint may return, their JSON text (`write_json`) and their
content hash (`hash_json_object`).  What depends on the interpreter is a
parameter: the hashes of strings, bytes and floats, the text of floats, and the
text of the types that are converted first.
-/

namespace AstraApi.Response

/-- Python values.  A `str` is given by its UTF-8 bytes, and a `dict` lists its
items in insertion order. -/
inductive PyObj (F O : Type*) where
  | none
  | bool (value : Bool)
  | int (value : ℤ)
  | float (value : F)
  | str (utf8 : Bytes)
  | bytes (data : Bytes)
  | dict (items : List (PyObj F O × PyObj F O))
  | list (items : List (PyObj F O))
  | tuple (items : List (PyObj F O))
  | other (object : O)

/-- What the interpreter says about a value. -/
structure Runtime (F O : Type*) where
  hashStr : Bytes → UInt64
  hashBytes : Bytes → UInt64
  hashFloat : F → UInt64
  floatText : F → Option Bytes
  otherText : ℕ → O → Option Bytes
  strOf : PyObj F O → Option Bytes

variable {F O : Type*} (runtime : Runtime F O)

/-! ## Content hashes -/

def hashUpdate (h value : UInt64) : UInt64 :=
  (h ^^^ value) * 1099511628211

def fnvOffset : UInt64 := 14695981039346656037

def fnv1aHashBytes (data : Bytes) : UInt64 :=
  data.foldl (fun h b => hashUpdate h b.toUInt64) fnvOffset

/-- `PyObject_Hash` of an integer: its residue modulo `2 ^ 61 - 1`, with the sign
of the integer, where `-1` is reserved for errors. -/
def hashInt (value : ℤ) : UInt64 :=
  let h : ℤ := value.sign * (value.natAbs % (2 ^ 61 - 1) : ℕ)
  UInt64.ofInt (if h = -1 then -2 else h)

mutual

/-- Mix a value into a hash; `none` for a type that is not supported. -/
def hashJsonObject : PyObj F O → UInt64 → Option UInt64
  | .none, h => some (hashUpdate h 0x0DEFACED)
  | .bool true, h => some (hashUpdate h 0x1F00D)
  | .bool false, h => some (hashUpdate h 0x0BAD)
  | .str utf8, h => some (hashUpdate h (runtime.hashStr utf8))
  | .int value, h => some (hashUpdate h (hashInt value))
  | .float value, h => some (hashUpdate h (runtime.hashFloat value))
  | .bytes data, h => some (hashUpdate h (runtime.hashBytes data))
  | .dict items, h => hashPairs items (hashUpdate h (UInt64.ofNat items.length))
  | .list items, h => hashElements items (hashUpdate h (UInt64.ofNat items.length + 0xC0DE1))
  | .tuple items, h => hashElements items (hashUpdate h (UInt64.ofNat items.length + 0xC0DE2))
  | .other _, _ => none

def hashElements : List (PyObj F O) → UInt64 → Option UInt64
  | [], h => some h
  | item :: items, h =>
    match hashJsonObject item h with
    | none => none
    | some h => hashElements items h

def hashPairs : List (PyObj F O × PyObj F O) → UInt64 → Option UInt64
  | [], h => some h
  | (key, value) :: items, h =>
    match hashJsonObject key h with
    | none => none
    | some h =>
      match hashJsonObject value h with
      | none => none
      | some h => hashPairs items h

end

/-- Zero stands for a dictionary that is not cached. -/
def hashDictContent (items : List (PyObj F O × PyObj F O)) : UInt64 :=
  if 50 < items.length then 0
  else (hashJsonObject runtime (.dict items) fnvOffset).getD 0

/-! ## JSON text -/

def decimal (value : ℤ) : Bytes :=
  let digits := (Nat.toDigits 10 value.natAbs).map fun c => UInt8.ofNat c.toNat
  if value < 0 then ascii "-" ++ digits else digits

def hexDigit (value : ℕ) : Byte :=
  UInt8.ofNat (Nat.digitChar value).toNat

def emitEscape (c : Byte) : Bytes :=
  if c = 0x22 then ascii "\\\""
  else if c = 0x5c then ascii "\\\\"
  else if c = 0x08 then ascii "\\b"
  else if c = 0x0c then ascii "\\f"
  else if c = 0x0a then ascii "\\n"
  else if c = 0x0d then ascii "\\r"
  else if c = 0x09 then ascii "\\t"
  else ascii "\\u00" ++ [hexDigit (c.toNat / 16), hexDigit (c.toNat % 16)]

def writeEscapedString (data : Bytes) : Bytes :=
  ascii "\"" ++
    data.flatMap (fun c => if 0x20 ≤ c ∧ c ≠ 0x22 ∧ c ≠ 0x5c then [c] else emitEscape c) ++
    ascii "\""

mutual

/-- `none` when a value has no JSON text or is nested too deeply. -/
def writeJson (depth : ℕ) : PyObj F O → Option Bytes
  | .none => if 64 < depth then none else some (ascii "null")
  | .bool value =>
    if 64 < depth then none else some (if value then ascii "true" else ascii "false")
  | .int value => if 64 < depth then none else some (decimal value)
  | .float value => if 64 < depth then none else runtime.floatText value
  | .str utf8 => if 64 < depth then none else some (writeEscapedString utf8)
  | .bytes data => if 64 < depth then none else some (writeEscapedString data)
  | .dict items =>
    if 64 < depth then none
    else (writePairs (depth + 1) items).map fun texts =>
      [0x7b] ++ (ascii ",").intercalate texts ++ [0x7d]
  | .list items =>
    if 64 < depth then none
    else (writeElements (depth + 1) items).map fun texts =>
      ascii "[" ++ (ascii ",").intercalate texts ++ ascii "]"
  | .tuple items =>
    if 64 < depth then none
    else (writeElements (depth + 1) items).map fun texts =>
      ascii "[" ++ (ascii ",").intercalate texts ++ ascii "]"
  | .other object => if 64 < depth then none else runtime.otherText depth object

def writeElements (depth : ℕ) : List (PyObj F O) → Option (List Bytes)
  | [] => some []
  | item :: items =>
    match writeJson depth item, writeElements depth items with
    | some text, some texts => some (text :: texts)
    | _, _ => none

def writePairs (depth : ℕ) : List (PyObj F O × PyObj F O) → Option (List Bytes)
  | [] => some []
  | (key, value) :: items =>
    let keyText :=
      match key with
      | .str utf8 => some utf8
      | key => runtime.strOf key
    match keyText, writeJson depth value, writePairs depth items with
    | some keyText, some text, some texts =>
      some ((writeEscapedString keyText ++ ascii ":" ++ text) :: texts)
    | _, _, _ => none

end

end AstraApi.Response
