import AstraApi.Lib.Bytes

/-!
# Text

Strings as code points, and their encodings.  A surrogate may stand alone in a
string; it has no encoding.
-/

namespace AstraApi

abbrev CodePoint := Fin 0x110000
abbrev Text := List CodePoint

instance CodePoint.neZero : NeZero 0x110000 := ⟨by decide⟩

instance : LawfulBEq CodePoint := inferInstance

instance : LawfulBEq Text := inferInstance

def isSurrogate (c : CodePoint) : Bool := 0xd800 ≤ c.val && c.val ≤ 0xdfff

def encodeCodePoint (c : CodePoint) : Option Bytes :=
  if isSurrogate c then none else some (String.utf8EncodeChar (Char.ofNat c.val))

def Text.utf8 (text : Text) : Option Bytes := (text.mapM encodeCodePoint).map List.flatten

def Text.latin1 (text : Text) : Option Bytes :=
  text.mapM fun c => if c.val < 256 then some (UInt8.ofNat c.val) else none

def Text.ofUtf8 (bytes : Bytes) : Option Text :=
  (String.fromUTF8? ⟨bytes.toArray⟩).map fun text =>
    text.toList.map fun c => Fin.ofNat 0x110000 c.toNat

def Text.ofLatin1 (bytes : Bytes) : Text := bytes.map fun b => Fin.ofNat 0x110000 b.toNat

def plainText (literal : String) : Text :=
  literal.toList.map fun c => Fin.ofNat 0x110000 c.toNat

end AstraApi
