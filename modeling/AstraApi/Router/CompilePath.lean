import AstraApi.Lib.Greedy
import AstraApi.Lib.Utf8
import AstraApi.Router.Single
import Mathlib.Data.List.DropRight

/-!
# The regular expression of a route

`compile_path` turns a path pattern into a regular expression: the text between the
parameters is quoted and every parameter becomes a named group.  The trie reads the same
pattern from its bytes, and a parameter only directly behind a `/`.
-/

namespace AstraApi.Routing

open Greedy

def slashChar : CodePoint := 47
def colonChar : CodePoint := 58
def openBraceChar : CodePoint := 123
def closeBraceChar : CodePoint := 125
def newline : CodePoint := 10

/-- `[a-zA-Z_]` -/
def isNameStart (c : CodePoint) : Bool :=
  (97 ≤ c.val && c.val ≤ 122) || (65 ≤ c.val && c.val ≤ 90) || c.val == 95

/-- `[a-zA-Z0-9_]` -/
def isNamePart (c : CodePoint) : Bool := isNameStart c || (48 ≤ c.val && c.val ≤ 57)

/-- What `[a-zA-Z_][a-zA-Z0-9_]*` matches. -/
structure Identifier where
  text : Text
  parts : ∀ c ∈ text, isNamePart c = true
  deriving DecidableEq

theorem isNamePart_of_mem {c : CodePoint} {rest : Text} (h : isNameStart c = true) :
    ∀ d ∈ c :: rest.takeWhile isNamePart, isNamePart d = true := by
  intro d hd
  cases List.mem_cons.mp hd with
  | inl heq =>
    rw [heq, isNamePart, h]
    rfl
  | inr hmem => exact List.mem_takeWhile_imp hmem

def identifier : Text → Option (Identifier × Text)
  | [] => none
  | c :: rest =>
    if h : isNameStart c = true then
      some (⟨c :: rest.takeWhile isNamePart, isNamePart_of_mem h⟩, rest.dropWhile isNamePart)
    else none

/-- `PARAM_REGEX` at the start of a text: the two groups and what follows. -/
def paramRegex : Text → Option (Identifier × Option Identifier × Text)
  | [] => none
  | c :: rest =>
    if c = openBraceChar then
      match identifier rest with
      | none => none
      | some (_, []) => none
      | some (name, d :: rest) =>
        if d = closeBraceChar then some (name, none, rest)
        else if d = colonChar then
          match identifier rest with
          | none => none
          | some (_, []) => none
          | some (convertor, d :: rest) =>
            if d = closeBraceChar then some (name, some convertor, rest) else none
        else none
    else none

inductive Convertor where
  | str
  | path
  deriving DecidableEq

def Convertor.key : Convertor → Text
  | .str => plainText "str"
  | .path => plainText "path"

def convertorTypes (key : Text) : Option Convertor :=
  if key = Convertor.key .str then some .str
  else if key = Convertor.key .path then some .path
  else none

/-- A character of the text between parameters, or a parameter as it is written. -/
inductive Piece where
  | text (c : CodePoint)
  | param (name : Identifier) (written : Option Convertor)
  deriving DecidableEq

/-- `match.groups("str")`: the convertor of a parameter that names none. -/
def convertorOf (written : Option Convertor) : Convertor := written.getD .str

def suffix : Option Text → Text
  | none => []
  | some key => colonChar :: key

def paramSource (name : Identifier) (written : Option Convertor) : Text :=
  openBraceChar :: name.text ++ suffix (written.map Convertor.key) ++ [closeBraceChar]

def Piece.source : Piece → Text
  | .text c => [c]
  | .param name written => paramSource name written

/-- The loop of `compile_path` over `PARAM_REGEX.finditer`; an unknown convertor fails an
assertion. -/
def findParams : ℕ → Text → Option (List Piece)
  | 0, _ => none
  | _ + 1, [] => some []
  | fuel + 1, c :: rest =>
    match paramRegex (c :: rest) with
    | none => (findParams fuel rest).map (.text c :: ·)
    | some (name, none, rest') => (findParams fuel rest').map (.param name none :: ·)
    | some (name, some key, rest') =>
      match convertorTypes key.text with
      | none => none
      | some convertor => (findParams fuel rest').map (.param name (some convertor) :: ·)

def paramNames (pieces : List Piece) : List Text :=
  pieces.filterMap fun piece =>
    match piece with
    | .text _ => none
    | .param name _ => some name.text

def Piece.isText : Piece → Bool
  | .text _ => true
  | .param _ _ => false

/-- Behind the last parameter of a host pattern the regular expression leaves out the
port. -/
def withoutPort (pieces : List Piece) : List Piece :=
  pieces.rdropWhile Piece.isText ++
    (pieces.rtakeWhile Piece.isText).takeWhile (· != .text colonChar)

def compilePath (path : Text) : Option (List Piece) :=
  match findParams (path.length + 1) path with
  | none => none
  | some pieces =>
    if (paramNames pieces).Nodup then
      some (if path.head? = some slashChar then pieces else withoutPort pieces)
    else none

/-- `Route.__init__` asserts that the path starts with `/`. -/
def compileRoute (path : Text) : Option (List Piece) :=
  if path.head? = some slashChar then compilePath path else none

def Convertor.item (name : Text) : Convertor → Item CodePoint Text
  | .str => .group name (· != slashChar) 1
  | .path => .group name (· != newline) 0

def Piece.item : Piece → Item CodePoint Text
  | .text c => .char c
  | .param name written => (convertorOf written).item name.text

theorem names_item (pieces : List Piece) : names (pieces.map Piece.item) = paramNames pieces := by
  induction pieces with
  | nil => rfl
  | cons piece pieces ih =>
    cases piece with
    | text c => exact ih
    | param name written =>
      rw [List.map_cons, Piece.item]
      cases convertorOf written <;> exact congrArg _ ih

/-- `$` -/
def atDollar (rest : Text) : Bool := rest == [] || rest == [newline]

def regexMatch (pieces : List Piece) (path : Text) : Option (List (Text × Text)) :=
  run atDollar (pieces.map Piece.item) path

/-! ## The pieces spell the pattern -/

def sourceOf (pieces : List Piece) : Text := pieces.flatMap Piece.source

@[simp]
theorem sourceOf_cons (piece : Piece) (pieces : List Piece) :
    sourceOf (piece :: pieces) = piece.source ++ sourceOf pieces := rfl

theorem identifier_spells {text rest : Text} {name : Identifier}
    (h : identifier text = some (name, rest)) : text = name.text ++ rest := by
  cases text with
  | nil => cases h
  | cons c text =>
    rw [identifier] at h
    split at h
    · obtain ⟨rfl, rfl⟩ := Prod.mk.inj (Option.some.inj h)
      rw [List.cons_append, List.takeWhile_append_dropWhile]
    · cases h

theorem paramRegex_spells {text rest : Text} {name : Identifier} {key : Option Identifier}
    (h : paramRegex text = some (name, key, rest)) :
    text = openBraceChar :: name.text ++ suffix (key.map Identifier.text) ++
      closeBraceChar :: rest := by
  cases text with
  | nil => cases h
  | cons c text =>
    rw [paramRegex] at h
    split at h
    · rename_i hc
      split at h
      · cases h
      · cases h
      · rename_i found d tail hfound
        have htext := identifier_spells hfound
        split at h
        · rename_i hd
          obtain ⟨rfl, hkey⟩ := Prod.mk.inj (Option.some.inj h)
          obtain ⟨rfl, rfl⟩ := Prod.mk.inj hkey
          rw [htext, hc, hd]
          simp [suffix]
        · split at h
          · rename_i hd
            split at h
            · cases h
            · cases h
            · rename_i convertor e tail' hconvertor
              have htail := identifier_spells hconvertor
              split at h
              · rename_i he
                obtain ⟨rfl, hkey⟩ := Prod.mk.inj (Option.some.inj h)
                obtain ⟨rfl, rfl⟩ := Prod.mk.inj hkey
                rw [htext, htail, hc, hd, he]
                simp [suffix]
              · cases h
          · cases h
    · cases h

theorem key_of_convertorTypes {key : Text} {convertor : Convertor}
    (h : convertorTypes key = some convertor) : key = convertor.key := by
  rw [convertorTypes] at h
  split at h
  · rename_i hkey
    rw [← Option.some.inj h]
    exact hkey
  · split at h
    · rename_i hkey
      rw [← Option.some.inj h]
      exact hkey
    · cases h

theorem findParams_spells {fuel : ℕ} {text : Text} {pieces : List Piece}
    (h : findParams fuel text = some pieces) : sourceOf pieces = text := by
  induction fuel generalizing text pieces with
  | zero => cases h
  | succ fuel ih =>
    cases text with
    | nil =>
      rw [← Option.some.inj h]
      rfl
    | cons c rest =>
      rw [findParams] at h
      split at h
      · obtain ⟨tail, htail, rfl⟩ := Option.map_eq_some_iff.mp h
        rw [sourceOf_cons, ih htail]
        rfl
      · rename_i name rest' hparam
        obtain ⟨tail, htail, rfl⟩ := Option.map_eq_some_iff.mp h
        rw [sourceOf_cons, ih htail, paramRegex_spells hparam]
        simp [Piece.source, paramSource]
      · rename_i name key rest' hparam
        split at h
        · cases h
        · rename_i convertor hconvertor
          obtain ⟨tail, htail, rfl⟩ := Option.map_eq_some_iff.mp h
          rw [sourceOf_cons, ih htail, paramRegex_spells hparam, Option.map_some,
            key_of_convertorTypes hconvertor]
          simp [Piece.source, paramSource]

theorem compileRoute_spells {pattern : Text} {pieces : List Piece}
    (h : compileRoute pattern = some pieces) :
    pattern.head? = some slashChar ∧ sourceOf pieces = pattern ∧ (paramNames pieces).Nodup := by
  rw [compileRoute] at h
  split at h
  · rename_i hslash
    rw [compilePath] at h
    split at h
    · cases h
    · rename_i found hfound
      split at h
      · rename_i hnodup
        obtain rfl := Option.some.inj h
        exact ⟨hslash, findParams_spells hfound, hnodup⟩
      · cases h
  · cases h

end AstraApi.Routing
