import AstraApi.Lib.Dict
import AstraApi.Lib.JsonDocument
import AstraApi.Response.JsonRoundTrip

/-!
# `val_to_pyobject`

What the JSON reader of the server makes of a body, next to what `json.loads` makes of
it and to what `write_json` wrote.  The reader keeps integers of 64 bits and turns all
others into floats.
-/

namespace AstraApi.JsonParser

open List
open Json (Document ReadsDocument Spells Member isIntegerLiteral integerOf parseDocument)
open Message (digitsValue)
open Response.Writer

/-- The values of `yyjson`. -/
inductive YyVal (F : Type*) where
  | null
  | bool (value : Bool)
  | uint (value : UInt64)
  | sint (value : Int64)
  | real (value : F)
  | str (text : Text)
  | arr (items : List (YyVal F))
  | obj (members : List (Text × YyVal F))

/-- The double that a number is turned into.  Both readers round to the nearest one; where
there is none, `yyjson` refuses the text. -/
structure Doubles (F : Type*) where
  yyjson : Bytes → Option F
  python : Bytes → F
  agree : ∀ literal value, yyjson literal = some value → python literal = value

variable {F : Type*} (doubles : Doubles F)

/-! ## `yyjson` -/

/-- A number is an integer where its text is one and 64 bits are enough. -/
def readNum (literal : Bytes) : Option (YyVal F) :=
  if isIntegerLiteral literal then
    if literal.head? = some 0x2d then
      if -(2 ^ 63) ≤ integerOf literal then some (.sint (Int64.ofInt (integerOf literal)))
      else (doubles.yyjson literal).map .real
    else if integerOf literal < 2 ^ 64 then some (.uint (UInt64.ofInt (integerOf literal)))
    else (doubles.yyjson literal).map .real
  else (doubles.yyjson literal).map .real

mutual

/-- The text of a string has to be UTF-8, and half a surrogate pair is none. -/
def yyVal : Document → Option (YyVal F)
  | .null => some .null
  | .bool value => some (.bool value)
  | .number literal => readNum doubles literal
  | .string text => if text.utf8.isSome then some (.str text) else none
  | .array items => (yyItems items).map .arr
  | .object members => (yyMembers members).map .obj

def yyItems : List Document → Option (List (YyVal F))
  | [] => some []
  | item :: items => do
    let val ← yyVal item
    let vals ← yyItems items
    some (val :: vals)

def yyMembers : List (Text × Document) → Option (List (Text × YyVal F))
  | [] => some []
  | (name, value) :: members => do
    let val ← yyVal value
    let vals ← yyMembers members
    if name.utf8.isSome then some ((name, val) :: vals) else none

end

def yyjsonReadOpts (data : Bytes) : Option (YyVal F) := (parseDocument data).bind (yyVal doubles)

/-! ## Python objects -/

/-- A dictionary with strings for keys. -/
def pyDict (dict : List (Text × PyValue F)) : PyValue F :=
  .dict (dict.map fun item => (.str item.1, item.2))

mutual

def valToPyobject : YyVal F → PyValue F
  | .null => .none
  | .bool value => .bool value
  | .uint value => .int value.toNat
  | .sint value => .int value.toInt
  | .real value => .float value
  | .str text => .str text
  | .arr items => .list (itemsToPyobject items)
  | .obj members => pyDict (Dict.ofList (membersToPyobject members)).items

def itemsToPyobject : List (YyVal F) → List (PyValue F)
  | [] => []
  | item :: items => valToPyobject item :: itemsToPyobject items

def membersToPyobject : List (Text × YyVal F) → List (Text × PyValue F)
  | [] => []
  | (name, value) :: members => (name, valToPyobject value) :: membersToPyobject members

end

/-- What `yyjson_parse_to_pyobject` raises.  A syntax error carries the position and the
message of `yyjson`. -/
inductive ParseError where
  | empty (message : Bytes)
  | syntaxError

def yyjsonParseToPyobject (data : Bytes) : Except ParseError (PyValue F) :=
  if data = [] then .error (.empty (ascii "Empty JSON input"))
  else
    match yyjsonReadOpts doubles data with
    | none => .error .syntaxError
    | some root => .ok (valToPyobject root)

/-! ## `json.loads` -/

mutual

/-- Integers are exact, and an object is the dictionary of its pairs. -/
def loads : Document → PyValue F
  | .null => .none
  | .bool value => .bool value
  | .number literal =>
    if isIntegerLiteral literal then .int (integerOf literal) else .float (doubles.python literal)
  | .string text => .str text
  | .array items => .list (loadsItems items)
  | .object members => pyDict (Dict.lastOfEach (loadsMembers members))

def loadsItems : List Document → List (PyValue F)
  | [] => []
  | item :: items => loads item :: loadsItems items

def loadsMembers : List (Text × Document) → List (Text × PyValue F)
  | [] => []
  | (name, value) :: members => (name, loads value) :: loadsMembers members

end

/-- `json.loads`, in an interpreter without a limit on recursion. -/
def jsonLoads (text : Bytes) : Option (PyValue F) := (parseDocument text).map (loads doubles)

/-! ## The numbers of a value -/

mutual

/-- The numbers of a document, without those of a member that a later one replaces. -/
def numbers : Document → List Bytes
  | .number literal => [literal]
  | .array items => itemNumbers items
  | .object members => (Dict.lastOfEach (memberNumbers members)).flatMap Prod.snd
  | _ => []

def itemNumbers : List Document → List Bytes
  | [] => []
  | item :: items => numbers item ++ itemNumbers items

def memberNumbers : List (Text × Document) → List (Text × List Bytes)
  | [] => []
  | (name, value) :: members => (name, numbers value) :: memberNumbers members

end

/-- An integer that a machine word holds, signed or not. -/
def Fits (value : ℤ) : Prop := -(2 ^ 63) ≤ value ∧ value < 2 ^ 64

instance (value : ℤ) : Decidable (Fits value) := inferInstanceAs (Decidable (_ ∧ _))

/-- Every integer among the numbers fits in 64 bits. -/
def AllFit (literals : List Bytes) : Prop :=
  ∀ literal ∈ literals, isIntegerLiteral literal = true → Fits (integerOf literal)

/-! ## Numbers -/

theorem integerOf_nonpos {literal : Bytes} (h : literal.head? = some 0x2d) :
    integerOf literal ≤ 0 := by
  rw [integerOf, if_pos h]
  omega

theorem integerOf_nonneg {literal : Bytes} (h : literal.head? ≠ some 0x2d) :
    0 ≤ integerOf literal := by
  rw [integerOf, if_neg h]
  omega

/-- A machine word holds an integer, and the number is that integer. -/
theorem readNum_of_fits {literal : Bytes} (hinteger : isIntegerLiteral literal = true)
    (hfits : Fits (integerOf literal)) :
    ∃ val, readNum doubles literal = some val ∧ valToPyobject val = .int (integerOf literal) := by
  rw [readNum, if_pos hinteger]
  by_cases hsign : literal.head? = some 0x2d
  · rw [if_pos hsign, if_pos hfits.1]
    have hsmall := integerOf_nonpos hsign
    refine ⟨_, rfl, ?_⟩
    rw [valToPyobject, Int64.toInt_ofInt_of_le hfits.1 (by omega)]
  · rw [if_neg hsign, if_pos hfits.2]
    have hsmall := integerOf_nonneg hsign
    have hlarge := hfits.2
    have hnat : ((UInt64.ofInt (integerOf literal)).toNat : ℤ) = integerOf literal := by
      rw [UInt64.ofInt, UInt64.toNat_ofNat']
      omega
    exact ⟨_, rfl, congrArg _ hnat⟩

/-- Any other number is a float. -/
theorem readNum_of_not_fits {literal : Bytes}
    (h : ¬ (isIntegerLiteral literal = true ∧ Fits (integerOf literal))) :
    readNum doubles literal = (doubles.yyjson literal).map .real := by
  rw [readNum]
  split
  · next hinteger =>
    have hfits : ¬ Fits (integerOf literal) := fun hfits => h ⟨hinteger, hfits⟩
    split
    · next hsign =>
      have hsmall := integerOf_nonpos hsign
      rw [if_neg fun hle => hfits ⟨hle, by omega⟩]
    · next hsign =>
      have hsmall := integerOf_nonneg hsign
      rw [if_neg fun hlt => hfits ⟨by omega, hlt⟩]
  · rfl

theorem valToPyobject_readNum {literal : Bytes} {val : YyVal F}
    (h : readNum doubles literal = some val) :
    valToPyobject val = loads doubles (.number literal) ↔ AllFit [literal] := by
  rw [AllFit, forall_mem_singleton, loads]
  by_cases hexact : isIntegerLiteral literal = true ∧ Fits (integerOf literal)
  · obtain ⟨found, hread, hvalue⟩ := readNum_of_fits _ hexact.1 hexact.2
    rw [h] at hread
    cases hread
    rw [hvalue, if_pos hexact.1]
    exact iff_of_true rfl fun _ => hexact.2
  · rw [readNum_of_not_fits _ hexact] at h
    obtain ⟨value, hdouble, rfl⟩ := Option.map_eq_some_iff.mp h
    by_cases hinteger : isIntegerLiteral literal = true
    · rw [if_pos hinteger]
      exact iff_of_false (fun heq => nomatch heq) fun hfits => hexact ⟨hinteger, hfits hinteger⟩
    · rw [if_neg hinteger, doubles.agree _ _ hdouble]
      exact iff_of_true rfl fun h => absurd h hinteger

/-! ## Lists and objects -/

theorem allFit_append {left right : List Bytes} :
    AllFit (left ++ right) ↔ AllFit left ∧ AllFit right := by
  rw [AllFit, AllFit, AllFit, forall_mem_append]

theorem loadsItems_eq (items : List Document) : loadsItems doubles items = items.map (loads doubles) := by
  induction items with
  | nil => rfl
  | cons item items ih => rw [loadsItems, ih, map_cons]

theorem loadsMembers_eq (members : List (Text × Document)) :
    loadsMembers doubles members = members.map (Prod.map id (loads doubles)) := by
  induction members with
  | nil => rfl
  | cons member members ih =>
    rw [loadsMembers, ih, map_cons]
    rfl

theorem memberNumbers_eq (members : List (Text × Document)) :
    memberNumbers members = members.map (Prod.map id numbers) := by
  induction members with
  | nil => rfl
  | cons member members ih =>
    rw [memberNumbers, ih, map_cons]
    rfl

theorem allFit_itemNumbers {items : List Document} :
    AllFit (itemNumbers items) ↔ ∀ item ∈ items, AllFit (numbers item) := by
  induction items with
  | nil => exact iff_of_true (forall_mem_nil _) (forall_mem_nil _)
  | cons item items ih => rw [itemNumbers, allFit_append, ih, forall_mem_cons]

theorem allFit_numbers_object {members : List (Text × Document)} :
    AllFit (numbers (.object members)) ↔
      ∀ member ∈ Dict.lastOfEach members, AllFit (numbers member.2) := by
  rw [numbers, memberNumbers_eq, Dict.lastOfEach_map]
  simp only [AllFit, mem_flatMap, mem_map]
  constructor
  · intro h member hmem literal hliteral
    exact h _ ⟨_, ⟨member, hmem, rfl⟩, hliteral⟩
  · rintro h literal ⟨_, ⟨member, hmem, rfl⟩, hliteral⟩
    exact h _ hmem _ hliteral

/-- Values that agree one by one, each under its own condition. -/
theorem eq_map_iff {α β : Type*} {f : β → α} {condition : β → Prop} {values : List α}
    {sources : List β}
    (h : List.Forall₂ (fun value source => value = f source ↔ condition source) values sources) :
    values = sources.map f ↔ ∀ source ∈ sources, condition source := by
  induction h with
  | nil => exact iff_of_true rfl (forall_mem_nil _)
  | cons hvalue _ ih => rw [map_cons, List.cons.injEq, hvalue, ih, forall_mem_cons]

theorem pyDict_injective : Function.Injective (pyDict (F := F)) := by
  intro left right h
  have hitems := PyValue.dict.inj h
  refine map_injective_iff.mpr ?_ hitems
  intro leftItem rightItem heq
  obtain ⟨hkey, hvalue⟩ := Prod.mk.inj heq
  exact Prod.ext (Key.str.inj hkey) hvalue

/-! ## The reader and `json.loads` -/

/-- The reader and `json.loads` agree on a value exactly when its numbers fit. -/
def Decoded (value : PyValue F) (document : Document) : Prop :=
  value = loads doubles document ↔ AllFit (numbers document)

mutual

theorem decoded_yyVal {document : Document} {val : YyVal F} (h : yyVal doubles document = some val) :
    Decoded doubles (valToPyobject val) document := by
  cases document with
  | null =>
    cases h
    exact iff_of_true rfl (forall_mem_nil _)
  | bool value =>
    cases h
    exact iff_of_true rfl (forall_mem_nil _)
  | number literal => exact valToPyobject_readNum doubles h
  | string text =>
    rw [yyVal] at h
    split at h
    · cases h
      exact iff_of_true rfl (forall_mem_nil _)
    · cases h
  | array items =>
    obtain ⟨vals, hvals, rfl⟩ := Option.map_eq_some_iff.mp h
    rw [Decoded, valToPyobject, loads, PyValue.list.injEq, loadsItems_eq,
      eq_map_iff (decoded_yyItems hvals), numbers, allFit_itemNumbers]
  | object members =>
    obtain ⟨vals, hvals, rfl⟩ := Option.map_eq_some_iff.mp h
    rw [Decoded, valToPyobject, loads, pyDict_injective.eq_iff, Dict.items_ofList, loadsMembers_eq,
      Dict.lastOfEach_map, allFit_numbers_object]
    refine eq_map_iff ((Dict.lastOfEach_forall₂ (decoded_yyMembers hvals)).imp ?_)
    rintro ⟨name, value⟩ ⟨_, source⟩ ⟨rfl, hvalue⟩
    refine Iff.trans ?_ hvalue
    rw [Prod.map, Prod.mk.injEq]
    exact and_iff_right rfl

theorem decoded_yyItems {items : List Document} {vals : List (YyVal F)}
    (h : yyItems doubles items = some vals) :
    List.Forall₂ (Decoded doubles) (itemsToPyobject vals) items := by
  cases items with
  | nil =>
    cases h
    exact .nil
  | cons item items =>
    simp only [yyItems, Option.bind_eq_bind, Option.bind_eq_some_iff] at h
    obtain ⟨val, hval, vals, hvals, heq⟩ := h
    cases heq
    exact .cons (decoded_yyVal hval) (decoded_yyItems hvals)

theorem decoded_yyMembers {members : List (Text × Document)} {vals : List (Text × YyVal F)}
    (h : yyMembers doubles members = some vals) :
    List.Forall₂ (Dict.Paired (Decoded doubles)) (membersToPyobject vals) members := by
  match members with
  | [] =>
    cases h
    exact .nil
  | (name, value) :: members =>
    simp only [yyMembers, Option.bind_eq_bind, Option.bind_eq_some_iff] at h
    obtain ⟨val, hval, vals, hvals, heq⟩ := h
    split at heq
    · cases heq
      exact .cons ⟨rfl, decoded_yyVal hval⟩ (decoded_yyMembers hvals)
    · cases heq

end

end AstraApi.JsonParser
