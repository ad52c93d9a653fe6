import AstraApi.Lib.Text

/-!
# Fast validation of parameters

When every parameter of a route is a string, an integer, a float or a truth value, or a
list of these, or optional, `_make_param_validator` makes a validator that calls `int`
and `float` itself.  It looks at the outermost type of a parameter only.
-/

namespace AstraApi.ParamValidator

open List

/-! ## Schemas and values -/

inductive ScalarType where
  | str
  | int
  | float
  | bool
  deriving DecidableEq

/-- A core schema; a scalar has further keys.  A parameter with a default has the type
`default`, which is among the others. -/
inductive CoreSchema where
  | scalar (type : ScalarType) (keys : List String)
  | nullable (schema : CoreSchema)
  | list (itemsSchema : CoreSchema)
  | other

def constraintKeys : List String :=
  ["min_length", "max_length", "pattern", "ge", "le", "gt", "lt", "multiple_of", "strict",
    "coerce_float_to_int", "max_digits", "decimal_places", "union_mode"]

def isTrivialSchema : CoreSchema → Bool
  | .scalar _ keys => keys.all (· ∉ constraintKeys)
  | .nullable schema => isTrivialSchema schema
  | .list itemsSchema => isTrivialSchema itemsSchema
  | .other => false

/-- Python values; `F` is the type of floats. -/
inductive Value (F : Type*) where
  | none
  | bool (value : Bool)
  | int (value : ℤ)
  | float (value : F)
  | str (text : Text)
  | list (items : List (Value F))
  | object (id : ℕ)

inductive Conforms {F : Type*} : CoreSchema → Value F → Prop where
  | str {keys text} : Conforms (.scalar .str keys) (.str text)
  | int {keys value} : Conforms (.scalar .int keys) (.int value)
  | float {keys value} : Conforms (.scalar .float keys) (.float value)
  | bool {keys value} : Conforms (.scalar .bool keys) (.bool value)
  | absent {schema} : Conforms (.nullable schema) .none
  | present {schema value} (h : Conforms schema value) : Conforms (.nullable schema) value
  | list {schema items} (h : ∀ item ∈ items, Conforms schema item) :
      Conforms (.list schema) (.list items)

/-- What the core puts into the dictionary for a key of the request: a string, or a list
of strings when the key is repeated. -/
inductive Raw where
  | single (text : Text)
  | repeated (texts : List Text)

def Raw.value {F : Type*} : Raw → Value F
  | .single text => .str text
  | .repeated texts => .list (texts.map .str)

abbrev Kwargs := Text → Option Raw

/-! ## The validator -/

inductive Location where
  | query
  | header
  | cookie
  | path
  deriving DecidableEq

/-- A parameter as `_param_type_info` has it; the default is used if it is not required. -/
structure Param (F : Type*) where
  loc : Location
  aliasName : Text
  name : Text
  required : Bool
  default : Value F
  schema : CoreSchema

/-- `int`, `float`, `str` and `str.lower` of the interpreter; the first two refuse a text
with a `ValueError`. -/
structure Builtins (F : Type*) where
  int : Text → Option ℤ
  float : Text → Option F
  str : Raw → Text
  lower : Text → Text

structure ErrorEntry where
  type : String
  loc : Location × Text
  msg : String
  input : Option Text
  deriving DecidableEq

section Validator

variable {F : Type*}

/-- Queries and cookies are looked up by name first, the others by alias. -/
def Param.lookup (param : Param F) (kwargs : Kwargs) : Option Raw :=
  if param.loc = .query ∨ param.loc = .cookie then
    (kwargs param.name).or
      (if param.aliasName ≠ param.name then kwargs param.aliasName else none)
  else
    (kwargs param.aliasName).or
      (if param.aliasName ≠ param.name then kwargs param.name else none)

def trueWords : List Text := ["true", "1", "yes", "on"].map plainText

def falseWords : List Text := ["false", "0", "no", "off"].map plainText

def Param.missing (param : Param F) : ErrorEntry where
  type := "missing"
  loc := (param.loc, param.aliasName)
  msg := "Field required"
  input := none

/-- The error of a value that cannot be converted. -/
def Param.unparsed (param : Param F) (type msg : String) (input : Text) : ErrorEntry where
  type := type
  loc := (param.loc, param.aliasName)
  msg := msg
  input := some input

variable (builtins : Builtins F)

def Param.toInt (param : Param F) (raw : Raw) : Except ErrorEntry (Value F) :=
  let parsed :=
    match raw with
    | .single text => builtins.int text
    | .repeated _ => none
  match parsed with
  | some value => .ok (.int value)
  | none => .error (param.unparsed "int_parsing"
      "Input should be a valid integer, unable to parse string as an integer" (builtins.str raw))

def Param.toFloat (param : Param F) (raw : Raw) : Except ErrorEntry (Value F) :=
  let parsed :=
    match raw with
    | .single text => builtins.float text
    | .repeated _ => none
  match parsed with
  | some value => .ok (.float value)
  | none => .error (param.unparsed "float_parsing"
      "Input should be a valid number, unable to parse string as a number" (builtins.str raw))

def Param.toBool (param : Param F) (raw : Raw) : Except ErrorEntry (Value F) :=
  let refused (input : Text) : Except ErrorEntry (Value F) :=
    .error (param.unparsed "bool_parsing"
      "Input should be a valid boolean, unable to interpret input" input)
  match raw with
  | .single text =>
    if builtins.lower text ∈ trueWords then .ok (.bool true)
    else if builtins.lower text ∈ falseWords then .ok (.bool false)
    else refused text
  | .repeated _ => refused (builtins.str raw)

/-- A value that is there; the outermost type of the schema decides. -/
def Param.coerce (param : Param F) (raw : Raw) : Except ErrorEntry (Value F) :=
  match param.schema with
  | .scalar .int _ => param.toInt builtins raw
  | .scalar .float _ => param.toFloat builtins raw
  | .scalar .bool _ => param.toBool builtins raw
  | _ => .ok raw.value

/-- One round of `_fast_validate`. -/
def Param.validate (kwargs : Kwargs) (param : Param F) : Except ErrorEntry (Value F) :=
  match param.lookup kwargs with
  | none => if param.required then .error param.missing else .ok param.default
  | some raw => param.coerce builtins raw

structure Validated (F : Type*) where
  values : Text → Option (Value F) := fun _ => none
  errors : List ErrorEntry := []

def validateStep (kwargs : Kwargs) (validated : Validated F) (param : Param F) : Validated F :=
  match param.validate builtins kwargs with
  | .ok value =>
    { validated with values := Function.update validated.values param.name (some value) }
  | .error entry => { validated with errors := validated.errors ++ [entry] }

def fastValidate (params : List (Param F)) (kwargs : Kwargs) : Validated F :=
  params.foldl (validateStep builtins kwargs) {}

/-! ## What is stored for a parameter -/

variable {builtins} {kwargs : Kwargs}

theorem fastValidate_append (params : List (Param F)) (param : Param F) :
    fastValidate builtins (params ++ [param]) kwargs =
      validateStep builtins kwargs (fastValidate builtins params kwargs) param := by
  rw [fastValidate, foldl_append]
  rfl

theorem values_of_notMem {params : List (Param F)} {name : Text}
    (h : name ∉ params.map Param.name) :
    (fastValidate builtins params kwargs).values name = none := by
  induction params using List.reverseRecOn with
  | nil => rfl
  | append_singleton params last ih =>
    rw [map_append, mem_append, not_or] at h
    have hname : name ≠ last.name := fun heq => h.2 (by simp [heq])
    rw [fastValidate_append, validateStep]
    split
    · exact (Function.update_of_ne hname _ _).trans (ih h.1)
    · exact ih h.1

/-- With different names each parameter has what its own round gave. -/
theorem values_of_mem {params : List (Param F)} (hnodup : (params.map Param.name).Nodup)
    {param : Param F} (hmem : param ∈ params) :
    (fastValidate builtins params kwargs).values param.name =
      (param.validate builtins kwargs).toOption := by
  induction params using List.reverseRecOn with
  | nil => simp at hmem
  | append_singleton params last ih =>
    rw [map_append, nodup_append] at hnodup
    obtain ⟨hbefore, -, hlast⟩ := hnodup
    rw [fastValidate_append, validateStep]
    rcases mem_append.mp hmem with hmem | hmem
    · have hname : param.name ≠ last.name :=
        hlast _ (mem_map_of_mem hmem) _ (by simp)
      split
      · exact (Function.update_of_ne hname _ _).trans (ih hbefore hmem)
      · exact ih hbefore hmem
    · rw [mem_singleton.mp hmem]
      have hnone : (fastValidate builtins params kwargs).values last.name = none :=
        values_of_notMem fun hin => hlast _ hin _ (by simp) rfl
      cases hround : last.validate builtins kwargs with
      | ok value => exact Function.update_self ..
      | error entry => exact hnone

theorem mem_errors {params : List (Param F)} {entry : ErrorEntry} :
    entry ∈ (fastValidate builtins params kwargs).errors ↔
      ∃ param ∈ params, param.validate builtins kwargs = .error entry := by
  induction params using List.reverseRecOn with
  | nil => simp [fastValidate]
  | append_singleton params last ih =>
    rw [fastValidate_append, validateStep]
    cases hround : last.validate builtins kwargs with
    | ok value => simp [ih, hround]
    | error entry' => simp [ih, hround, eq_comm]

end Validator

/-! ## Soundness -/

/-- The parameters of a route with a fast validator.  A signature has no name twice. -/
structure FastParams (F : Type*) where
  params : List (Param F)
  trivial : ∀ param ∈ params, isTrivialSchema param.schema = true
  names : (params.map Param.name).Nodup

/-- What the endpoint may rely on for a parameter: there is an error, or the default of an
absent value, or a value that conforms to the schema. -/
def Sound {F : Type*} (kwargs : Kwargs) (validated : Validated F) (param : Param F) : Prop :=
  (∃ entry ∈ validated.errors, entry.loc = (param.loc, param.aliasName) ∧
      validated.values param.name = none) ∨
    (param.lookup kwargs = none ∧ validated.values param.name = some param.default) ∨
    ∃ value, validated.values param.name = some value ∧ Conforms param.schema value

def CoreSchema.converted : CoreSchema → Bool
  | .scalar .int _ => true
  | .scalar .float _ => true
  | .scalar .bool _ => true
  | _ => false

/-- The strings of the request will do as they are: a string for `str`, or a list for a
list of what they will do for. -/
def CoreSchema.takes : CoreSchema → Raw → Bool
  | .scalar .str _, .single _ => true
  | .nullable schema, raw => schema.takes raw
  | .list itemsSchema, .repeated texts => texts.all fun text => itemsSchema.takes (.single text)
  | _, _ => false

section Soundness

variable {F : Type*}

theorem raw_ne_none (raw : Raw) : raw.value (F := F) ≠ .none := by
  cases raw <;> exact fun h => nomatch h

theorem takes_iff (schema : CoreSchema) (raw : Raw) :
    schema.takes raw = true ↔ Conforms schema (raw.value (F := F)) := by
  induction schema generalizing raw with
  | scalar type keys =>
    constructor
    · intro h
      cases type <;> cases raw <;> first | exact .str | simp [CoreSchema.takes] at h
    · intro h
      cases raw <;> cases h
      rfl
  | nullable schema ih =>
    rw [CoreSchema.takes, ih]
    constructor
    · exact .present
    · intro h
      generalize hvalue : raw.value (F := F) = value at h
      cases h with
      | absent => exact absurd hvalue (raw_ne_none _)
      | present h => exact h
  | list itemsSchema ih =>
    cases raw with
    | single text =>
      constructor
      · intro h
        simp [CoreSchema.takes] at h
      · intro h
        cases h
    | repeated texts =>
      have hitems : (CoreSchema.list itemsSchema).takes (.repeated texts) = true ↔
          ∀ item ∈ texts.map (Value.str (F := F)), Conforms itemsSchema item := by
        rw [CoreSchema.takes, all_eq_true, forall_mem_map]
        exact forall₂_congr fun text _ => ih _
      rw [hitems]
      constructor
      · exact .list
      · intro h
        cases h with
        | list h => exact h
  | other =>
    constructor
    · intro h
      cases raw <;> simp [CoreSchema.takes] at h
    · intro h
      cases h

variable (builtins : Builtins F) {kwargs : Kwargs} {param : Param F}

/-- A conversion gives a value of its type or an error about its parameter. -/
def Converts (param : Param F) (result : Except ErrorEntry (Value F)) : Prop :=
  (∃ value, result = .ok value ∧ Conforms param.schema value) ∨
    ∃ entry, result = .error entry ∧ entry.loc = (param.loc, param.aliasName)

theorem toInt_converts {keys : List String} (h : param.schema = .scalar .int keys) (raw : Raw) :
    Converts param (param.toInt builtins raw) := by
  cases raw with
  | single text =>
    rw [Param.toInt]
    split
    · exact .inl ⟨_, rfl, h ▸ .int⟩
    · exact .inr ⟨_, rfl, rfl⟩
  | repeated texts => exact .inr ⟨_, rfl, rfl⟩

theorem toFloat_converts {keys : List String} (h : param.schema = .scalar .float keys)
    (raw : Raw) : Converts param (param.toFloat builtins raw) := by
  cases raw with
  | single text =>
    rw [Param.toFloat]
    split
    · exact .inl ⟨_, rfl, h ▸ .float⟩
    · exact .inr ⟨_, rfl, rfl⟩
  | repeated texts => exact .inr ⟨_, rfl, rfl⟩

theorem toBool_converts {keys : List String} (h : param.schema = .scalar .bool keys) (raw : Raw) :
    Converts param (param.toBool builtins raw) := by
  cases raw with
  | single text =>
    rw [Param.toBool]
    split
    · exact .inl ⟨_, rfl, h ▸ .bool⟩
    · split
      · exact .inl ⟨_, rfl, h ▸ .bool⟩
      · exact .inr ⟨_, rfl, rfl⟩
  | repeated texts => exact .inr ⟨_, rfl, rfl⟩

theorem coerce_converts (hconverted : param.schema.converted = true) (raw : Raw) :
    Converts param (param.coerce builtins raw) := by
  rw [Param.coerce]
  cases hschema : param.schema with
  | scalar type keys =>
    cases type with
    | str => simp [hschema, CoreSchema.converted] at hconverted
    | int => exact toInt_converts _ hschema _
    | float => exact toFloat_converts _ hschema _
    | bool => exact toBool_converts _ hschema _
  | nullable schema | list schema => simp [hschema, CoreSchema.converted] at hconverted
  | other => simp [hschema, CoreSchema.converted] at hconverted

/-- Other values are stored as they are. -/
theorem coerce_of_not_converted (raw : Raw) (h : param.schema.converted = false) :
    param.coerce builtins raw = .ok raw.value := by
  rw [Param.coerce]
  cases hschema : param.schema with
  | scalar type keys => cases type <;> simp_all [CoreSchema.converted]
  | _ => rfl

/-- Validation is sound exactly when each value that is there is converted by its
outermost type, or will do as it is. -/
theorem fastValidate_sound_iff (route : FastParams F) (kwargs : Kwargs) :
    (∀ param ∈ route.params, Sound kwargs (fastValidate builtins route.params kwargs) param) ↔
      ∀ param ∈ route.params, ∀ raw, param.lookup kwargs = some raw →
        param.schema.converted = true ∨ param.schema.takes raw = true := by
  apply forall₂_congr
  intro param hmem
  have hvalues : (fastValidate builtins route.params kwargs).values param.name =
      (param.validate builtins kwargs).toOption := values_of_mem route.names hmem
  cases hlookup : param.lookup kwargs with
  | none =>
    have hround : param.validate builtins kwargs =
        if param.required then .error param.missing else .ok param.default := by
      rw [Param.validate, hlookup]
    have hsound : Sound kwargs (fastValidate builtins route.params kwargs) param := by
      cases hrequired : param.required with
      | true =>
        rw [hrequired, if_pos rfl] at hround
        exact .inl ⟨_, mem_errors.mpr ⟨param, hmem, hround⟩, rfl, hvalues.trans (congrArg _ hround)⟩
      | false =>
        rw [hrequired, if_neg Bool.false_ne_true] at hround
        exact .inr (.inl ⟨hlookup, hvalues.trans (congrArg _ hround)⟩)
    simp [hsound]
  | some raw =>
    have hround : param.validate builtins kwargs = param.coerce builtins raw := by
      rw [Param.validate, hlookup]
    simp only [Option.some.injEq, forall_eq']
    cases hconverted : param.schema.converted with
    | true =>
      have hsound : Sound kwargs (fastValidate builtins route.params kwargs) param := by
        rcases coerce_converts builtins hconverted raw with
          ⟨value, hvalue, hconforms⟩ | ⟨entry, hentry, hloc⟩
        · exact .inr (.inr ⟨value, hvalues.trans (congrArg _ (hround.trans hvalue)), hconforms⟩)
        · exact .inl ⟨entry, mem_errors.mpr ⟨param, hmem, hround.trans hentry⟩, hloc,
            hvalues.trans (congrArg _ (hround.trans hentry))⟩
      simp [hsound]
    | false =>
      rw [hround, coerce_of_not_converted _ _ hconverted] at hvalues
      rw [takes_iff (F := F), Sound, hlookup, hvalues]
      simp [Except.toOption]

/-- A required parameter of type `Optional[int]`. -/
def optionalLimit : FastParams Empty where
  params := [{
    loc := .query
    aliasName := plainText "limit"
    name := plainText "limit"
    required := true
    default := .none
    schema := .nullable (.scalar .int []) }]
  trivial := by
    simp [isTrivialSchema]
  names := by
    simp

def fiveBuiltins : Builtins Empty where
  int := fun text => if text = plainText "5" then some 5 else none
  float := fun _ => none
  str := fun _ => plainText "5"
  lower := id

/-- The endpoint gets the string in place of an integer. -/
theorem optionalLimit_not_sound : ¬ ∀ (builtins : Builtins Empty) (route : FastParams Empty)
    (kwargs : Kwargs), ∀ param ∈ route.params,
      Sound kwargs (fastValidate builtins route.params kwargs) param := by
  intro h
  have hsound := h fiveBuiltins optionalLimit (fun _ => some (.single (plainText "5"))) _
    mem_cons_self
  rcases hsound with ⟨entry, hentry, -⟩ | ⟨hlookup, -⟩ | ⟨value, hvalue, hconforms⟩
  · exact absurd hentry not_mem_nil
  · exact nomatch hlookup
  · have hstored : (fastValidate fiveBuiltins optionalLimit.params
        (fun _ => some (.single (plainText "5")))).values (plainText "limit") =
          some (.str (plainText "5")) := by
      rfl
    cases hstored.symm.trans hvalue
    cases hconforms with
    | present h => cases h

end Soundness

end AstraApi.ParamValidator
