import AstraApi.Deps.Node
import AstraApi.Lib.Bytes

/-!
# Requests and their keyword arguments

For each request the dispatcher fills one dictionary.  Declared parameters,
fields of the body and the framework's own values share it; the latter have
reserved names.  This module has the body step of `dispatch_one_request`, which
copies fields under names the client chooses, and the reserved names.
-/

namespace AstraApi.Dispatch

open List
open Deps (Name Kwargs)

/-! ## Values -/

inductive Json where
  | null
  | bool (value : Bool)
  | number (value : ℚ)
  | string (value : String)
  | array (items : List Json)
  | object (members : List (String × Json))

structure Upload where
  filename : String
  contentType : String
  data : Bytes

/-- Python values as the dispatcher and the shims tell them apart. -/
inductive Value where
  | none
  | bool (value : Bool)
  | number (value : ℚ)
  | text (value : String)
  | bytes (data : Bytes)
  | list (items : List Value)
  | dict (items : List (String × Value))
  | upload (file : Upload)
  | headers (pairs : List (Bytes × Bytes))
  | backgroundTasks (id : ℕ)
  | object (id : ℕ)

def Value.isNone : Value → Bool
  | .none => true
  | _ => false

def Value.isBytes : Value → Bool
  | .bytes _ => true
  | _ => false

def Value.truthy : Value → Bool
  | .none => false
  | .bool value => value
  | .number value => value ≠ 0
  | .text value => value ≠ ""
  | .bytes data => data ≠ []
  | .list items => !items.isEmpty
  | .dict items => !items.isEmpty
  | .headers pairs => pairs ≠ []
  | .upload _ | .backgroundTasks _ | .object _ => true

def Value.hasTasks : Value → Bool
  | .backgroundTasks _ => true
  | _ => false

mutual

/-- `val_to_pyobject`. -/
def Json.toValue : Json → Value
  | .null => .none
  | .bool value => .bool value
  | .number value => .number value
  | .string value => .text value
  | .array items => .list (toValues items)
  | .object members => .dict (toItems members)

def toValues : List Json → List Value
  | [] => []
  | item :: items => item.toValue :: toValues items

def toItems : List (String × Json) → List (String × Value)
  | [] => []
  | (name, value) :: members => (name, value.toValue) :: toItems members

end

theorem Json.toValue_isBytes (value : Json) : value.toValue.isBytes = false := by
  cases value <;> simp [Json.toValue, Value.isBytes]

/-! ## Reserved names -/

def rawHeadersKey : Name := "__raw_headers__"
def methodKey : Name := "__method__"
def pathKey : Name := "__path__"
def authSchemeKey : Name := "__auth_scheme__"
def authCredentialsKey : Name := "__auth_credentials__"
def bodyKey : Name := "__body__"
def contentTypeKey : Name := "__content_type__"
def depsRanKey : Name := "__deps_ran__"
def genDepsRanKey : Name := "__gen_deps_ran__"
def bgTasksKey : Name := "__bg_tasks__"
def exitStackKey : Name := "__exit_stack__"

def authKeys : List Name := [authSchemeKey, authCredentialsKey]

/-- What a dependency solver takes from the dictionary besides its parameters. -/
def solverKeys : List Name :=
  [rawHeadersKey, authSchemeKey, authCredentialsKey, bodyKey, bgTasksKey]

/-- What the response shim takes from the dictionary and does not discard. -/
def shimKeys : List Name :=
  [depsRanKey, genDepsRanKey, bgTasksKey, exitStackKey, rawHeadersKey, bodyKey]

/-- The flags from which the response shim decides whether the solver has run. -/
def flagKeys : List Name := [depsRanKey, bgTasksKey, genDepsRanKey]

def internalKeys : List Name :=
  [depsRanKey, genDepsRanKey, bgTasksKey, exitStackKey, rawHeadersKey, authSchemeKey,
    authCredentialsKey, bodyKey]

theorem flagKeys_shim : ∀ name ∈ flagKeys, name ∈ shimKeys := by
  decide

theorem authKeys_internal : ∀ name ∈ authKeys, name ∈ internalKeys := by
  decide

/-! ## Bodies -/

inductive Payload where
  /-- No body, or one that no parser is selected for. -/
  | absent
  | multipart (boundary : Bool) (fields : List (Name × String)) (files : List (Name × Upload))
  | urlencoded (pairs : List (Name × String))
  | json (value : Json)
  /-- Malformed JSON, or a content type that is none of these. -/
  | unreadable

structure Request where
  method : String
  path : String
  headers : List (Bytes × Bytes)
  contentType : String
  authorization : String
  body : Bytes
  payload : Payload

/-- How a route is registered. -/
inductive Kind where
  /-- A form route; its fields may be embedded. -/
  | form (embed : Bool)
  /-- A fast-path route.  `light` routes get the shim that only drops the
  reserved names. -/
  | fast (bodyParams embed light : Bool) (bodyParamName : Option Name)
  | slow
  /-- A member of a group of routes with the same path. -/
  | grouped
  /-- A subclass of `APIRoute`. -/
  | custom

structure Route where
  kind : Kind
  /-- The parameters of the route and of its dependencies. -/
  declared : List Name
  /-- The endpoint takes `BackgroundTasks`. -/
  bgParam : Bool := false
  /-- The endpoint takes the request. -/
  requestParam : Bool := false

/-! ## Filling the dictionary -/

/-- Enter values one by one; `combine` sees the value that is already there. -/
def collect (combine : Option Value → Value → Value) (entries : List (Name × Value))
    (kwargs : Kwargs Value) : Kwargs Value :=
  entries.foldl (fun kwargs entry => kwargs.set entry.1 (combine (kwargs entry.1) entry.2)) kwargs

def overwrite (_ : Option Value) (value : Value) : Value := value

/-- A second value turns an entry into a list. -/
def promote : Option Value → Value → Value
  | none, value => value
  | some (.list items), value => .list (items ++ [value])
  | some existing, value => .list [existing, value]

def textEntries (fields : List (Name × String)) : List (Name × Value) :=
  fields.map fun field => (field.1, .text field.2)

def uploadEntries (files : List (Name × Upload)) : List (Name × Value) :=
  files.map fun file => (file.1, .upload file.2)

def jsonEntries (members : List (Name × Json)) : List (Name × Value) :=
  members.map fun member => (member.1, member.2.toValue)

def buildKwargs (fields : List (Name × String)) (files : List (Name × Upload))
    (kwargs : Kwargs Value) : Kwargs Value :=
  collect promote (uploadEntries files) (collect overwrite (textEntries fields) kwargs)

/-- The dictionary of an urlencoded body. -/
def formDict (pairs : List (Name × String)) : Kwargs Value :=
  collect promote (textEntries pairs) Kwargs.empty

/-- The body step; `none` when the request is answered with an error. -/
def bodyStep : Kind → Payload → Kwargs Value → Option (Kwargs Value)
  | .form _, .multipart true fields files, kwargs => some (buildKwargs fields files kwargs)
  | .form embed, .urlencoded pairs, kwargs =>
    -- embedded fields replace what is there, and a solver gets the others too
    let kwargs := if embed then kwargs.update (formDict pairs) else kwargs
    some ((formDict pairs).update kwargs)
  | .fast true embed _ bodyParamName, payload, kwargs =>
    match payload with
    | .absent => some kwargs
    | .json value =>
      match embed, value, bodyParamName with
      | true, .object members, _ => some (collect overwrite (jsonEntries members) kwargs)
      | true, _, _ => some kwargs
      | false, .null, _ => some kwargs
      | false, value, some name => some (kwargs.set name value.toValue)
      | false, _, none => some kwargs
    | _ => none
  | _, _, kwargs => some kwargs

/-- After a multipart body the dispatcher continues at `body_done`, past the
dependency step. -/
def skipsDependencyStep : Kind → Payload → Bool
  | .form _, .multipart .. => true
  | _, _ => false

/-- The payload without the fields of the given names, where fields are copied
under their names. -/
def Payload.without (names : List Name) (kind : Kind) (payload : Payload) : Payload :=
  match kind, payload with
  | .form _, .multipart boundary fields files =>
    .multipart boundary (fields.filter (·.1 ∉ names)) (files.filter (·.1 ∉ names))
  | .form _, .urlencoded pairs => .urlencoded (pairs.filter (·.1 ∉ names))
  | .fast true true _ _, .json (.object members) =>
    .json (.object (members.filter (·.1 ∉ names)))
  | _, payload => payload

def Request.without (names : List Name) (kind : Kind) (request : Request) : Request :=
  { request with payload := request.payload.without names kind }

/-- The names of the body fields that the body step copies. -/
def mergedNames : Kind → Payload → List Name
  | .form _, .multipart true fields files => fields.map Prod.fst ++ files.map Prod.fst
  | .form _, .urlencoded pairs => pairs.map Prod.fst
  | .fast true true _ _, .json (.object members) => members.map Prod.fst
  | _, _ => []

/-! ## What the body step changes -/

section Collect

variable (combine : Option Value → Value → Value) (entries : List (Name × Value))
  (kwargs : Kwargs Value) (name : Name)

/-- Only the entries of a name matter to its value. -/
theorem collect_apply :
    collect combine entries kwargs name =
      (entries.filter (·.1 = name)).foldl (fun old entry => some (combine old entry.2))
        (kwargs name) := by
  induction entries generalizing kwargs with
  | nil => rfl
  | cons entry entries ih =>
    have step : collect combine (entry :: entries) kwargs =
        collect combine entries (kwargs.set entry.1 (combine (kwargs entry.1) entry.2)) := rfl
    rw [step, ih]
    by_cases h : entry.1 = name
    · subst h
      simp [Kwargs.set]
    · simp [Kwargs.set, h, Function.update_of_ne (Ne.symm h)]

theorem collect_filter {p : Name → Bool} (hp : p name = true) :
    collect combine (entries.filter fun entry => p entry.1) kwargs name =
      collect combine entries kwargs name := by
  rw [collect_apply, collect_apply, filter_filter]
  congr 1
  apply filter_congr
  intro entry _
  by_cases h : entry.1 = name
  · simp [h, hp]
  · simp [h]

theorem collect_of_notMem (h : name ∉ entries.map Prod.fst) :
    collect combine entries kwargs name = kwargs name := by
  have none_left : entries.filter (·.1 = name) = [] := by
    apply filter_eq_nil_iff.mpr
    intro entry hentry
    simp only [decide_eq_true_eq]
    intro heq
    exact h (heq ▸ mem_map_of_mem hentry)
  rw [collect_apply, none_left]
  rfl

/-- The entries of a name end with one that decides its value. -/
theorem collect_of_mem (h : name ∈ entries.map Prod.fst) :
    ∃ old, ∃ entry ∈ entries, collect combine entries kwargs name = some (combine old entry.2) := by
  obtain ⟨entry, hentry, heq⟩ := mem_map.mp h
  have nonempty : entries.filter (·.1 = name) ≠ [] := by
    apply ne_nil_of_mem (a := entry)
    exact mem_filter.mpr ⟨hentry, by simpa using heq⟩
  obtain ⟨before, last, hlast⟩ := (eq_nil_or_concat' _).resolve_left nonempty
  refine ⟨before.foldl (fun old entry => some (combine old entry.2)) (kwargs name), last, ?_, ?_⟩
  · have : last ∈ entries.filter (·.1 = name) := by simp [hlast]
    exact (mem_filter.mp this).1
  · rw [collect_apply, hlast, foldl_append]
    rfl

end Collect

theorem promote_isBytes (old : Option Value) {value : Value} (h : value.isBytes = false) :
    (promote old value).isBytes = false := by
  match old with
  | none => exact h
  | some existing => cases existing <;> rfl

/-- How the dictionary after the body step compares with the one the body would
give without its fields of the given names: the two differ in copied names only,
and there the first has a value of the client's. -/
structure Separated (names merged : List Name) (kwargs filled reference : Kwargs Value) :
    Prop where
  agree : ∀ name, (name ∈ names → name ∉ merged) → filled name = reference name
  chosen : ∀ name ∈ names, name ∈ merged → kwargs name = none →
    (∃ value, filled name = some value ∧ value.isBytes = false) ∧ reference name = none

theorem Separated.refl (names : List Name) (kwargs filled : Kwargs Value) :
    Separated names [] kwargs filled filled := by
  constructor
  · intro name _
    rfl
  · intro name _ hmem
    exact absurd hmem not_mem_nil

theorem collect_without (combine : Option Value → Value → Value) (entries : List (Name × Value))
    (kwargs : Kwargs Value) {names : List Name} {name : Name} (hname : name ∈ names) :
    collect combine (entries.filter (·.1 ∉ names)) kwargs name = kwargs name := by
  apply collect_of_notMem
  intro hmem
  obtain ⟨entry, hentry, heq⟩ := mem_map.mp hmem
  have hout := (mem_filter.mp hentry).2
  simp only [decide_eq_true_eq] at hout
  exact hout (heq ▸ hname)

/-- Fields that are not of the given names, or that the body does not have. -/
theorem collect_agree (combine : Option Value → Value → Value) (entries : List (Name × Value))
    (kwargs : Kwargs Value) (names : List Name) {name : Name}
    (hname : name ∈ names → name ∉ entries.map Prod.fst) :
    collect combine entries kwargs name =
      collect combine (entries.filter (·.1 ∉ names)) kwargs name := by
  by_cases hin : name ∈ names
  · rw [collect_of_notMem _ _ _ _ (hname hin), collect_without _ _ _ hin]
  · symm
    exact collect_filter _ _ _ _ (p := fun name => name ∉ names) (by simpa using hin)

theorem collect_congr (combine : Option Value → Value → Value) (entries : List (Name × Value))
    {kwargs kwargs' : Kwargs Value} {name : Name} (h : kwargs name = kwargs' name) :
    collect combine entries kwargs name = collect combine entries kwargs' name := by
  rw [collect_apply, collect_apply, h]

theorem isBytes_textEntries (fields : List (Name × String)) :
    ∀ entry ∈ textEntries fields, entry.2.isBytes = false := by
  intro entry hentry
  obtain ⟨field, -, rfl⟩ := mem_map.mp hentry
  rfl

theorem isBytes_uploadEntries (files : List (Name × Upload)) :
    ∀ entry ∈ uploadEntries files, entry.2.isBytes = false := by
  intro entry hentry
  obtain ⟨file, -, rfl⟩ := mem_map.mp hentry
  rfl

theorem isBytes_jsonEntries (members : List (Name × Json)) :
    ∀ entry ∈ jsonEntries members, entry.2.isBytes = false := by
  intro entry hentry
  obtain ⟨member, -, rfl⟩ := mem_map.mp hentry
  exact Json.toValue_isBytes _

theorem fst_textEntries (fields : List (Name × String)) :
    (textEntries fields).map Prod.fst = fields.map Prod.fst := by
  simp [textEntries]

theorem fst_uploadEntries (files : List (Name × Upload)) :
    (uploadEntries files).map Prod.fst = files.map Prod.fst := by
  simp [uploadEntries]

theorem fst_jsonEntries (members : List (Name × Json)) :
    (jsonEntries members).map Prod.fst = members.map Prod.fst := by
  simp [jsonEntries]

theorem separated_buildKwargs (names : List Name) (fields : List (Name × String))
    (files : List (Name × Upload)) (kwargs : Kwargs Value) :
    Separated names (fields.map Prod.fst ++ files.map Prod.fst) kwargs
      (buildKwargs fields files kwargs)
      (buildKwargs (fields.filter (·.1 ∉ names)) (files.filter (·.1 ∉ names)) kwargs) := by
  have filtered : buildKwargs (fields.filter (·.1 ∉ names)) (files.filter (·.1 ∉ names)) kwargs =
      collect promote ((uploadEntries files).filter (·.1 ∉ names))
        (collect overwrite ((textEntries fields).filter (·.1 ∉ names)) kwargs) := by
    simp [buildKwargs, textEntries, uploadEntries, filter_map, Function.comp_def]
  rw [filtered, ← fst_textEntries, ← fst_uploadEntries]
  constructor
  · intro name hname
    have texts := collect_agree overwrite _ kwargs _
      fun hin hmem => hname hin (mem_append_left _ hmem)
    have uploads := collect_agree promote _ (collect overwrite (textEntries fields) kwargs) _
      fun hin hmem => hname hin (mem_append_right _ hmem)
    exact uploads.trans (collect_congr _ _ texts)
  · intro name hin hmem hnone
    constructor
    · by_cases h : name ∈ (uploadEntries files).map Prod.fst
      · obtain ⟨old, entry, hentry, heq⟩ := collect_of_mem _ _
          _ _ h
        exact ⟨_, heq, promote_isBytes _ (isBytes_uploadEntries _ _ hentry)⟩
      · have htext := (mem_append.mp hmem).resolve_right h
        obtain ⟨old, entry, hentry, heq⟩ := collect_of_mem _ _ _ _ htext
        rw [buildKwargs, collect_of_notMem _ _ _ _ h, heq]
        exact ⟨_, rfl, isBytes_textEntries _ _ hentry⟩
    · rw [collect_without _ _ _ hin, collect_without _ _ _ hin, hnone]

theorem separated_formDict (names : List Name) (pairs : List (Name × String)) (embed : Bool)
    (kwargs : Kwargs Value) :
    let fill (form : Kwargs Value) := form.update (if embed then kwargs.update form else kwargs)
    Separated names (pairs.map Prod.fst) kwargs (fill (formDict pairs))
      (fill (formDict (pairs.filter (·.1 ∉ names)))) := by
  have filtered : formDict (pairs.filter (·.1 ∉ names)) =
      collect promote ((textEntries pairs).filter (·.1 ∉ names)) Kwargs.empty := by
    simp [formDict, textEntries, filter_map, Function.comp_def]
  rw [filtered, ← fst_textEntries]
  constructor
  · intro name hname
    have pairsAgree := collect_agree promote _ Kwargs.empty _ hname
    cases embed <;> simp [Kwargs.update, formDict, pairsAgree]
  · intro name hin hmem hnone
    constructor
    · obtain ⟨old, entry, hentry, heq⟩ := collect_of_mem promote _ Kwargs.empty _ hmem
      refine ⟨_, ?_, promote_isBytes old (isBytes_textEntries _ _ hentry)⟩
      cases embed <;> simp [Kwargs.update, formDict, heq, hnone]
    · have reference : collect promote ((textEntries pairs).filter (·.1 ∉ names)) Kwargs.empty name =
          none := collect_without _ _ _ hin
      cases embed
      · simp only [Kwargs.update, reference, Bool.false_eq_true, if_false, hnone, Option.or_none]
      · simp only [Kwargs.update, reference, if_true, hnone, Option.or_none]

theorem separated_jsonEntries (names : List Name) (members : List (Name × Json))
    (kwargs : Kwargs Value) :
    Separated names (members.map Prod.fst) kwargs (collect overwrite (jsonEntries members) kwargs)
      (collect overwrite (jsonEntries (members.filter (·.1 ∉ names))) kwargs) := by
  have filtered : jsonEntries (members.filter (·.1 ∉ names)) =
      (jsonEntries members).filter (·.1 ∉ names) := by
    simp [jsonEntries, filter_map, Function.comp_def]
  rw [filtered, ← fst_jsonEntries]
  constructor
  · intro name hname
    exact collect_agree _ _ _ _ hname
  · intro name hin hmem hnone
    constructor
    · obtain ⟨old, entry, hentry, heq⟩ := collect_of_mem _ _ _ _ hmem
      exact ⟨_, heq, isBytes_jsonEntries _ _ hentry⟩
    · rw [collect_without _ _ _ hin, hnone]

/-- The body step with and without the body fields of the given names: both end
with an error, or they give dictionaries that differ in copied names only. -/
theorem bodyStep_without (kind : Kind) (payload : Payload) (names : List Name)
    (kwargs : Kwargs Value) :
    (bodyStep kind payload kwargs = none ∧
        bodyStep kind (payload.without names kind) kwargs = none) ∨
      ∃ filled reference, bodyStep kind payload kwargs = some filled ∧
        bodyStep kind (payload.without names kind) kwargs = some reference ∧
        Separated names (mergedNames kind payload) kwargs filled reference := by
  fun_cases mergedNames kind payload with
  | case1 embed fields files =>
    exact .inr ⟨_, _, rfl, rfl, separated_buildKwargs _ _ _ _⟩
  | case2 embed pairs => exact .inr ⟨_, _, rfl, rfl, separated_formDict _ _ _ _⟩
  | case3 light bodyParamName members =>
    exact .inr ⟨_, _, rfl, rfl, separated_jsonEntries _ _ _⟩
  | case4 _ _ multipart urlencoded embedded =>
    -- nothing is copied: the payload is the same, or a multipart body that is not read
    have same : bodyStep kind (payload.without names kind) kwargs =
        bodyStep kind payload kwargs := by
      fun_cases Payload.without _ kind payload with
      | case1 embed boundary fields files =>
        cases boundary with
        | true => exact absurd rfl (multipart _ _ _ rfl)
        | false => rfl
      | case2 embed pairs => exact absurd rfl (urlencoded _ _ rfl)
      | case3 light bodyParamName members =>
        exact absurd rfl (embedded _ _ _ rfl)
      | case4 => rfl
    rw [same]
    cases h : bodyStep kind payload kwargs with
    | none => exact .inl ⟨rfl, rfl⟩
    | some filled => exact .inr ⟨filled, filled, rfl, rfl, Separated.refl _ _ _⟩

theorem skipsDependencyStep_without (names : List Name) (kind : Kind) (payload : Payload) :
    skipsDependencyStep kind (payload.without names kind) = skipsDependencyStep kind payload := by
  fun_cases Payload.without _ kind payload <;> rfl

theorem buildKwargs_of_notMem {fields : List (Name × String)} {files : List (Name × Upload)}
    (kwargs : Kwargs Value) {name : Name}
    (h : name ∉ fields.map Prod.fst ++ files.map Prod.fst) :
    buildKwargs fields files kwargs name = kwargs name := by
  rw [← fst_textEntries, ← fst_uploadEntries, mem_append, not_or] at h
  rw [buildKwargs, collect_of_notMem _ _ _ _ h.2, collect_of_notMem _ _ _ _ h.1]

theorem bodyStep_of_notMem {kind : Kind} {payload : Payload} {kwargs filled : Kwargs Value}
    {name : Name} (hkind : kind = .grouped ∨ skipsDependencyStep kind payload = true)
    (hfilled : bodyStep kind payload kwargs = some filled)
    (hname : name ∉ mergedNames kind payload) : filled name = kwargs name := by
  rcases hkind with rfl | hskip
  · cases hfilled
    rfl
  · fun_cases skipsDependencyStep kind payload with
    | case1 embed boundary fields files =>
      cases boundary with
      | true =>
        cases hfilled
        exact buildKwargs_of_notMem _ hname
      | false =>
        cases hfilled
        rfl
    | case2 => simp_all [skipsDependencyStep]

theorem bodyStep_isSome {kind : Kind} {payload : Payload}
    (h : kind = .grouped ∨ skipsDependencyStep kind payload = true ∨ mergedNames kind payload ≠ [])
    (kwargs : Kwargs Value) : ∃ filled, bodyStep kind payload kwargs = some filled := by
  rcases h with rfl | hskip | hmerged
  · exact ⟨kwargs, rfl⟩
  · fun_cases skipsDependencyStep kind payload with
    | case1 embed boundary fields files => cases boundary <;> exact ⟨_, rfl⟩
    | case2 => simp_all [skipsDependencyStep]
  · fun_cases mergedNames kind payload with
    | case4 => simp_all [mergedNames]
    | _ => exact ⟨_, rfl⟩

end AstraApi.Dispatch
