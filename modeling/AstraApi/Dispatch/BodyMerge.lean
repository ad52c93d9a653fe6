import AstraApi.Dispatch.JsonReadBack

/-!
# Merging the body into the parameters

A route that embeds its body fields gets the members of a JSON object as arguments of
their own.  The names are those that the client sends, and they go into the dictionary
that holds the parameters from the path, the query, the headers and the cookies.
-/

namespace AstraApi.JsonParser

open Option
open Json (Document)
open Response.Writer

variable {F : Type*}

deriving instance DecidableEq for Key

/-- The arguments of a call. -/
abbrev Kwargs (F : Type*) := Dict Key (PyValue F)

/-- What `dispatch_one_request` holds.  The arguments are gone once they were released. -/
structure Held (F : Type*) where
  kwargs : Option (Kwargs F)
  jsonBody : PyValue F

/-- The members as they are put into a dictionary. -/
def objectPairs (members : List (Text × YyVal F)) : List (Key × PyValue F) :=
  (membersToPyobject members).map fun item => (.str item.1, item.2)

/-- `yyjson_doc_merge_to_dict`: one pass over the members, each of which is put into both
dictionaries.  What is no object is only converted. -/
def yyjsonDocMergeToDict (root : YyVal F) (targetDict : Kwargs F) : Kwargs F × PyValue F :=
  match root with
  | .obj members =>
    let dicts := (objectPairs members).foldl
      (fun dicts pair => (dicts.1.set pair.1 pair.2, dicts.2.set pair.1 pair.2))
      (targetDict, (Dict.empty : Kwargs F))
    (dicts.1, .dict dicts.2.items)
  | root => (targetDict, valToPyobject root)

/-- The step for a text that `yyjson` has read. -/
def mergeDoc (embedBodyFields : Bool) (held : Held F) (doc : YyVal F) : Held F :=
  match embedBodyFields, held.kwargs with
  | true, some kwargs =>
    let (kwargs, fullDict) := yyjsonDocMergeToDict doc kwargs
    { kwargs := some kwargs, jsonBody := fullDict }
  | _, _ => { held with jsonBody := valToPyobject doc }

/-- The step for the result of a patched `json.loads`. -/
def mergeResult (embedBodyFields : Bool) (held : Held F) (result : PyValue F) : Held F :=
  match embedBodyFields, held.kwargs, result with
  | true, some kwargs, .dict items =>
    { kwargs := none, jsonBody := .dict (kwargs.setAll items).items }
  | _, _, _ => { held with jsonBody := result }

/-! ## What is left of the arguments -/

theorem foldl_set_both (pairs : List (Key × PyValue F)) (target full : Kwargs F) :
    pairs.foldl (fun dicts pair => (dicts.1.set pair.1 pair.2, dicts.2.set pair.1 pair.2))
      (target, full) = (target.setAll pairs, full.setAll pairs) := by
  induction pairs generalizing target full with
  | nil => rfl
  | cons pair pairs ih => exact ih (target.set pair.1 pair.2) (full.set pair.1 pair.2)

theorem mergeDoc_object (kwargs : Kwargs F) (body : PyValue F) (members : List (Text × YyVal F)) :
    mergeDoc true ⟨some kwargs, body⟩ (.obj members) =
      ⟨some (kwargs.setAll (objectPairs members)), .dict (Dict.ofList (objectPairs members)).items⟩ := by
  simp only [mergeDoc, yyjsonDocMergeToDict, foldl_set_both]
  rfl

/-- Every argument still has its value. -/
def Keeps (before after : Kwargs F) : Prop :=
  ∀ key value, before.get key = some value → after.get key = some value

theorem keeps_setAll_iff (kwargs : Kwargs F) (pairs : List (Key × PyValue F)) :
    Keeps kwargs (kwargs.setAll pairs) ↔
      ∀ key value sent, kwargs.get key = some value → pairs.reverse.lookup key = some sent →
        sent = value := by
  simp only [Keeps, Dict.get_setAll]
  constructor
  · intro h key value sent hheld hsent
    have hkept := h key value hheld
    rw [hsent, some_or] at hkept
    exact Option.some.inj hkept
  · intro h key value hheld
    cases hsent : pairs.reverse.lookup key with
    | none => rw [none_or, hheld]
    | some sent => rw [some_or, h key value sent hheld hsent]

/-- An object is an object for both readers. -/
theorem exists_dict_of_read {doubles : Doubles F} {body : Bytes} {vals : List (Text × YyVal F)}
    {result : PyValue F} (hread : yyjsonReadOpts doubles body = some (.obj vals))
    (hloads : jsonLoads doubles body = some result) : ∃ items, result = .dict items := by
  obtain ⟨document, hdocument, hval⟩ := bind_eq_some_iff.mp hread
  rw [jsonLoads, hdocument, map_some] at hloads
  rw [← Option.some.inj hloads]
  cases document with
  | object members => exact ⟨_, rfl⟩
  | number literal =>
    rw [yyVal, readNum] at hval
    split_ifs at hval
    · cases hval
    · obtain ⟨_, -, heq⟩ := map_eq_some_iff.mp hval
      cases heq
    · cases hval
    · obtain ⟨_, -, heq⟩ := map_eq_some_iff.mp hval
      cases heq
    · obtain ⟨_, -, heq⟩ := map_eq_some_iff.mp hval
      cases heq
  | string text =>
    rw [yyVal] at hval
    split at hval
    · cases hval
    · cases hval
  | array items =>
    obtain ⟨_, -, heq⟩ := map_eq_some_iff.mp hval
    cases heq
  | null => cases hval
  | bool value => cases hval

/-- What the step promises: the arguments keep their values, and it does not matter which
function has read the body. -/
def MergeSafe (kwargs : Kwargs F) (doc : YyVal F) (result : PyValue F) : Prop :=
  (∀ after, (mergeDoc true ⟨some kwargs, .none⟩ doc).kwargs = some after → Keeps kwargs after) ∧
    mergeDoc true ⟨some kwargs, .none⟩ doc = mergeResult true ⟨some kwargs, .none⟩ result

/-- No body is merged safely: the arguments are kept exactly when no other value was sent
for one of them, and the patched `json.loads` never leaves any. -/
theorem not_mergeSafe (doubles : Doubles F) (kwargs : Kwargs F) {body : Bytes}
    {vals : List (Text × YyVal F)} {result : PyValue F}
    (hread : yyjsonReadOpts doubles body = some (.obj vals))
    (hloads : jsonLoads doubles body = some result) :
    ¬ MergeSafe kwargs (.obj vals) result ∧
      ((∀ after, (mergeDoc true ⟨some kwargs, .none⟩ (.obj vals)).kwargs = some after →
          Keeps kwargs after) ↔
        ∀ key value sent, kwargs.get key = some value →
          (objectPairs vals).reverse.lookup key = some sent → sent = value) ∧
      (mergeResult true ⟨some kwargs, .none⟩ result).kwargs = none := by
  obtain ⟨items, rfl⟩ := exists_dict_of_read hread hloads
  refine ⟨?_, ?_, rfl⟩
  · rintro ⟨-, hsame⟩
    rw [mergeDoc_object] at hsame
    cases congrArg Held.kwargs hsame
  · rw [← keeps_setAll_iff, mergeDoc_object]
    simp only [Option.some.injEq, forall_eq']

/-- A path parameter, and a body with its name. -/
def itemKwargs : Kwargs ℤ := Dict.ofList [(.str (plainText "item_id"), .int 7)]

def itemBody : Bytes := ascii "\x7b\"item_id\":null\x7d"

theorem parse_itemBody :
    Json.parseDocument itemBody = some (.object [(plainText "item_id", .null)]) := by rfl

theorem read_itemBody :
    yyjsonReadOpts integerDoubles itemBody = some (.obj [(plainText "item_id", .null)]) := by
  rw [yyjsonReadOpts, parse_itemBody]
  rfl

theorem loads_itemBody :
    jsonLoads integerDoubles itemBody = some (.dict [(.str (plainText "item_id"), .none)]) := by
  have hpairs : Dict.lastOfEach (loadsMembers integerDoubles [(plainText "item_id", .null)]) =
      [(plainText "item_id", .none)] := lastOfEach_of_nodup (List.nodup_singleton _)
  rw [jsonLoads, parse_itemBody, map_some, loads, hpairs]
  rfl

theorem not_mergeSafe_item :
    (mergeResult true ⟨some itemKwargs, .none⟩
      (.dict [(.str (plainText "item_id"), .none)])).kwargs = none :=
  (not_mergeSafe integerDoubles itemKwargs read_itemBody loads_itemBody).2.2

theorem mergeDoc_overwrites :
    ¬ ∀ (kwargs : Kwargs ℤ) (body : Bytes) (vals : List (Text × YyVal ℤ)) (result : PyValue ℤ),
      yyjsonReadOpts integerDoubles body = some (.obj vals) →
      jsonLoads integerDoubles body = some result → MergeSafe kwargs (.obj vals) result := by
  intro h
  obtain ⟨hkeeps, -⟩ := h itemKwargs itemBody _ _ read_itemBody loads_itemBody
  rw [mergeDoc_object] at hkeeps
  have hheld : itemKwargs.get (.str (plainText "item_id")) = some (.int 7) := by
    rw [itemKwargs, Dict.get_ofList]
    exact List.lookup_cons_self
  have hvalue := hkeeps _ rfl _ _ hheld
  rw [Dict.get_setAll] at hvalue
  have hsent : (objectPairs [(plainText "item_id", YyVal.null)] : List (Key × PyValue ℤ)).reverse.lookup
      (.str (plainText "item_id")) = some .none := List.lookup_cons_self
  rw [hsent, some_or] at hvalue
  cases hvalue

end AstraApi.JsonParser
