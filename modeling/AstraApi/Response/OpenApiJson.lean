import AstraApi.Response.ErrorBodies
import AstraApi.Response.JsonRoundTrip

/-!
# `openapi_dict_to_json_bytes`

The OpenAPI document is written by a recursion of its own, which leaves out the entries
of dictionaries that are `None`.  It goes from dictionary to dictionary; a list, with all
that is in it, is left to `write_json`, where `None` is a value like any other.
-/

namespace AstraApi.OpenApi

open Option hiding any_eq_false
open List
open Json (Spells Reads Member memberText bracketed quoted)
open Response (jsonEscapeByte jsonEscapeByte_escaper le_of_jsonEscapeByte)
open Response.Writer

variable {F : Type*} (interp : Interpreter F)

/-! ## What is written -/

def writeJsonStrOa (s : Bytes) : Bytes := quoted (s.flatMap jsonEscapeByte)

/-- A failure of the recursion: without an exception, with that of `write_json` or of the
interpreter, or in reading a null pointer. -/
inductive OaError where
  | silent
  | exception (error : WriteError)
  | nullPointer

def writeStr (text : Text) : Except OaError Bytes :=
  match asUtf8 text with
  | .ok s => .ok (writeJsonStrOa s)
  | .error error => .error (.exception error)

/-- What `str()` returns for a key is not checked for its UTF-8. -/
def writeKey : Key → Except OaError Bytes
  | .str text => writeStr text
  | .other none => .error (.exception .raised)
  | .other (some ks) =>
    match ks.utf8 with
    | some s => .ok (writeJsonStrOa s)
    | none => .error .nullPointer

mutual

def writeOpenapiJson (depth : ℕ) (obj : PyValue F) : Except OaError Bytes :=
  if 64 < depth then .error .silent
  else
    match obj with
    | .none => .ok (ascii "null")
    | .str text => writeStr text
    | .dict items => do
      let texts ← writeEntries (depth + 1) items
      .ok ([0x7b] ++ (ascii ",").intercalate texts ++ [0x7d])
    | obj =>
      match writeJson interp depth obj with
      | .ok text => .ok text
      | .error error => .error (.exception error)

def writeEntries (depth : ℕ) : List (Key × PyValue F) → Except OaError (List Bytes)
  | [] => .ok []
  | (_, .none) :: items => writeEntries depth items
  | (key, value) :: items => do
    let keyText ← writeKey key
    let text ← writeOpenapiJson depth value
    let texts ← writeEntries depth items
    .ok ((keyText ++ ascii ":" ++ text) :: texts)

end

inductive ApiError where
  | typeError (message : Bytes)
  | runtimeError (message : Bytes)
  | exception (error : WriteError)
  | nullPointer

def OaError.toApi : OaError → ApiError
  | .silent => .runtimeError (ascii "Failed to serialize OpenAPI dict")
  | .exception error => .exception error
  | .nullPointer => .nullPointer

def pyOpenapiDictToJsonBytes (arg : PyValue F) : Except ApiError Bytes :=
  match arg with
  | .dict items =>
    match writeOpenapiJson interp 0 (.dict items) with
    | .ok buf => .ok buf
    | .error error => .error error.toApi
  | _ => .error (.typeError (ascii "expected dict"))

/-! ## What should be written -/

mutual

/-- A document without the members that are null, wherever they are. -/
def dropNulls : Json → Json
  | .array items => .array (dropItems items)
  | .object members => .object (dropMembers members)
  | json => json

def dropItems : List Json → List Json
  | [] => []
  | item :: items => dropNulls item :: dropItems items

def dropMembers : List (Text × Json) → List (Text × Json)
  | [] => []
  | (_, .null) :: members => dropMembers members
  | (name, json) :: members => (name, dropNulls json) :: dropMembers members

end

mutual

/-- What is written: arrays stay as they are. -/
def dropOuterNulls : Json → Json
  | .object members => .object (dropOuterMembers members)
  | json => json

def dropOuterMembers : List (Text × Json) → List (Text × Json)
  | [] => []
  | (_, .null) :: members => dropOuterMembers members
  | (name, json) :: members => (name, dropOuterNulls json) :: dropOuterMembers members

end

mutual

/-- Somewhere in the document a member is null. -/
def hasNull : Json → Bool
  | .array items => itemsHaveNull items
  | .object members => membersHaveNull members
  | _ => false

def itemsHaveNull : List Json → Bool
  | [] => false
  | item :: items => hasNull item || itemsHaveNull items

def membersHaveNull : List (Text × Json) → Bool
  | [] => false
  | (_, .null) :: _ => true
  | (_, json) :: members => hasNull json || membersHaveNull members

end

mutual

def nullInArray : Json → Bool
  | .array items => itemsHaveNull items
  | .object members => nullInMembers members
  | _ => false

def nullInMembers : List (Text × Json) → Bool
  | [] => false
  | (_, json) :: members => nullInArray json || nullInMembers members

end

/-! ## Null members -/

theorem dropMembers_cons {json : Json} (h : json ≠ .null) (name : Text)
    (members : List (Text × Json)) :
    dropMembers ((name, json) :: members) = (name, dropNulls json) :: dropMembers members := by
  cases json with
  | null => exact absurd rfl h
  | _ => rfl

theorem dropOuterMembers_cons {json : Json} (h : json ≠ .null) (name : Text)
    (members : List (Text × Json)) :
    dropOuterMembers ((name, json) :: members) =
      (name, dropOuterNulls json) :: dropOuterMembers members := by
  cases json with
  | null => exact absurd rfl h
  | _ => rfl

theorem membersHaveNull_cons {json : Json} (h : json ≠ .null) (name : Text)
    (members : List (Text × Json)) :
    membersHaveNull ((name, json) :: members) = (hasNull json || membersHaveNull members) := by
  cases json with
  | null => exact absurd rfl h
  | _ => rfl

theorem length_dropMembers_le (members : List (Text × Json)) :
    (dropMembers members).length ≤ members.length := by
  induction members with
  | nil => exact le_refl _
  | cons member members ih =>
    obtain ⟨name, json⟩ := member
    by_cases hnull : json = .null
    · subst hnull
      exact le_trans ih (Nat.le_succ _)
    · rw [dropMembers_cons hnull]
      exact Nat.succ_le_succ ih

mutual

theorem dropNulls_eq_self_iff (json : Json) : dropNulls json = json ↔ hasNull json = false := by
  cases json with
  | array items => rw [dropNulls, hasNull, Json.array.injEq, dropItems_eq_self_iff items]
  | object members => rw [dropNulls, hasNull, Json.object.injEq, dropMembers_eq_self_iff members]
  | _ => exact iff_of_true rfl rfl

theorem dropItems_eq_self_iff (items : List Json) :
    dropItems items = items ↔ itemsHaveNull items = false := by
  cases items with
  | nil => exact iff_of_true rfl rfl
  | cons item items =>
    rw [dropItems, itemsHaveNull, List.cons.injEq, Bool.or_eq_false_iff,
      dropNulls_eq_self_iff item, dropItems_eq_self_iff items]

theorem dropMembers_eq_self_iff (members : List (Text × Json)) :
    dropMembers members = members ↔ membersHaveNull members = false := by
  match members with
  | [] => exact iff_of_true rfl rfl
  | (name, json) :: members =>
    by_cases hnull : json = .null
    · subst hnull
      refine iff_of_false (fun h => ?_) Bool.noConfusion
      have hlength := congrArg List.length h
      have hle := length_dropMembers_le members
      rw [dropMembers, length_cons] at hlength
      omega
    · rw [dropMembers_cons hnull, membersHaveNull_cons hnull, List.cons.injEq, Prod.mk.injEq,
        and_iff_right rfl, Bool.or_eq_false_iff, dropNulls_eq_self_iff json,
        dropMembers_eq_self_iff members]

end

mutual

theorem dropOuterNulls_eq_iff (json : Json) :
    dropOuterNulls json = dropNulls json ↔ nullInArray json = false := by
  cases json with
  | array items =>
    rw [dropOuterNulls, dropNulls, nullInArray, Json.array.injEq, eq_comm,
      dropItems_eq_self_iff items]
    exact fun _ h => nomatch h
  | object members =>
    rw [dropOuterNulls, dropNulls, nullInArray, Json.object.injEq, dropOuterMembers_eq_iff members]
  | _ => exact iff_of_true rfl rfl

theorem dropOuterMembers_eq_iff (members : List (Text × Json)) :
    dropOuterMembers members = dropMembers members ↔ nullInMembers members = false := by
  match members with
  | [] => exact iff_of_true rfl rfl
  | (name, json) :: members =>
    rw [nullInMembers, Bool.or_eq_false_iff, ← dropOuterMembers_eq_iff members]
    by_cases hnull : json = .null
    · subst hnull
      exact (and_iff_right rfl).symm
    · rw [dropOuterMembers_cons hnull, dropMembers_cons hnull, List.cons.injEq, Prod.mk.injEq,
        and_iff_right rfl, dropOuterNulls_eq_iff json]

end

/-! ## What the text spells -/

theorem toJson_ne_null {value : PyValue F} {json : Json} (hvalue : value ≠ .none)
    (h : toJson value = some json) : json ≠ .null := by
  rintro rfl
  cases value with
  | none => exact hvalue rfl
  | str text =>
    rw [toJson] at h
    split at h <;> cases h
  | dict items | list items | tuple items =>
    obtain ⟨_, -, heq⟩ := map_eq_some_iff.mp h
    cases heq
  | _ => cases h

theorem writeStr_eq_ok_iff {text : Text} {out : Bytes} :
    writeStr text = .ok out ↔ ∃ s, text.utf8 = some s ∧ writeJsonStrOa s = out := by
  rw [writeStr, asUtf8]
  cases text.utf8 with
  | none => exact iff_of_false (fun h => nomatch h) fun ⟨_, h, _⟩ => nomatch h
  | some s =>
    constructor
    · intro h
      exact ⟨s, rfl, Except.ok.inj h⟩
    · rintro ⟨_, hs, rfl⟩
      cases hs
      rfl

theorem writeStr_spells {text : Text} {out : Bytes} (h : writeStr text = .ok out) :
    ∃ escaped, out = quoted escaped ∧ Json.SpellsChars escaped text := by
  obtain ⟨s, hs, rfl⟩ := writeStr_eq_ok_iff.mp h
  obtain ⟨hencodable, rfl⟩ := Text.utf8_eq_some_iff.mp hs
  exact ⟨_, rfl, jsonEscapeByte_escaper.spellsChars hencodable fun _ _ => le_of_jsonEscapeByte⟩

/-- What is neither `None` nor a string nor a dictionary is left to `write_json`. -/
def Delegated : PyValue F → Prop
  | .none | .str _ | .dict _ => False
  | _ => True

theorem writeOpenapiJson_delegated {depth : ℕ} (hdepth : ¬ 64 < depth) {obj : PyValue F}
    (hobj : Delegated obj) : writeOpenapiJson interp depth obj =
      (writeJson interp depth obj).mapError .exception := by
  rw [writeOpenapiJson.eq_def, if_neg hdepth]
  cases obj with
  | none => exact hobj.elim
  | str text | dict text => exact hobj.elim
  | _ =>
    dsimp only
    split
    · next heq => rw [heq]; rfl
    · next heq => rw [heq]; rfl

theorem writeEntries_cons {key : Key} {value : PyValue F} (hvalue : value ≠ .none) (depth : ℕ)
    (items : List (Key × PyValue F)) :
    writeEntries interp depth ((key, value) :: items) = (do
      let keyText ← writeKey key
      let text ← writeOpenapiJson interp depth value
      let texts ← writeEntries interp depth items
      .ok ((keyText ++ ascii ":" ++ text) :: texts)) := by
  cases value with
  | none => exact absurd rfl hvalue
  | _ => rw [writeEntries]; exact fun h => nomatch h

variable {interp}

mutual

/-- A text spells the value without the null members that are in no array. -/
theorem spells_writeOpenapiJson {depth : ℕ} {obj : PyValue F} {text : Bytes} {json : Json}
    (h : writeOpenapiJson interp depth obj = .ok text) (hjson : toJson obj = some json) :
    Spells Reads text (dropOuterNulls json) := by
  by_cases hdepth : 64 < depth
  · rw [writeOpenapiJson.eq_def, if_pos hdepth] at h
    cases h
  · have hdelegated (hobj : Delegated obj) : Spells Reads text json := by
      rw [writeOpenapiJson_delegated interp hdepth hobj] at h
      cases hwritten : writeJson interp depth obj with
      | error error => rw [hwritten] at h; cases h
      | ok written =>
        rw [hwritten] at h
        rw [← Except.ok.inj h]
        exact spells_writeJson hwritten hjson
    cases obj with
    | none =>
      rw [writeOpenapiJson, if_neg hdepth] at h
      cases h
      cases hjson
      exact Json.spells_null
    | str string =>
      rw [writeOpenapiJson, if_neg hdepth] at h
      obtain ⟨escaped, rfl, hchars⟩ := writeStr_spells h
      rw [toJson] at hjson
      split at hjson
      · cases hjson
        exact Json.spells_string hchars
      · cases hjson
    | dict items =>
      rw [writeOpenapiJson, if_neg hdepth] at h
      cases hentries : writeEntries interp (depth + 1) items with
      | error error => rw [hentries] at h; cases h
      | ok texts =>
        rw [hentries] at h
        obtain ⟨members, hmembers, rfl⟩ := map_eq_some_iff.mp hjson
        rw [← show bracketed 0x7b 0x7d texts = text from Except.ok.inj h]
        exact Json.spells_object (spells_writeEntries hentries hmembers)
    | bool value | int value =>
      cases hjson
      exact hdelegated trivial
    | list items | tuple items =>
      obtain ⟨_, -, rfl⟩ := map_eq_some_iff.mp hjson
      exact hdelegated trivial
    | _ => cases hjson

theorem spells_writeEntries {depth : ℕ} {items : List (Key × PyValue F)} {texts : List Bytes}
    {members : List (Text × Json)} (h : writeEntries interp depth items = .ok texts)
    (hmembers : pairsToJson items = some members) :
    List.Forall₂ (Spells (Member Reads)) texts (dropOuterMembers members) := by
  match items with
  | [] =>
    cases h
    cases hmembers
    exact .nil
  | (.other _, _) :: _ => cases hmembers
  | (.str name, value) :: items =>
    simp only [pairsToJson, bind_eq_bind, bind_eq_some_iff] at hmembers
    obtain ⟨json, hjson, others, hothers, heq⟩ := hmembers
    split at heq
    · cases heq
      by_cases hnone : value = .none
      · subst hnone
        cases hjson
        rw [writeEntries] at h
        show List.Forall₂ (Spells (Member Reads)) texts (dropOuterMembers others)
        exact spells_writeEntries h hothers
      · rw [writeEntries_cons interp hnone] at h
        rw [dropOuterMembers_cons (toJson_ne_null hnone hjson)]
        cases hkey : writeKey (.str name) with
        | error error => rw [hkey] at h; cases h
        | ok keyText =>
          cases hvalue : writeOpenapiJson interp depth value with
          | error error => rw [hkey, hvalue] at h; cases h
          | ok text =>
            cases hmore : writeEntries interp depth items with
            | error error => rw [hkey, hvalue, hmore] at h; cases h
            | ok more =>
              rw [hkey, hvalue, hmore] at h
              obtain ⟨escaped, rfl, hchars⟩ := writeStr_spells hkey
              rw [← show memberText escaped text :: more = texts from Except.ok.inj h]
              exact .cons (Json.spells_member hchars (spells_writeOpenapiJson hvalue hjson))
                (spells_writeEntries hmore hothers)
    · cases heq

end

/-! ## When it fails -/

def Accepted (interp : Interpreter F) (parts : List (ℕ × PyValue F)) : Prop :=
  ∀ part ∈ parts, refusedPart interp part.2 = false

theorem writeJson_ok_iff {depth : ℕ} {value : PyValue F}
    (hdepth : ∀ part ∈ parts depth value, part.1 ≤ 64) :
    (∃ text, writeJson interp depth value = .ok text) ↔ Accepted interp (parts depth value) := by
  constructor
  · rintro ⟨text, htext⟩ part hmem
    cases hrefused : refusedPart interp part.2 with
    | false => rfl
    | true =>
      obtain ⟨error, herror⟩ := (fails_writeJson_iff _ _ _).mpr ⟨part, hmem, .inr hrefused⟩
      rw [htext] at herror
      cases herror
  · intro haccepted
    refine (fails_or_ok _).resolve_left fun hfails => ?_
    obtain ⟨part, hmem, hdeep | hrefused⟩ := (fails_writeJson_iff _ _ _).mp hfails
    · exact absurd hdeep (not_lt.mpr (hdepth _ hmem))
    · rw [haccepted _ hmem] at hrefused
      cases hrefused

/-- Two steps one after the other succeed when both do. -/
theorem exists_ok_bind_iff {ε α β γ : Type} (first : Except ε α) (second : Except ε β)
    (finish : α → β → γ) :
    (∃ result, (first >>= fun a => second >>= fun b => .ok (finish a b)) = .ok result) ↔
      (∃ a, first = .ok a) ∧ ∃ b, second = .ok b := by
  cases first with
  | error error => exact iff_of_false (fun ⟨_, h⟩ => nomatch h) fun ⟨⟨_, h⟩, _⟩ => nomatch h
  | ok a =>
    cases second with
    | error error => exact iff_of_false (fun ⟨_, h⟩ => nomatch h) fun ⟨_, ⟨_, h⟩⟩ => nomatch h
    | ok b => exact iff_of_true ⟨_, rfl⟩ ⟨⟨a, rfl⟩, b, rfl⟩

theorem accepted_cons {depth : ℕ} {value : PyValue F} (hvalue : refusedPart interp value = false)
    {parts : List (ℕ × PyValue F)} :
    Accepted interp ((depth, value) :: parts) ↔ Accepted interp parts :=
  forall_mem_cons.trans (and_iff_right hvalue)

mutual

theorem writeOpenapiJson_ok_iff {depth : ℕ} {obj : PyValue F} {json : Json}
    (hjson : toJson obj = some json) (hdepth : ∀ part ∈ parts depth obj, part.1 ≤ 64) :
    (∃ text, writeOpenapiJson interp depth obj = .ok text) ↔ Accepted interp (parts depth obj) := by
  have hself : ¬ 64 < depth := not_lt.mpr (hdepth _ (self_mem_parts depth obj))
  have hdelegated (hobj : Delegated obj) : (∃ text, writeOpenapiJson interp depth obj = .ok text) ↔
      Accepted interp (parts depth obj) := by
    rw [writeOpenapiJson_delegated interp hself hobj, ← writeJson_ok_iff hdepth]
    cases writeJson interp depth obj with
    | error error => exact iff_of_false (fun ⟨_, h⟩ => nomatch h) fun ⟨_, h⟩ => nomatch h
    | ok text => exact iff_of_true ⟨text, rfl⟩ ⟨text, rfl⟩
  cases obj with
  | none =>
    rw [writeOpenapiJson, if_neg hself]
    exact iff_of_true ⟨_, rfl⟩ (forall_mem_singleton.mpr rfl)
  | str text =>
    rw [writeOpenapiJson, if_neg hself]
    rw [toJson] at hjson
    split at hjson
    · next hutf8 =>
      obtain ⟨s, hs⟩ := isSome_iff_exists.mp hutf8
      refine iff_of_true ⟨_, writeStr_eq_ok_iff.mpr ⟨s, hs, rfl⟩⟩ (forall_mem_singleton.mpr ?_)
      rw [refusedPart, hs]
      rfl
    · cases hjson
  | dict items =>
    obtain ⟨members, hmembers, -⟩ := map_eq_some_iff.mp hjson
    obtain ⟨hkeys, -⟩ := plain_pairParts hmembers (depth + 1)
    have hrefused : refusedPart interp (.dict items) = false := by
      rw [refusedPart, any_eq_false]
      intro item hmem
      rw [hkeys item hmem]
      exact Bool.false_ne_true
    rw [parts] at hdepth ⊢
    rw [accepted_cons hrefused,
      ← writeEntries_ok_iff hmembers (forall_mem_cons.mp hdepth).2, writeOpenapiJson,
      if_neg hself]
    cases writeEntries interp (depth + 1) items with
    | error error => exact iff_of_false (fun ⟨_, h⟩ => nomatch h) fun ⟨_, h⟩ => nomatch h
    | ok texts => exact iff_of_true ⟨_, rfl⟩ ⟨texts, rfl⟩
  | _ => exact hdelegated trivial

theorem writeEntries_ok_iff {depth : ℕ} {items : List (Key × PyValue F)}
    {members : List (Text × Json)} (hmembers : pairsToJson items = some members)
    (hdepth : ∀ part ∈ pairParts depth items, part.1 ≤ 64) :
    (∃ texts, writeEntries interp depth items = .ok texts) ↔
      Accepted interp (pairParts depth items) := by
  match items with
  | [] => exact iff_of_true ⟨_, rfl⟩ (forall_mem_nil _)
  | (.other _, _) :: _ => cases hmembers
  | (.str name, value) :: items =>
    simp only [pairsToJson, bind_eq_bind, bind_eq_some_iff] at hmembers
    obtain ⟨json, hjson, others, hothers, heq⟩ := hmembers
    obtain ⟨hvalueDepth, hitemsDepth⟩ := forall_mem_append.mp hdepth
    have hitems := writeEntries_ok_iff hothers hitemsDepth
    have happend : Accepted interp (pairParts depth ((.str name, value) :: items)) ↔
        Accepted interp (parts depth value) ∧ Accepted interp (pairParts depth items) :=
      forall_mem_append
    rw [happend, ← hitems]
    by_cases hnone : value = .none
    · subst hnone
      have hnone : Accepted interp (parts depth .none) := forall_mem_singleton.mpr rfl
      rw [writeEntries]
      exact (and_iff_right hnone).symm
    · split at heq
      · next hutf8 =>
        obtain ⟨s, hs⟩ := isSome_iff_exists.mp hutf8
        have hkey : writeKey (.str name) = .ok (writeJsonStrOa s) :=
          writeStr_eq_ok_iff.mpr ⟨s, hs, rfl⟩
        rw [writeEntries_cons interp hnone, hkey, ← writeOpenapiJson_ok_iff hjson hvalueDepth]
        exact exists_ok_bind_iff _ _ _
      · cases heq

end

/-- The text is that of the document without its null members exactly when no list holds a
dictionary with an entry `None`, and nothing in the document is refused: there, an integer
with more digits than `str()` writes. -/
theorem pyOpenapiDictToJsonBytes_iff (interp : Interpreter F) {items : List (Key × PyValue F)}
    {json : Json} (hjson : toJson (.dict items) = some json)
    (hdepth : ∀ part ∈ parts 0 (.dict items), part.1 ≤ 64) :
    (∃ text, pyOpenapiDictToJsonBytes interp (.dict items) = .ok text ∧ Json.Valid text ∧
        Json.parse text = some (dropNulls json)) ↔
      nullInArray json = false ∧ Accepted interp (parts 0 (.dict items)) := by
  have hbytes {text : Bytes} : pyOpenapiDictToJsonBytes interp (.dict items) = .ok text ↔
      writeOpenapiJson interp 0 (.dict items) = .ok text := by
    rw [pyOpenapiDictToJsonBytes]
    cases writeOpenapiJson interp 0 (.dict items) with
    | error error => exact iff_of_false (fun h => nomatch h) fun h => nomatch h
    | ok buf =>
      constructor
      · intro h
        cases h
        rfl
      · intro h
        cases h
        rfl
  rw [← dropOuterNulls_eq_iff, ← writeOpenapiJson_ok_iff hjson hdepth]
  constructor
  · rintro ⟨text, htext, -, hparse⟩
    rw [hbytes] at htext
    rw [(spells_writeOpenapiJson htext hjson).parse] at hparse
    exact ⟨Option.some.inj hparse, text, htext⟩
  · rintro ⟨hdrop, text, htext⟩
    have hspells := (spells_writeOpenapiJson htext hjson).parse
    refine ⟨text, hbytes.mpr htext, Json.valid_of_parse hspells, ?_⟩
    rw [hspells, hdrop]

def tagsDict : PyValue Unit :=
  .dict [(.str (plainText "summary"), .none), (.str (plainText "tags"), .list [.dict []])]

theorem pyOpenapiDictToJsonBytes_iff_tags :
    ∃ text, pyOpenapiDictToJsonBytes oneFloat tagsDict = .ok text ∧ Json.Valid text ∧
      Json.parse text = some (.object [(plainText "tags", .array [.object []])]) := by
  have hjson : toJson tagsDict = some (.object [(plainText "summary", .null),
      (plainText "tags", .array [.object []])]) := by rfl
  have hdepth : ∀ part ∈ parts 0 tagsDict, part.1 ≤ 64 := by
    simp only [tagsDict, parts, pairParts, itemParts, append_nil, mem_cons,
      mem_append, not_mem_nil, or_false]
    rintro part (rfl | rfl | rfl | rfl) <;> decide
  have haccepted : Accepted oneFloat (parts 0 tagsDict) := by
    simp only [Accepted, tagsDict, parts, pairParts, itemParts, append_nil, mem_cons,
      mem_append, not_mem_nil, or_false]
    rintro part (rfl | rfl | rfl | rfl) <;> rfl
  exact (pyOpenapiDictToJsonBytes_iff _ hjson hdepth).mpr ⟨rfl, haccepted⟩

def parametersDict : PyValue Unit :=
  .dict [(.str (plainText "parameters"), .list [.dict [(.str (plainText "description"), .none)]])]

theorem pyOpenapiDictToJsonBytes_keeps_none :
    ¬ ∀ (items : List (Key × PyValue Unit)) (json : Json), toJson (.dict items) = some json →
      (∀ part ∈ parts 0 (.dict items), part.1 ≤ 64) →
      ∃ text, pyOpenapiDictToJsonBytes oneFloat (.dict items) = .ok text ∧ Json.Valid text ∧
        Json.parse text = some (dropNulls json) := by
  intro h
  have hwritten : pyOpenapiDictToJsonBytes oneFloat parametersDict =
      .ok (ascii "\x7b\"parameters\":[\x7b\"description\":null\x7d]\x7d") := by rfl
  have hdepth : ∀ part ∈ parts 0 parametersDict, part.1 ≤ 64 := by
    simp only [parametersDict, parts, pairParts, itemParts, append_nil, mem_cons,
      not_mem_nil, or_false]
    rintro part (rfl | rfl | rfl | rfl) <;> decide
  obtain ⟨text, htext, -, hparse⟩ := h _ _ (by rfl) hdepth
  have heq := Except.ok.inj (hwritten.symm.trans htext)
  subst heq
  have hfound : Json.parse (ascii "\x7b\"parameters\":[\x7b\"description\":null\x7d]\x7d") =
      some (.object [(plainText "parameters",
        .array [.object [(plainText "description", .null)]])]) := by rfl
  cases hparse

end AstraApi.OpenApi
