import AstraApi.Dispatch.Parameters
import AstraApi.Lib.Grouping
import AstraApi.Multipart.Parser

/-!
# Keyword arguments of a form

`build_kwargs` puts the fields of a multipart form into the dictionary one over the
other, and then adds the files, where a name that is there already becomes a list.  The
branch for URL-encoded forms makes such lists of fields too.
-/

namespace AstraApi.Multipart

open List
open Bytes Grouping
open AstraApi.Deps (Name Kwargs)
open AstraApi.Dispatch (IsUtf8 pyUnicode percentDecode querySegments exists_pyUnicode_iff)

structure UploadFile where
  filename : String
  file : Bytes
  contentType : String
  size : ℕ
  deriving DecidableEq

inductive FormValue where
  | text (value : String)
  | upload (file : UploadFile)
  deriving DecidableEq

abbrev FormKwargs := Kwargs (Grouped FormValue)

/-! ## Multipart forms -/

def fieldItem (field : MultipartField) : Option (Name × FormValue) := do
  let key ← pyUnicode field.name
  let val ← pyUnicode field.value
  some (key, .text val)

/-- The file with its name; `none` stands for a null pointer. -/
def fileItem (file : MultipartFile) : Option (Name × FormValue) := do
  let fn ← pyUnicode file.filename
  let ct ← pyUnicode file.contentType
  let key ← pyUnicode file.name
  some (key, .upload
    { filename := fn, file := file.dataBuf, contentType := ct, size := file.dataBuf.length })

/-- `PyDict_SetItem`, or nothing for a text that is not UTF-8. -/
def addField (kwargs : FormKwargs) (field : MultipartField) : FormKwargs :=
  match fieldItem field with
  | some item => kwargs.set item.1 (.single item.2)
  | none => kwargs

/-- A file is appended to what the dictionary has under its name.  With a text that is not UTF-8,
the call ends with a null pointer and leaves the dictionary as it is. -/
def addFile (kwargs : FormKwargs) (file : MultipartFile) : Except FormKwargs FormKwargs :=
  match fileItem file with
  | some item => .ok (kwargs.set item.1 (Grouped.add item.2 (kwargs item.1)))
  | none => .error kwargs

def buildKwargs (existingKwargs : FormKwargs) (fields : List MultipartField)
    (files : List MultipartFile) : Except FormKwargs FormKwargs :=
  files.foldlM addFile (fields.foldl addField existingKwargs)

/-! ## URL-encoded forms -/

def segmentItem (segment : Bytes × Bytes) : Option (Name × FormValue) := do
  let pk ← pyUnicode (percentDecode segment.1)
  let pv ← pyUnicode (percentDecode segment.2)
  some (pk, .text pv)

def addSegment (form : FormKwargs) (segment : Bytes × Bytes) : FormKwargs :=
  match segmentItem segment with
  | some item => form.set item.1 (Grouped.add item.2 (form item.1))
  | none => form

def urlencodedForm (body : Bytes) : FormKwargs := (querySegments body).foldl addSegment Kwargs.empty

/-! ## All values -/

def submitted (fields : List MultipartField) (files : List MultipartFile) : List (Name × FormValue) :=
  fields.filterMap fieldItem ++ files.filterMap fileItem

theorem urlencodedForm_eq (body : Bytes) :
    urlencodedForm body = group ((querySegments body).filterMap segmentItem) := by
  have hfold : ∀ (segments : List (Bytes × Bytes)) (form : FormKwargs),
      segments.foldl addSegment form = (segments.filterMap segmentItem).foldl addValue form := by
    intro segments form
    rw [foldl_filterMap]
    congr 1
    funext form segment
    rw [addSegment]
    cases segmentItem segment with
    | none => rfl
    | some item => rfl
  exact hfold _ _

theorem foldl_addField (fields : List MultipartField) (kwargs : FormKwargs) :
    fields.foldl addField kwargs = (fields.filterMap fieldItem).foldl replaceValue kwargs := by
  rw [foldl_filterMap]
  congr 1
  funext kwargs field
  rw [addField]
  cases fieldItem field with
  | none => rfl
  | some item => rfl

theorem exists_fieldItem {field : MultipartField} (hname : IsUtf8 field.name)
    (hvalue : IsUtf8 field.value) : ∃ item, fieldItem field = some item ∧
      pyUnicode field.name = some item.1 := by
  have ⟨key, hkey⟩ := (exists_pyUnicode_iff _).mpr hname
  have ⟨val, hval⟩ := (exists_pyUnicode_iff _).mpr hvalue
  refine ⟨(key, .text val), ?_, hkey⟩
  rw [fieldItem, hkey, hval]
  rfl

theorem exists_fileItem {file : MultipartFile}
    (h : IsUtf8 file.name ∧ IsUtf8 file.filename ∧ IsUtf8 file.contentType) :
    ∃ item, fileItem file = some item := by
  have ⟨key, hkey⟩ := (exists_pyUnicode_iff _).mpr h.1
  have ⟨fn, hfn⟩ := (exists_pyUnicode_iff _).mpr h.2.1
  have ⟨ct, hct⟩ := (exists_pyUnicode_iff _).mpr h.2.2
  rw [fileItem, hkey, hfn, hct]
  exact ⟨_, rfl⟩

theorem foldlM_addFile {files : List MultipartFile}
    (h : ∀ file ∈ files, IsUtf8 file.name ∧ IsUtf8 file.filename ∧ IsUtf8 file.contentType)
    (kwargs : FormKwargs) :
    files.foldlM addFile kwargs = .ok ((files.filterMap fileItem).foldl addValue kwargs) := by
  induction files generalizing kwargs with
  | nil => rfl
  | cons file files ih =>
    rw [forall_mem_cons] at h
    have ⟨item, hitem⟩ := exists_fileItem h.1
    have hadd : addFile kwargs file = .ok (addValue kwargs item) := by rw [addFile, hitem]; rfl
    rw [foldlM_cons, hadd, filterMap_cons, hitem]
    exact ih h.2 _

/-- A text is determined by the string that is made of it. -/
theorem pyUnicode_inj {left right : Bytes} {text : String} (hleft : pyUnicode left = some text)
    (hright : pyUnicode right = some text) : left = right := by
  have hbytes : ∀ {bytes : Bytes}, pyUnicode bytes = some text → text.toByteArray = ⟨bytes.toArray⟩ := by
    intro bytes h
    rw [pyUnicode, String.fromUTF8?] at h
    split at h
    · rw [← Option.some.inj h]
      rfl
    · cases h
  have hsame := (hbytes hleft).symm.trans (hbytes hright)
  exact Array.toList_inj.mpr (ByteArray.mk.inj hsame)

/-- The keys are distinct exactly if the names are. -/
theorem nodup_fieldItem_iff {fields : List MultipartField}
    (h : ∀ field ∈ fields, IsUtf8 field.name ∧ IsUtf8 field.value) :
    ((fields.filterMap fieldItem).map Prod.fst).Nodup ↔ (fields.map MultipartField.name).Nodup := by
  have hkeys : (fields.filterMap fieldItem).map (fun item => some item.1) =
      (fields.map MultipartField.name).map pyUnicode := by
    induction fields with
    | nil => rfl
    | cons field fields ih =>
      rw [forall_mem_cons] at h
      have ⟨item, hitem, hkey⟩ := exists_fieldItem h.1.1 h.1.2
      rw [filterMap_cons, hitem, map_cons, map_cons, map_cons, ih h.2, hkey]
  have hsome : (fields.filterMap fieldItem).map (fun item => some item.1) =
      ((fields.filterMap fieldItem).map Prod.fst).map some := by rw [map_map]; rfl
  have hinj : ∀ left ∈ fields.map MultipartField.name, ∀ right ∈ fields.map MultipartField.name,
      pyUnicode left = pyUnicode right → left = right := by
    intro left hleft right hright heq
    have ⟨field, hfield, hname⟩ := mem_map.mp hleft
    have ⟨text, htext⟩ := (exists_pyUnicode_iff _).mpr (hname ▸ (h _ hfield).1)
    exact pyUnicode_inj htext (heq ▸ htext)
  rw [← nodup_map_iff (Option.some_injective _), ← hsome, hkeys]
  exact ⟨List.Nodup.of_map _, List.Nodup.map_on hinj⟩

/-- Every name has all its values, and a form without files is grouped as a URL-encoded one. -/
structure KeepsValues (fields : List MultipartField) (files : List MultipartFile)
    (kwargs : FormKwargs) : Prop where
  values : ∀ name, kwargs name = entryOf (valuesOf name (submitted fields files))
  urlencoded : files = [] → ∀ body, (querySegments body).filterMap segmentItem =
    fields.filterMap fieldItem → kwargs = urlencodedForm body

/-- All values of a form are kept if and only if the names of its fields are distinct. -/
theorem buildKwargs_keeps_iff {fields : List MultipartField} {files : List MultipartFile}
    (hfields : ∀ field ∈ fields, IsUtf8 field.name ∧ IsUtf8 field.value)
    (hfiles : ∀ file ∈ files, IsUtf8 file.name ∧ IsUtf8 file.filename ∧ IsUtf8 file.contentType) :
    (∃ kwargs, buildKwargs Kwargs.empty fields files = .ok kwargs ∧
      KeepsValues fields files kwargs) ↔ (fields.map MultipartField.name).Nodup := by
  have hbuilt : buildKwargs Kwargs.empty fields files =
      .ok ((files.filterMap fileItem).foldl addValue
        ((fields.filterMap fieldItem).foldl replaceValue fun _ => none)) := by
    rw [buildKwargs, foldlM_addFile hfiles, foldl_addField]
    rfl
  rw [← nodup_fieldItem_iff hfields, ← addValue_replaceValue_iff]
  constructor
  · rintro ⟨kwargs, hkwargs, hkeeps⟩
    rw [← Except.ok.inj (hbuilt.symm.trans hkwargs)] at hkeeps
    funext name
    rw [hkeeps.values, group_apply]
    rfl
  · intro hall
    refine ⟨_, hbuilt, ?_, ?_⟩
    · intro name
      rw [hall, group_apply]
      rfl
    · intro hnone body hsame
      rw [hall, urlencodedForm_eq, hsame, hnone, filterMap_nil, append_nil]

def tickedTwice : List MultipartField := [⟨ascii "tag", ascii "a"⟩, ⟨ascii "tag", ascii "b"⟩]

theorem buildKwargs_keeps_file :
    ∃ kwargs, buildKwargs Kwargs.empty [⟨ascii "tag", ascii "a"⟩]
        [⟨ascii "tag", ascii "f", ascii "text/plain", ascii "1"⟩] = .ok kwargs ∧
      KeepsValues [⟨ascii "tag", ascii "a"⟩]
        [⟨ascii "tag", ascii "f", ascii "text/plain", ascii "1"⟩] kwargs :=
  (buildKwargs_keeps_iff (by decide) (by decide)).mpr (by decide)

/-- The second value of a field replaces the first one. -/
theorem buildKwargs_loses_value :
    ¬ ∀ (fields : List MultipartField) (files : List MultipartFile),
      (∀ field ∈ fields, IsUtf8 field.name ∧ IsUtf8 field.value) →
      (∀ file ∈ files, IsUtf8 file.name ∧ IsUtf8 file.filename ∧ IsUtf8 file.contentType) →
      ∃ kwargs, buildKwargs Kwargs.empty fields files = .ok kwargs ∧
        KeepsValues fields files kwargs := by
  intro hall
  have ⟨kwargs, hkwargs, hkeeps⟩ := hall tickedTwice [] (by decide) (by decide)
  have hitems : submitted tickedTwice [] = [("tag", .text "a"), ("tag", .text "b")] := by decide
  have hlast : kwargs "tag" = some (.single (.text "b")) := by
    rw [← Except.ok.inj hkwargs]
    decide
  have hvalues := hkeeps.values "tag"
  rw [hlast, hitems] at hvalues
  exact absurd hvalues (by decide)

end AstraApi.Multipart
