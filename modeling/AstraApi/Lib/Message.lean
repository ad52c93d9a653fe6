import Mathlib.Data.List.DropRight
import AstraApi.Lib.Bytes

/-!
# Reading a message

A message of HTTP/1.1 is a start line, field lines, an empty line and content.  A
recipient ends a line at a line feed, with or without a carriage return before it,
and refuses any other carriage return.
-/

namespace AstraApi.Message

open List Option

def cr : Byte := 13
def lf : Byte := 10
def colon : Byte := 58
def crlf : Bytes := [cr, lf]

/-- No carriage return and no line feed. -/
def CrlfFree (bytes : Bytes) : Prop := cr ∉ bytes ∧ lf ∉ bytes

instance (bytes : Bytes) : Decidable (CrlfFree bytes) :=
  inferInstanceAs (Decidable (cr ∉ bytes ∧ lf ∉ bytes))

theorem crlfFree_append {left right : Bytes} :
    CrlfFree (left ++ right) ↔ CrlfFree left ∧ CrlfFree right := by
  simp only [CrlfFree, mem_append, not_or]
  tauto

/-! ## Lines -/

/-- The bytes before the first line feed, and those after it. -/
def splitLine : Bytes → Option (Bytes × Bytes)
  | [] => none
  | b :: data =>
    if b = lf then some ([], data)
    else (splitLine data).map fun (line, rest) => (b :: line, rest)

def dropReturn (raw : Bytes) : Bytes :=
  if raw.getLast? = some cr then raw.dropLast else raw

def takeLine (data : Bytes) : Option (Bytes × Bytes) :=
  match splitLine data with
  | none => none
  | some (raw, rest) => if cr ∈ dropReturn raw then none else some (dropReturn raw, rest)

/-- The lines before the first empty one, and what comes after that. -/
def takeFields : ℕ → Bytes → Option (List Bytes × Bytes)
  | 0, _ => none
  | fuel + 1, data =>
    match takeLine data with
    | none => none
    | some (line, rest) =>
      if line = [] then some ([], rest)
      else (takeFields fuel rest).map fun (lines, content) => (line :: lines, content)

variable {line data content value : Bytes} {lines : List Bytes} {isHead : Bool}

theorem splitLine_append (h : lf ∉ line) (rest : Bytes) :
    splitLine (line ++ lf :: rest) = some (line, rest) := by
  induction line with
  | nil => simp [splitLine]
  | cons b line ih =>
    simp only [mem_cons, not_or] at h
    simp [splitLine, Ne.symm h.1, ih h.2]

theorem splitLine_eq_some {rest : Bytes} (h : splitLine data = some (line, rest)) :
    lf ∉ line ∧ data = line ++ lf :: rest := by
  induction data generalizing line with
  | nil => simp [splitLine] at h
  | cons b data ih =>
    simp only [splitLine] at h
    split at h
    · rename_i hb
      cases h
      simp [hb]
    · rename_i hb
      obtain ⟨⟨front, rest'⟩, hsplit, heq⟩ := map_eq_some_iff.mp h
      cases heq
      obtain ⟨hfree, hdata⟩ := ih hsplit
      exact ⟨by simp [hfree, Ne.symm hb], by simp [hdata]⟩

theorem takeLine_append (h : CrlfFree line) (rest : Bytes) :
    takeLine (line ++ crlf ++ rest) = some (line, rest) := by
  have hraw : lf ∉ line ++ [cr] := by
    simpa [h.2] using (by decide : lf ≠ cr)
  have hdata : line ++ crlf ++ rest = (line ++ [cr]) ++ lf :: rest := by simp [crlf]
  rw [takeLine, hdata, splitLine_append hraw]
  simp [dropReturn, h.1]

theorem takeLine_crlfFree {rest : Bytes} (h : takeLine data = some (line, rest)) :
    CrlfFree line := by
  simp only [takeLine] at h
  split at h
  · cases h
  · rename_i raw rest' hsplit
    split at h
    · cases h
    · rename_i hcr
      cases h
      refine ⟨hcr, ?_⟩
      intro hmem
      apply (splitLine_eq_some hsplit).1
      simp only [dropReturn] at hmem
      split at hmem
      · exact dropLast_subset _ hmem
      · exact hmem

theorem takeLine_lineFeeds {rest : Bytes} (h : takeLine data = some (line, rest)) :
    data.count lf = 1 + rest.count lf := by
  simp only [takeLine] at h
  split at h
  · cases h
  · rename_i raw rest' hsplit
    obtain ⟨hfree, hdata⟩ := splitLine_eq_some hsplit
    split at h
    · cases h
    · cases h
      rw [hdata, count_append, count_eq_zero_of_not_mem hfree, count_cons_self]
      omega

def writeFields (lines : List Bytes) (content : Bytes) : Bytes :=
  lines.flatMap (fun line => line ++ crlf) ++ crlf ++ content

theorem writeFields_cons (line : Bytes) (lines : List Bytes) (content : Bytes) :
    writeFields (line :: lines) content = line ++ crlf ++ writeFields lines content := by
  simp [writeFields]

theorem length_lt_writeFields (lines : List Bytes) (content : Bytes) :
    lines.length < (writeFields lines content).length := by
  induction lines with
  | nil => simp [writeFields, crlf]
  | cons line lines ih =>
    have hcrlf : crlf.length = 2 := rfl
    simp only [writeFields_cons, length_append, length_cons, hcrlf]
    omega

theorem takeFields_write (h : ∀ line ∈ lines, CrlfFree line ∧ line ≠ [])
    (content : Bytes) {fuel : ℕ} (hfuel : lines.length < fuel) :
    takeFields fuel (writeFields lines content) = some (lines, content) := by
  induction lines generalizing fuel with
  | nil =>
    obtain ⟨fuel, rfl⟩ := Nat.exists_eq_add_of_lt hfuel
    have hfree : CrlfFree [] := by decide
    have hempty := takeLine_append hfree content
    simp only [nil_append] at hempty
    simp [takeFields, writeFields, hempty]
  | cons line lines ih =>
    cases fuel with
    | zero => simp at hfuel
    | succ fuel =>
      have hline := h _ mem_cons_self
      have hrest := ih (fun other hmem => h _ (mem_cons_of_mem _ hmem))
        (Nat.lt_of_succ_lt_succ hfuel)
      rw [writeFields_cons, takeFields, takeLine_append hline.1]
      simp [hline.2, hrest]

theorem takeFields_crlfFree {fuel : ℕ}
    (h : takeFields fuel data = some (lines, content)) :
    ∀ line ∈ lines, CrlfFree line ∧ line ≠ [] := by
  induction fuel generalizing data lines with
  | zero => cases h
  | succ fuel ih =>
    simp only [takeFields] at h
    split at h
    · cases h
    · rename_i line rest htake
      split at h
      · cases h
        simp
      · rename_i hne
        obtain ⟨⟨lines', content'⟩, hrest, heq⟩ := map_eq_some_iff.mp h
        cases heq
        intro other hmem
        rcases mem_cons.mp hmem with rfl | hmem
        · exact ⟨takeLine_crlfFree htake, hne⟩
        · exact ih hrest _ hmem

/-! ## Messages -/

def readMessage (data : Bytes) : Option (Bytes × List Bytes × Bytes) :=
  match takeLine data with
  | none => none
  | some (start, rest) =>
    (takeFields (rest.length + 1) rest).map fun (lines, content) => (start, lines, content)

/-- Each field line is written behind the end of the line before it. -/
def writeMessage (start : Bytes) (lines : List Bytes) (content : Bytes) : Bytes :=
  start ++ lines.flatMap (fun line => crlf ++ line) ++ crlf ++ crlf ++ content

theorem flatMap_crlf (lines : List Bytes) :
    lines.flatMap (fun line => crlf ++ line) ++ crlf =
      crlf ++ lines.flatMap (fun line => line ++ crlf) := by
  induction lines with
  | nil => simp
  | cons line lines ih => simp [ih]

theorem writeMessage_eq (start : Bytes) (lines : List Bytes) (content : Bytes) :
    writeMessage start lines content = start ++ crlf ++ writeFields lines content := by
  calc writeMessage start lines content
      = start ++ (lines.flatMap (fun line => crlf ++ line) ++ crlf) ++ crlf ++ content := by
        simp [writeMessage]
    _ = start ++ crlf ++ writeFields lines content := by
        rw [flatMap_crlf]
        simp [writeFields]

theorem readMessage_crlfFree {start : Bytes}
    (h : readMessage data = some (start, lines, content)) :
    CrlfFree start ∧ ∀ line ∈ lines, CrlfFree line ∧ line ≠ [] := by
  simp only [readMessage] at h
  split at h
  · cases h
  · rename_i start' rest htake
    obtain ⟨⟨lines', content'⟩, hfields, heq⟩ := map_eq_some_iff.mp h
    cases heq
    exact ⟨takeLine_crlfFree htake, takeFields_crlfFree hfields⟩

theorem readMessage_write_iff (start : Bytes) (lines : List Bytes) (content : Bytes) :
    readMessage (writeMessage start lines content) = some (start, lines, content) ↔
      CrlfFree start ∧ ∀ line ∈ lines, CrlfFree line ∧ line ≠ [] := by
  rw [writeMessage_eq]
  constructor
  · exact readMessage_crlfFree
  · rintro ⟨hstart, hlines⟩
    have hfuel : lines.length < (writeFields lines content).length + 1 :=
      Nat.lt_succ_of_lt (length_lt_writeFields _ _)
    rw [readMessage, takeLine_append hstart]
    simp only [takeFields_write hlines _ hfuel]
    rfl

theorem takeFields_lineFeeds {fuel : ℕ}
    (h : takeFields fuel data = some (lines, content)) :
    data.count lf = lines.length + 1 + content.count lf := by
  induction fuel generalizing data lines with
  | zero => cases h
  | succ fuel ih =>
    simp only [takeFields] at h
    split at h
    · cases h
    · rename_i line rest htake
      have hcount := takeLine_lineFeeds htake
      split at h
      · cases h
        omega
      · obtain ⟨⟨lines', content'⟩, hrest, heq⟩ := map_eq_some_iff.mp h
        cases heq
        have hmore := ih hrest
        simp only [length_cons] at hmore ⊢
        omega

theorem readMessage_lineFeeds {start : Bytes}
    (h : readMessage data = some (start, lines, content)) :
    data.count lf = lines.length + 2 + content.count lf := by
  simp only [readMessage] at h
  split at h
  · cases h
  · rename_i start' rest htake
    obtain ⟨⟨lines', content'⟩, hfields, heq⟩ := map_eq_some_iff.mp h
    cases heq
    have hstart := takeLine_lineFeeds htake
    have hlines := takeFields_lineFeeds hfields
    simp only at hlines ⊢
    omega

/-! ## Fields -/

abbrev Field := Bytes × Bytes

def isOws (b : Byte) : Bool := b = 32 || b = 9

/-- A value without the whitespace around it. -/
def trim (value : Bytes) : Bytes := (value.dropWhile isOws).rdropWhile isOws

/-- The name before the first colon, and the value after it. -/
def readField (line : Bytes) : Option Field :=
  if colon ∈ line then
    some (line.takeWhile (· ≠ colon), trim ((line.dropWhile (· ≠ colon)).drop 1))
  else none

def fieldLine (field : Field) : Bytes := field.1 ++ ascii ": " ++ field.2

/-- A field as a recipient sees it. -/
def trimmed (field : Field) : Field := (field.1, trim field.2)

variable {fields : List Field}

theorem fieldLine_ne_nil (field : Field) : fieldLine field ≠ [] := by
  have hcolon : ascii ": " ≠ [] := by decide
  simp [fieldLine, hcolon]

theorem crlfFree_fieldLine {field : Field} :
    CrlfFree (fieldLine field) ↔ CrlfFree field.1 ∧ CrlfFree field.2 := by
  have hcolon : CrlfFree (ascii ": ") := by decide
  simp only [fieldLine, crlfFree_append]
  tauto

theorem forall₂_readField (h : lines.mapM readField = some fields) :
    List.Forall₂ (fun line field => readField line = some field) lines fields := by
  induction lines generalizing fields with
  | nil =>
    cases h
    exact List.Forall₂.nil
  | cons line lines ih =>
    simp only [mapM_cons, bind_eq_bind, bind_eq_some_iff] at h
    obtain ⟨field, hfield, rest, hrest, heq⟩ := h
    cases heq
    exact List.Forall₂.cons hfield (ih hrest)

/-- A field that is written as one line. -/
structure Clean (field : Field) : Prop where
  name : CrlfFree field.1
  value : CrlfFree field.2
  colonFree : colon ∉ field.1

theorem Clean.of_name {name : Bytes} (hname : CrlfFree name ∧ colon ∉ name)
    (hvalue : CrlfFree value) : Clean (name, value) :=
  ⟨hname.1, hvalue, hname.2⟩

theorem trim_space (value : Bytes) : trim (32 :: value) = trim value := by
  simp [trim, isOws]

theorem trim_of_forall (h : ∀ b ∈ value, isOws b = false) :
    trim value = value := by
  have hows : ∀ b ∈ value, ¬ isOws b = true := by
    intro b hb
    rw [h b hb]
    exact Bool.false_ne_true
  have hleft : value.dropWhile isOws = value :=
    dropWhile_eq_self_iff.mpr fun hlength => hows _ (getElem_mem hlength)
  have hright : value.rdropWhile isOws = value :=
    rdropWhile_eq_self_iff.mpr fun hne => hows _ (getLast_mem hne)
  rw [trim, hleft, hright]

theorem readField_fieldLine_iff (field : Field) :
    readField (fieldLine field) = some (trimmed field) ↔ colon ∉ field.1 := by
  have hline : fieldLine field = field.1 ++ colon :: 32 :: field.2 := by
    simp [fieldLine, ascii, colon]
  have hmem : colon ∈ fieldLine field := by simp [hline]
  rw [readField, if_pos hmem]
  constructor
  · intro h
    have hname : (fieldLine field).takeWhile (· ≠ colon) = field.1 :=
      congrArg Prod.fst (Option.some.inj h)
    rw [← hname]
    intro hcolon
    simpa using mem_takeWhile_imp hcolon
  · intro hname
    have hbytes : ∀ b ∈ field.1, (decide (b ≠ colon)) = true := by
      intro b hb
      simp only [ne_eq, decide_not, Bool.not_eq_true', decide_eq_false_iff_not]
      intro heq
      exact hname (heq ▸ hb)
    rw [hline, takeWhile_append_of_pos hbytes, dropWhile_append_of_pos hbytes,
      takeWhile_cons_of_neg (by simp), dropWhile_cons_of_neg (by simp)]
    simp [trim_space, trimmed]

theorem mapM_readField (h : ∀ field ∈ fields, colon ∉ field.1) :
    (fields.map fieldLine).mapM readField = some (fields.map trimmed) := by
  induction fields with
  | nil => rfl
  | cons field fields ih =>
    have hfield := (readField_fieldLine_iff _).mpr (h _ mem_cons_self)
    have hrest := ih fun other hmem => h _ (mem_cons_of_mem _ hmem)
    simp [hfield, hrest]

theorem mem_trim {b : Byte} (hb : isOws b = false) :
    b ∈ trim value ↔ b ∈ value := by
  have hfront (value : Bytes) : b ∈ value.dropWhile isOws ↔ b ∈ value := by
    constructor
    · intro h
      exact (dropWhile_suffix _).subset h
    · intro h
      rw [← takeWhile_append_dropWhile (p := isOws) (l := value)] at h
      rcases mem_append.mp h with h | h
      · have hows := mem_takeWhile_imp h
        rw [hb] at hows
        cases hows
      · exact h
  rw [trim, List.rdropWhile, mem_reverse, hfront, mem_reverse, hfront]

theorem crlfFree_trim : CrlfFree (trim value) ↔ CrlfFree value := by
  have hcr : isOws cr = false := by decide
  have hlf : isOws lf = false := by decide
  simp [CrlfFree, mem_trim hcr, mem_trim hlf]

theorem subset_of_readField {field : Field} (h : readField line = some field) :
    field.1 ⊆ line ∧ field.2 ⊆ line := by
  have htrim (value : Bytes) : trim value ⊆ value := by
    intro b hb
    have hfront := rdropWhile_prefix isOws (l := value.dropWhile isOws)
    exact (dropWhile_suffix _).subset (hfront.subset hb)
  simp only [readField] at h
  split at h
  · cases h
    constructor
    · exact (List.takeWhile_prefix _).subset
    · intro b hb
      exact (dropWhile_suffix _).subset (drop_subset _ _ (htrim _ hb))
  · cases h

theorem crlfFree_of_readField {field : Field} (hline : CrlfFree line)
    (h : readField line = some field) : CrlfFree field.2 := by
  have hsub := (subset_of_readField h).2
  exact ⟨fun hcr => hline.1 (hsub hcr), fun hlf => hline.2 (hsub hlf)⟩

theorem crlfFree_of_forall₂ (hlines : ∀ line ∈ lines, CrlfFree line)
    (hfields : List.Forall₂ (fun line field => readField line = some field) lines fields) :
    ∀ field ∈ fields, CrlfFree field.2 := by
  induction hfields with
  | nil => simp
  | cons hfield hrest ih =>
    intro field hmem
    rcases mem_cons.mp hmem with rfl | hmem
    · exact crlfFree_of_readField (hlines _ mem_cons_self) hfield
    · exact ih (fun line hline => hlines _ (mem_cons_of_mem _ hline)) _ hmem

/-! ## Responses -/

def isDigit (b : Byte) : Bool := 48 ≤ b && b ≤ 57

def digitsValue (digits : Bytes) : ℕ :=
  digits.foldl (fun value b => value * 10 + (b.toNat - 48)) 0

def readDecimal (digits : Bytes) : Option ℕ :=
  if digits ≠ [] ∧ digits.all isDigit then some (digitsValue digits) else none

/-- The code of a status line. -/
def readStatus (start : Bytes) : Option ℕ :=
  if ascii "HTTP/1.1 " <+: start then
    readDecimal ((start.drop (ascii "HTTP/1.1 ").length).takeWhile (· ≠ 32))
  else none

structure Response where
  status : ℕ
  fields : List Field
  content : Bytes

def lowerCase (b : Byte) : Byte := if 65 ≤ b ∧ b ≤ 90 then b + 32 else b

def contentLength (fields : List Field) : Option ℕ :=
  match fields.find? fun field => field.1.map lowerCase = ascii "content-length" with
  | none => none
  | some field => readDecimal field.2

/-- One response to a `HEAD` request or another, and nothing behind it. -/
def readResponse (isHead : Bool) (data : Bytes) : Option Response :=
  match readMessage data with
  | none => none
  | some (start, lines, rest) =>
    match readStatus start, lines.mapM readField with
    | some status, some fields =>
      if isHead ∨ status = 204 ∨ status = 304 then
        if rest = [] then some ⟨status, fields, []⟩ else none
      else if contentLength fields = some rest.length then some ⟨status, fields, rest⟩
      else none
    | _, _ => none

theorem readResponse_write {start : Bytes}
    {status : ℕ} (hstart : CrlfFree start) (hstatus : readStatus start = some status)
    (hfields : ∀ field ∈ fields, Clean field) :
    readResponse isHead (writeMessage start (fields.map fieldLine) content) =
      if isHead ∨ status = 204 ∨ status = 304 then
        if content = [] then some ⟨status, fields.map trimmed, []⟩ else none
      else if contentLength (fields.map trimmed) = some content.length then
        some ⟨status, fields.map trimmed, content⟩
      else none := by
  have hlines : ∀ line ∈ fields.map fieldLine, CrlfFree line ∧ line ≠ [] := by
    intro line hline
    obtain ⟨field, hfield, rfl⟩ := mem_map.mp hline
    have hclean := hfields _ hfield
    exact ⟨crlfFree_fieldLine.mpr ⟨hclean.name, hclean.value⟩, fieldLine_ne_nil _⟩
  have hread := (readMessage_write_iff _ _ content).mpr ⟨hstart, hlines⟩
  have hparsed := mapM_readField fun field hfield => (hfields _ hfield).colonFree
  simp [readResponse, hread, hstatus, hparsed]

theorem readResponse_eq_some {response : Response}
    (h : readResponse isHead data = some response) :
    ∃ start lines, readMessage data = some (start, lines, response.content) ∧
      List.Forall₂ (fun line field => readField line = some field) lines response.fields := by
  simp only [readResponse] at h
  split at h
  · cases h
  · rename_i start lines rest hread
    split at h
    · rename_i status fields hstatus hfields
      split at h
      · split at h
        · rename_i hrest
          cases h
          exact ⟨start, lines, hrest ▸ hread, forall₂_readField hfields⟩
        · cases h
      · split at h
        · cases h
          exact ⟨start, lines, hread, forall₂_readField hfields⟩
        · cases h
    · cases h

theorem readResponse_lineFeeds {response : Response}
    (h : readResponse isHead data = some response) :
    data.count lf = response.fields.length + 2 + response.content.count lf := by
  obtain ⟨start, lines, hread, hfields⟩ := readResponse_eq_some h
  rw [readMessage_lineFeeds hread, hfields.length_eq]

theorem readResponse_crlfFree {response : Response}
    (h : readResponse isHead data = some response) :
    ∀ field ∈ response.fields, CrlfFree field.2 := by
  obtain ⟨start, lines, hread, hfields⟩ := readResponse_eq_some h
  have hlines := (readMessage_crlfFree hread).2
  exact crlfFree_of_forall₂ (fun line hline => (hlines _ hline).1) hfields

end AstraApi.Message
