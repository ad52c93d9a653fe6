import AstraApi.Lib.Message
import AstraApi.Lib.Occurrence

/-!
# Messages with supplied headers

A builder writes headers that it was given between headers of its own.  The message
is unsplit when a recipient finds the start line, the builder's headers, the
supplied ones and the content where they were written.
-/

namespace AstraApi.Message

open Option hiding map_id
open List
open Occurrence (firstOccurrence OccursAt)

variable {lines : List Bytes} {content start data rest : Bytes}

/-! ## Lines without a line feed -/

theorem takeLine_of_lfFree {line : Bytes} (h : lf ∉ line) (rest : Bytes) :
    takeLine (line ++ crlf ++ rest) = if cr ∈ line then none else some (line, rest) := by
  have hraw : lf ∉ line ++ [cr] := by
    simpa [h] using (by decide : lf ≠ cr)
  have hdata : line ++ crlf ++ rest = (line ++ [cr]) ++ lf :: rest := by simp [crlf]
  rw [takeLine, hdata, splitLine_append hraw]
  simp [dropReturn]

theorem crFree_of_takeFields {fuel : ℕ}
    {read : List Bytes × Bytes} (hlf : ∀ line ∈ lines, lf ∉ line) (hne : ∀ line ∈ lines, line ≠ [])
    (h : takeFields fuel (writeFields lines content) = some read) :
    ∀ line ∈ lines, cr ∉ line := by
  induction lines generalizing fuel read with
  | nil => simp
  | cons line lines ih =>
    cases fuel with
    | zero => cases h
    | succ fuel =>
      rw [writeFields_cons, takeFields, takeLine_of_lfFree (hlf _ mem_cons_self)] at h
      split_ifs at h with hcr
      simp only [hne _ mem_cons_self, if_false, map_eq_some_iff] at h
      obtain ⟨rest, hrest, -⟩ := h
      have hothers := ih (fun other hmem => hlf _ (mem_cons_of_mem _ hmem))
        (fun other hmem => hne _ (mem_cons_of_mem _ hmem)) hrest
      intro other hmem
      rcases mem_cons.mp hmem with rfl | hmem
      · exact hcr
      · exact hothers _ hmem

theorem writeMessage_lineFeeds (hstart : CrlfFree start) (lines : List Bytes)
    (content : Bytes) :
    (writeMessage start lines content).count lf =
      lines.length + (lines.map (List.count lf)).sum + 2 + content.count lf := by
  have hcrlf : crlf.count lf = 1 := by decide
  have hlines : (lines.flatMap fun line => crlf ++ line).count lf =
      lines.length + (lines.map (List.count lf)).sum := by
    induction lines with
    | nil => rfl
    | cons line lines ih =>
      simp only [flatMap_cons, count_append, hcrlf, ih, length_cons, map_cons, sum_cons]
      omega
  simp only [writeMessage, count_append, hcrlf, hlines, count_eq_zero_of_not_mem hstart.2]
  omega

/-- Where as few lines are read as were written, none had a line end inside. -/
theorem crlfFree_of_readMessage {start' : Bytes} {lines' : List Bytes}
    (hstart : CrlfFree start) (hne : ∀ line ∈ lines, line ≠ [])
    (h : readMessage (writeMessage start lines content) = some (start', lines', content))
    (hfew : lines'.length ≤ lines.length) :
    (∀ line ∈ lines, CrlfFree line) ∧ lines' = lines := by
  have hcount := readMessage_lineFeeds h
  rw [writeMessage_lineFeeds hstart] at hcount
  have hnone : (lines.map (List.count lf)).sum = 0 := by omega
  have hlf : ∀ line ∈ lines, lf ∉ line := by
    intro line hline
    apply count_eq_zero.mp
    exact sum_eq_zero_iff.mp hnone _ (mem_map_of_mem hline)
  have hcr : ∀ line ∈ lines, cr ∉ line := by
    rw [writeMessage_eq, readMessage, takeLine_append hstart] at h
    simp only [map_eq_some_iff] at h
    obtain ⟨read, hread, -⟩ := h
    exact crFree_of_takeFields hlf hne hread
  have hfree : ∀ line ∈ lines, CrlfFree line := fun line hline => ⟨hcr _ hline, hlf _ hline⟩
  have hread := (readMessage_write_iff _ _ content).mpr
    ⟨hstart, fun line hline => ⟨hfree _ hline, hne _ hline⟩⟩
  rw [hread] at h
  cases h
  exact ⟨hfree, rfl⟩

/-! ## Supplied headers -/

/-- Each carriage return and each line feed is replaced by a space. -/
def neutralised (bytes : Bytes) : Bytes :=
  bytes.map fun b => if b = cr ∨ b = lf then 32 else b

/-- What a recipient may read for a supplied header: the header itself; one with a
line end inside may be missing or neutralised. -/
def Treated (header : Field) (read : List Field) : Prop :=
  if CrlfFree header.1 ∧ CrlfFree header.2 then read = [trimmed header]
  else read = [] ∨ read = [trimmed (neutralised header.1, neutralised header.2)]

theorem Treated.length_le {header : Field} {read : List Field} (h : Treated header read) :
    read.length ≤ 1 := by
  simp only [Treated] at h
  split at h
  · simp [h]
  · rcases h with rfl | rfl <;> simp

def Unsplit (data start : Bytes) (before supplied after : List Field) (content : Bytes) : Prop :=
  ∃ lines treated, readMessage data = some (start, lines, content) ∧
    List.Forall₂ Treated supplied treated ∧
    lines.mapM readField =
      some (before.map trimmed ++ treated.flatten ++ after.map trimmed)

theorem flatten_length_le {supplied : List Field} {treated : List (List Field)}
    (h : List.Forall₂ Treated supplied treated) : treated.flatten.length ≤ supplied.length := by
  induction h with
  | nil => simp
  | cons hhead htail ih =>
    have hone := hhead.length_le
    simp only [flatten_cons, length_append, length_cons]
    omega

/-- As many fields are read as headers were supplied, so there is one for each. -/
theorem treated_of_forall₂ {α : Type*} {supplied : List α} {header : α → Field} {line : α → Bytes}
    {treated : List (List Field)} {read : List Field}
    (htreated : List.Forall₂ Treated (supplied.map header) treated)
    (hread : List.Forall₂ (fun line field => readField line = some field) (supplied.map line) read)
    (heq : read = treated.flatten) :
    ∀ item ∈ supplied, ∃ field, readField (line item) = some field ∧
      Treated (header item) [field] := by
  induction supplied generalizing treated read with
  | nil => simp
  | cons item supplied ih =>
    cases treated with
    | nil => cases htreated
    | cons first treated =>
      obtain ⟨hfirst, hrest⟩ := forall₂_cons.mp htreated
      cases read with
      | nil => cases hread
      | cons field read =>
        obtain ⟨hfield, hfields⟩ := forall₂_cons.mp hread
        have hlength := hfields.length_eq
        have hfew := flatten_length_le hrest
        have hone := hfirst.length_le
        simp only [length_map] at hlength hfew
        match first with
        | [] =>
          have htotal := congrArg List.length heq
          simp only [flatten_cons, nil_append, length_cons] at htotal
          omega
        | [only] =>
          simp only [flatten_cons, singleton_append, List.cons.injEq] at heq
          obtain ⟨rfl, hrestEq⟩ := heq
          intro other hmem
          rcases mem_cons.mp hmem with rfl | hmem
          · exact ⟨field, hfield, hfirst⟩
          · exact ih hrest hfields hrestEq _ hmem
        | _ :: _ :: _ => simp at hone

section Written

variable {start content : Bytes} {before after : List Field} {α : Type*} {supplied : List α}
  {header written : α → Field}

theorem mapM_around (hbefore : ∀ field ∈ before, Clean field)
    (hafter : ∀ field ∈ after, Clean field) (lines : List Bytes) :
    (before.map fieldLine ++ lines ++ after.map fieldLine).mapM readField =
      (lines.mapM readField).map fun read =>
        before.map trimmed ++ read ++ after.map trimmed := by
  have hfirst := mapM_readField fun field hfield => (hbefore _ hfield).colonFree
  have hlast := mapM_readField fun field hfield => (hafter _ hfield).colonFree
  rw [mapM_append, mapM_append, hfirst, hlast]
  cases lines.mapM readField <;> rfl

/-- A message in which a header is written for each one supplied is unsplit exactly
when no line end is written and each header is read as it may be. -/
theorem unsplit_write_iff (hstart : CrlfFree start) (hbefore : ∀ field ∈ before, Clean field)
    (hafter : ∀ field ∈ after, Clean field) :
    Unsplit (writeMessage start ((before ++ supplied.map written ++ after).map fieldLine) content)
        start before (supplied.map header) after content ↔
      ∀ item ∈ supplied, CrlfFree (fieldLine (written item)) ∧
        ∃ field, readField (fieldLine (written item)) = some field ∧
          Treated (header item) [field] := by
  have hne : ∀ line ∈ (before ++ supplied.map written ++ after).map fieldLine, line ≠ [] := by
    intro line hline
    obtain ⟨field, -, rfl⟩ := mem_map.mp hline
    exact fieldLine_ne_nil _
  have hlines : (before ++ supplied.map written ++ after).map fieldLine =
      before.map fieldLine ++ supplied.map (fun item => fieldLine (written item)) ++
        after.map fieldLine := by
    simp
  constructor
  · rintro ⟨lines, treated, hread, htreated, hfields⟩
    have hlength := (forall₂_readField hfields).length_eq
    have htotal := flatten_length_le htreated
    have hfew : lines.length ≤ ((before ++ supplied.map written ++ after).map fieldLine).length := by
      simp only [length_append, length_map] at hlength htotal ⊢
      omega
    obtain ⟨hfree, rfl⟩ := crlfFree_of_readMessage hstart hne hread hfew
    rw [hlines, mapM_around hbefore hafter] at hfields
    obtain ⟨read, hmiddle, heq⟩ := map_eq_some_iff.mp hfields
    have hsame : read = treated.flatten :=
      append_cancel_left (append_cancel_right heq)
    have hall := treated_of_forall₂ htreated (forall₂_readField hmiddle) hsame
    intro item hitem
    refine ⟨?_, hall _ hitem⟩
    apply hfree
    rw [hlines]
    exact mem_append_left _ (mem_append_right _ (mem_map_of_mem hitem))
  · intro h
    have hfree : ∀ line ∈ (before ++ supplied.map written ++ after).map fieldLine,
        CrlfFree line ∧ line ≠ [] := by
      intro line hline
      refine ⟨?_, hne _ hline⟩
      rw [hlines] at hline
      rcases mem_append.mp hline with hline | hline
      · rcases mem_append.mp hline with hline | hline
        · obtain ⟨field, hfield, rfl⟩ := mem_map.mp hline
          have hclean := hbefore _ hfield
          exact crlfFree_fieldLine.mpr ⟨hclean.name, hclean.value⟩
        · obtain ⟨item, hitem, rfl⟩ := mem_map.mp hline
          exact (h _ hitem).1
      · obtain ⟨field, hfield, rfl⟩ := mem_map.mp hline
        have hclean := hafter _ hfield
        exact crlfFree_fieldLine.mpr ⟨hclean.name, hclean.value⟩
    have hmiddle : ∃ treated, List.Forall₂ Treated (supplied.map header) treated ∧
        (supplied.map fun item => fieldLine (written item)).mapM readField =
          some treated.flatten := by
      clear hne hlines hfree
      induction supplied with
      | nil => exact ⟨[], List.Forall₂.nil, rfl⟩
      | cons item supplied ih =>
        obtain ⟨treated, htreated, hread⟩ := ih fun other hmem =>
          h _ (mem_cons_of_mem _ hmem)
        obtain ⟨-, field, hfield, hitem⟩ := h _ mem_cons_self
        refine ⟨[field] :: treated, List.Forall₂.cons hitem htreated, ?_⟩
        simp [hfield, hread]
    obtain ⟨treated, htreated, hread⟩ := hmiddle
    refine ⟨_, treated, (readMessage_write_iff _ _ _).mpr ⟨hstart, hfree⟩, htreated, ?_⟩
    rw [hlines, mapM_around hbefore hafter, hread]
    rfl

/-- Headers that are written as they were supplied must be clean. -/
theorem unsplit_write_self_iff {supplied : List Field} (hstart : CrlfFree start)
    (hbefore : ∀ field ∈ before, Clean field) (hafter : ∀ field ∈ after, Clean field) :
    Unsplit (writeMessage start ((before ++ supplied ++ after).map fieldLine) content)
        start before supplied after content ↔ ∀ field ∈ supplied, Clean field := by
  have hwritten : Unsplit
      (writeMessage start ((before ++ supplied.map id ++ after).map fieldLine) content) start before
      (supplied.map id) after content ↔ _ := unsplit_write_iff hstart hbefore hafter
  simp only [map_id, id_eq] at hwritten
  rw [hwritten]
  constructor
  · intro h field hfield
    obtain ⟨hfree, read, hread, htreated⟩ := h _ hfield
    have hparts := crlfFree_fieldLine.mp hfree
    rw [Treated, if_pos hparts, singleton_inj] at htreated
    rw [htreated] at hread
    exact ⟨hparts.1, hparts.2, (readField_fieldLine_iff _).mp hread⟩
  · intro h field hfield
    have hclean := h _ hfield
    have hparts : CrlfFree field.1 ∧ CrlfFree field.2 := ⟨hclean.name, hclean.value⟩
    refine ⟨crlfFree_fieldLine.mpr hparts, trimmed _,
      (readField_fieldLine_iff _).mpr hclean.colonFree, ?_⟩
    rw [Treated, if_pos hparts]

end Written

/-- A value of the builder with a line end inside is never read. -/
theorem crlfFree_of_unsplit {before supplied after : List Field}
    (h : Unsplit data start before supplied after content) :
    (∀ field ∈ before, CrlfFree field.2) ∧ ∀ field ∈ after, CrlfFree field.2 := by
  obtain ⟨lines, treated, hread, -, hfields⟩ := h
  have hlines := (readMessage_crlfFree hread).2
  have hfree := crlfFree_of_forall₂ (fun line hline => (hlines _ hline).1)
    (forall₂_readField hfields)
  constructor
  · intro field hfield
    apply crlfFree_trim.mp
    apply hfree (trimmed _)
    exact mem_append_left _ (mem_append_left _ (mem_map_of_mem hfield))
  · intro field hfield
    apply crlfFree_trim.mp
    apply hfree (trimmed _)
    exact mem_append_right _ (mem_map_of_mem hfield)

/-! ## A header without a line of its own -/

theorem splitLine_append_left {front : Bytes} (hfront : lf ∉ front) (data : Bytes) :
    splitLine (front ++ data) = (splitLine data).map fun (line, rest) => (front ++ line, rest) := by
  induction front with
  | nil => simp
  | cons b front ih =>
    simp only [mem_cons, not_or] at hfront
    rw [cons_append, splitLine, if_neg (Ne.symm hfront.1), ih hfront.2]
    cases splitLine data <;> rfl

theorem dropReturn_append {front : Bytes} (hfront : cr ∉ front) (raw : Bytes) :
    dropReturn (front ++ raw) = front ++ dropReturn raw := by
  rcases eq_nil_or_concat' raw with rfl | ⟨init, last, rfl⟩
  · have hlast : front.getLast? ≠ some cr := by
      intro h
      exact hfront (mem_of_getLast? h)
    simp [dropReturn, hlast]
  · by_cases hlast : last = cr
    · simp [dropReturn, hlast]
    · simp [dropReturn, hlast]

theorem takeLine_append_left {front line : Bytes} (hfront : CrlfFree front)
    (h : takeLine (front ++ data) = some (line, rest)) :
    ∃ tail, line = front ++ tail ∧ takeLine data = some (tail, rest) := by
  simp only [takeLine, splitLine_append_left hfront.2] at h ⊢
  cases hsplit : splitLine data with
  | none => simp [hsplit] at h
  | some split =>
    simp only [hsplit, map_some, dropReturn_append hfront.1, mem_append, hfront.1, false_or] at h ⊢
    split at h
    · cases h
    · rename_i hcr
      cases h
      exact ⟨_, rfl, by rw [if_neg hcr]⟩

theorem takeLine_eq_some {line : Bytes} (h : takeLine data = some (line, rest)) :
    ∃ raw, data = raw ++ lf :: rest ∧ line <+: raw ∧ raw.length ≤ line.length + 1 ∧
      ∀ b ∈ raw, b ∈ line ∨ b = cr := by
  simp only [takeLine] at h
  split at h
  · cases h
  · rename_i raw rest' hsplit
    split at h
    · cases h
    · cases h
      refine ⟨raw, (splitLine_eq_some hsplit).2, ?_⟩
      simp only [dropReturn]
      split
      · rename_i hlast
        have hraw : raw = raw.dropLast ++ [cr] := (dropLast_append_getLast? _ hlast).symm
        refine ⟨List.dropLast_prefix raw, by simp; omega, ?_⟩
        intro b hb
        rw [hraw] at hb
        simpa using hb
      · exact ⟨prefix_rfl, Nat.le_succ _, fun b hb => Or.inl hb⟩

theorem takeFields_lines {read : List Bytes} {fuel : ℕ}
    (hlines : ∀ line ∈ lines, CrlfFree line ∧ line ≠ [])
    (h : takeFields fuel (lines.flatMap (fun line => line ++ crlf) ++ data) = some (read, content)) :
    ∃ fuel rest, takeFields fuel data = some (rest, content) ∧ read = lines ++ rest := by
  induction lines generalizing fuel read with
  | nil => exact ⟨fuel, read, h, rfl⟩
  | cons line lines ih =>
    have hline := hlines _ mem_cons_self
    cases fuel with
    | zero => cases h
    | succ fuel =>
      rw [flatMap_cons, append_assoc, takeFields, takeLine_append hline.1] at h
      simp only [hline.2, if_false, map_eq_some_iff] at h
      obtain ⟨⟨read', content'⟩, hread, heq⟩ := h
      cases heq
      obtain ⟨fuel', rest, hrest, rfl⟩ := ih (fun other hmem =>
        hlines _ (mem_cons_of_mem _ hmem)) hread
      exact ⟨fuel', rest, hrest, rfl⟩

theorem filter_trim (value : Bytes) :
    (trim value).filter (fun b => !isOws b) = value.filter fun b => !isOws b := by
  have hfront (value : Bytes) : (value.dropWhile isOws).filter (fun b => !isOws b) =
      value.filter fun b => !isOws b := by
    have hows : (value.takeWhile isOws).filter (fun b => !isOws b) = [] := by
      apply filter_eq_nil_iff.mpr
      intro b hb
      simp [mem_takeWhile_imp hb]
    calc (value.dropWhile isOws).filter (fun b => !isOws b)
        = (value.takeWhile isOws ++ value.dropWhile isOws).filter (fun b => !isOws b) := by
          rw [filter_append, hows, nil_append]
      _ = value.filter fun b => !isOws b := by rw [takeWhile_append_dropWhile]
  rw [trim, List.rdropWhile, filter_reverse, hfront, filter_reverse, hfront, reverse_reverse]

/-- Text behind a value is read as part of it, unless it is whitespace. -/
theorem isOws_of_trim_append {value tail : Bytes} (h : trim (value ++ tail) = trim value) :
    ∀ b ∈ tail, isOws b = true := by
  have hfilter := congrArg (List.filter fun b => !isOws b) h
  rw [filter_trim, filter_trim, filter_append, append_right_eq_self] at hfilter
  intro b hb
  by_contra hows
  exact (filter_eq_nil_iff.mp hfilter b hb) (by simpa using hows)

theorem readField_fieldLine_append {field : Field} (hfield : Clean field) (tail : Bytes) :
    readField (fieldLine field ++ tail) = some (field.1, trim (field.2 ++ tail)) := by
  have hline : fieldLine field ++ tail = fieldLine (field.1, field.2 ++ tail) := by
    simp [fieldLine]
  rw [hline]
  exact (readField_fieldLine_iff (field.1, field.2 ++ tail)).mpr hfield.colonFree

/-- Text that is written right behind the last of the builder's lines is still read
as lines of its own only if its first line is whitespace. -/
theorem read_behind {text : Bytes} {before read : List Field}
    (hstart : CrlfFree start) (hbefore : ∀ field ∈ before, Clean field)
    (hread : readMessage (start ++ (before.map fieldLine).flatMap (fun line => crlf ++ line) ++
      text) = some (start, lines, content))
    (hfields : lines.mapM readField = some (before.map trimmed ++ read)) :
    ∃ blank rest fuel behind, takeLine text = some (blank, rest) ∧
      (∀ b ∈ blank, isOws b = true) ∧ takeFields fuel rest = some (behind, content) ∧
      behind.mapM readField = some read := by
  rcases eq_nil_or_concat' before with rfl | ⟨init, last, rfl⟩
  · simp only [map_nil, flatMap_nil, append_nil, readMessage] at hread
    split at hread
    · cases hread
    · rename_i line rest htake
      obtain ⟨⟨lines', content'⟩, htakeFields, heq⟩ := map_eq_some_iff.mp hread
      cases heq
      obtain ⟨blank, hline, hblank⟩ := takeLine_append_left hstart htake
      obtain rfl : blank = [] := append_right_eq_self.mp hline.symm
      exact ⟨[], rest, _, _, hblank, by simp, htakeFields, by simpa using hfields⟩
  · have hlast := hbefore last (by simp)
    have hlastLine : CrlfFree (fieldLine last) :=
      crlfFree_fieldLine.mpr ⟨hlast.name, hlast.value⟩
    have hinit : ∀ line ∈ init.map fieldLine, CrlfFree line ∧ line ≠ [] := by
      intro line hline
      obtain ⟨field, hfield, rfl⟩ := mem_map.mp hline
      have hclean := hbefore _ (mem_append_left _ hfield)
      exact ⟨crlfFree_fieldLine.mpr ⟨hclean.name, hclean.value⟩, fieldLine_ne_nil _⟩
    have hdata : start ++ ((init ++ [last]).map fieldLine).flatMap (fun line => crlf ++ line) ++
        text = start ++ crlf ++ ((init.map fieldLine).flatMap (fun line => line ++ crlf) ++
          (fieldLine last ++ text)) := by
      calc start ++ ((init ++ [last]).map fieldLine).flatMap (fun line => crlf ++ line) ++ text
          = start ++ ((init.map fieldLine).flatMap (fun line => crlf ++ line) ++ crlf) ++
              fieldLine last ++ text := by simp
        _ = _ := by
          rw [flatMap_crlf]
          simp
    rw [hdata, readMessage, takeLine_append hstart] at hread
    simp only [map_eq_some_iff] at hread
    obtain ⟨⟨lines', content'⟩, htakeFields, heq⟩ := hread
    cases heq
    obtain ⟨fuel, rest, hrest, rfl⟩ := takeFields_lines hinit htakeFields
    cases fuel with
    | zero => cases hrest
    | succ fuel =>
      rw [takeFields] at hrest
      split at hrest
      · cases hrest
      · rename_i line behindText htake
        obtain ⟨blank, rfl, hblank⟩ := takeLine_append_left hlastLine htake
        have hne : fieldLine last ++ blank ≠ [] := by simp [fieldLine_ne_nil]
        rw [if_neg hne] at hrest
        obtain ⟨⟨behind, content''⟩, hbehind, heq⟩ := map_eq_some_iff.mp hrest
        cases heq
        have hinitFields := mapM_readField fun field hfield =>
          (hbefore _ (mem_append_left [last] hfield)).colonFree
        rw [mapM_append, hinitFields, mapM_cons, readField_fieldLine_append hlast] at hfields
        simp only [Option.pure_def, bind_eq_bind, bind_some,
          bind_eq_some_iff, map_append, map_cons, map_nil,
          append_assoc, append_cancel_left_eq, Option.some.injEq] at hfields
        obtain ⟨fields, ⟨read', hread', rfl⟩, heq⟩ := hfields
        simp only [singleton_append, List.cons.injEq, trimmed, Prod.mk.injEq, true_and] at heq
        obtain ⟨htrim, rfl⟩ := heq
        exact ⟨blank, behindText, fuel, behind, hblank, isOws_of_trim_append htrim, hbehind, hread'⟩

theorem takeFields_cons {fuel : ℕ} {line : Bytes}
    (h : takeFields fuel data = some (line :: lines, content)) :
    ∃ rest, takeLine data = some (line, rest) := by
  cases fuel with
  | zero => cases h
  | succ fuel =>
    rw [takeFields] at h
    split at h
    · cases h
    · rename_i line' rest htake
      split at h
      · cases h
      · obtain ⟨⟨lines', content'⟩, hrest, heq⟩ := map_eq_some_iff.mp h
        cases heq
        exact ⟨rest, htake⟩

theorem length_takeWhile_le {line name : Bytes} (h : line <+: name ++ colon :: rest) :
    (line.takeWhile (· ≠ colon)).length ≤ name.length := by
  induction name generalizing line with
  | nil =>
    cases line with
    | nil => simp
    | cons b line =>
      obtain ⟨hb, -⟩ := cons_prefix_cons.mp h
      simp [hb]
  | cons c name ih =>
    cases line with
    | nil => simp
    | cons b line =>
      obtain ⟨-, hline⟩ := cons_prefix_cons.mp h
      have hrest := ih hline
      rw [takeWhile_cons]
      split
      · simpa using hrest
      · simp

theorem readField_name {line : Bytes} {field : Field} (h : readField line = some field) :
    field.1 = line.takeWhile (· ≠ colon) := by
  simp only [readField] at h
  split at h
  · cases h
    rfl
  · cases h

theorem name_eq_of_lineEnd {name raw behind : Bytes} (hcolon : colon ∉ raw)
    (h : name ++ colon :: rest = raw ++ lf :: behind) :
    ∃ more, name = raw ++ lf :: more ∧ behind = more ++ colon :: rest := by
  rcases append_eq_append_iff.mp h with ⟨extra, hraw, hrest⟩ | ⟨extra, hname, hbehind⟩
  · cases extra with
    | nil => exact absurd (List.cons.inj hrest).1 (by decide)
    | cons b extra =>
      have hb := (List.cons.inj hrest).1
      exact absurd (by simp [hraw, hb]) hcolon
  · cases extra with
    | nil => exact absurd (List.cons.inj hbehind).1 (by decide)
    | cons b extra =>
      obtain ⟨hb, hextra⟩ := List.cons.inj hbehind
      exact ⟨extra, hb ▸ hname, hextra⟩

/-- A message in which the first supplied header is written behind the last of the
builder's lines, with no line end between them, is never unsplit. -/
theorem not_unsplit_glued {tail : Bytes} {before : List Field} {last : Field} {α : Type*}
    {first : α} {others : List α} {header written : α → Field} (hstart : CrlfFree start)
    (hbefore : ∀ field ∈ before, Clean field)
    (hname : (written first).1 <+: (header first).1) (htail : others.length + 3 ≤ tail.count lf) :
    ¬ Unsplit (start ++ (before.map fieldLine).flatMap (fun line => crlf ++ line) ++
      (fieldLine (written first) ++ tail)) start before ((first :: others).map header) [last] [] := by
  rintro ⟨lines, treated, hread, htreated, hfields⟩
  rw [append_assoc] at hfields
  obtain ⟨blank, rest, fuel, behind, htake, hblank, htakeFields, hbehind⟩ :=
    read_behind hstart hbefore hread hfields
  -- the first line ends inside the name of the first header
  obtain ⟨raw, htext, -, -, hmem⟩ := takeLine_eq_some htake
  have hcolon : colon ∉ raw := by
    intro hcolon
    rcases hmem colon hcolon with hblankColon | hcr
    · exact absurd (hblank _ hblankColon) (by decide)
    · exact absurd hcr (by decide)
  have hsplit : (written first).1 ++ colon :: (32 :: ((written first).2 ++ tail)) =
      raw ++ lf :: rest := by
    rw [← htext]
    simp [fieldLine, ascii, colon]
  obtain ⟨more, hwritten, hrest⟩ := name_eq_of_lineEnd hcolon hsplit
  have hunclean : ¬ (CrlfFree (header first).1 ∧ CrlfFree (header first).2) := by
    intro hclean
    apply hclean.1.2
    apply hname.subset
    simp [hwritten]
  -- so a field must be read for each header
  have hlength := (forall₂_readField hbehind).length_eq
  have hcount := takeFields_lineFeeds htakeFields
  have htailCount : tail.count lf ≤ rest.count lf := by
    rw [hrest]
    simp only [count_append, count_cons]
    omega
  cases treated with
  | nil => cases htreated
  | cons one treated =>
    obtain ⟨hone, hothers⟩ := forall₂_cons.mp htreated
    have hfew := flatten_length_le hothers
    simp only [flatten_cons, length_append, length_map, length_singleton,
      count_nil] at hlength hcount hfew
    rw [Treated, if_neg hunclean] at hone
    rcases hone with rfl | rfl
    · simp only [length_nil] at hlength
      omega
    · obtain ⟨line, behind', rfl⟩ : ∃ line behind', behind = line :: behind' := by
        cases behind with
        | nil => cases hbehind
        | cons line behind' => exact ⟨line, behind', rfl⟩
      obtain ⟨hfield, -⟩ := forall₂_cons.mp (forall₂_readField hbehind)
      obtain ⟨afterLine, hline⟩ := takeFields_cons htakeFields
      obtain ⟨raw', hraw', hfront, -, -⟩ := takeLine_eq_some hline
      -- and the field of the first header is read behind that line end
      have hlineRest : line <+: more ++ colon :: (32 :: ((written first).2 ++ tail)) := by
        rw [← hrest, hraw']
        exact hfront.trans (prefix_append _ _)
      have hshort := length_takeWhile_le hlineRest
      have hread := congrArg List.length (readField_name hfield)
      have hlong := hname.length_le
      rw [hwritten] at hlong
      simp only [trimmed, neutralised, length_map, length_append, length_cons]
        at hread hlong
      omega

/-! ## Lines behind the others -/

def emptyLine : Bytes := crlf ++ crlf

theorem emptyLine_ne_nil : emptyLine ≠ [] := by decide

theorem firstOccurrence_line {line : Bytes} (hline : CrlfFree line) (data : Bytes) :
    firstOccurrence emptyLine (line ++ data) =
      (firstOccurrence emptyLine data).map fun i => line.length + i := by
  apply Occurrence.firstOccurrence_skip emptyLine_ne_nil
  intro j hj hoccurs
  have hfirst := hoccurs.getElem? (by decide : 0 < emptyLine.length)
  rw [Nat.add_zero, getElem?_append_left hj] at hfirst
  exact hline.1 (mem_of_getElem? hfirst)

theorem firstOccurrence_crlf {line : Bytes} (hline : CrlfFree line) (hne : line ≠ [])
    (data : Bytes) :
    firstOccurrence emptyLine (crlf ++ (line ++ data)) =
      (firstOccurrence emptyLine (line ++ data)).map fun i => crlf.length + i := by
  apply Occurrence.firstOccurrence_skip emptyLine_ne_nil
  intro j hj hoccurs
  obtain ⟨b, line, rfl⟩ := exists_cons_of_ne_nil hne
  have hb : b ≠ cr := fun heq => hline.1 (heq ▸ mem_cons_self)
  match j, hj with
  | 0, _ =>
    have hthird := hoccurs.getElem? (by decide : 2 < emptyLine.length)
    exact hb (Option.some.inj hthird)
  | 1, _ =>
    have hfirst := hoccurs.getElem? (by decide : 0 < emptyLine.length)
    exact absurd (Option.some.inj hfirst) (by decide)

theorem firstOccurrence_emptyLine (hstart : CrlfFree start)
    (hlines : ∀ line ∈ lines, CrlfFree line ∧ line ≠ []) (content : Bytes) :
    firstOccurrence emptyLine (writeMessage start lines content) =
      some (start ++ lines.flatMap fun line => crlf ++ line).length := by
  have hfields : firstOccurrence emptyLine
      (lines.flatMap (fun line => crlf ++ line) ++ (emptyLine ++ content)) =
      some (lines.flatMap fun line => crlf ++ line).length := by
    induction lines with
    | nil =>
      apply (Occurrence.firstOccurrence_eq_some_iff emptyLine_ne_nil).mpr
      exact ⟨prefix_append _ _, by simp⟩
    | cons line lines ih =>
      obtain ⟨hline, hne⟩ := hlines _ mem_cons_self
      have hrest := ih fun other hmem => hlines _ (mem_cons_of_mem _ hmem)
      rw [flatMap_cons, append_assoc, append_assoc,
        firstOccurrence_crlf hline hne, firstOccurrence_line hline, hrest]
      simp
  have hdata : writeMessage start lines content =
      start ++ (lines.flatMap (fun line => crlf ++ line) ++ (emptyLine ++ content)) := by
    simp [writeMessage, emptyLine]
  rw [hdata, firstOccurrence_line hstart, hfields, map_some, length_append]

/-- Lines that are inserted where the first empty line begins come behind the others. -/
theorem insert_writeMessage (start : Bytes) (lines more : List Bytes) (content : Bytes) :
    (writeMessage start lines content).take
        (start ++ lines.flatMap fun line => crlf ++ line).length ++
      more.flatMap (fun line => crlf ++ line) ++
      (writeMessage start lines content).drop
        (start ++ lines.flatMap fun line => crlf ++ line).length =
      writeMessage start (lines ++ more) content := by
  have hdata : writeMessage start lines content =
      (start ++ lines.flatMap fun line => crlf ++ line) ++ (crlf ++ crlf ++ content) := by
    simp [writeMessage]
  rw [hdata, take_left, drop_left]
  simp [writeMessage]

end AstraApi.Message
