import AstraApi.Lib.EventStream
import AstraApi.Lib.Utf8
import AstraApi.Response.Builders

/-!
# Server-sent events

`_sse_format_event` writes each field of an event as a line, and the data as one line for each
part between LFs.
-/

namespace AstraApi.Response

open Option hiding mem_map
open List
open EventStream

/-! ## The formatter -/

/-- What the data of an event may be; `absent` is `None`.  A `dict` is dumped as JSON, and other objects are shown
by `str`. -/
inductive SseData where
  | absent
  | str (text : Text)
  | bytes (data : Bytes)
  | dict (dumped : Text)
  | other (shown : Text)

def SseData.text : SseData → Option (Option Text)
  | .absent => some none
  | .str text => some (some text)
  | .bytes data => (Text.ofUtf8 data).map some
  | .dict dumped => some (some dumped)
  | .other shown => some (some shown)

structure ServerSentEvent where
  data : SseData := .str []
  event : Option Text := none
  id : Option Text := none
  retry : Option ℤ := none

/-- `_sse_format_event`.  Only LF starts another line of data. -/
def sseFormatEvent (sse : ServerSentEvent) : Option Text := do
  let data ← sse.data.text
  let parts :=
    (sse.event.map fun event => plainText "event: " ++ event).toList ++
    (sse.id.map fun id => plainText "id: " ++ id).toList ++
    (sse.retry.map fun retry => plainText "retry: " ++ Text.ofLatin1 (decimal retry)).toList ++
    ((data.map fun text => (text.splitOn lf).map (plainText "data: " ++ ·)).getD []) ++
    [[], []]
  return [lf].intercalate parts

/-! ## What is to be read -/

structure TextEvent where
  data : Text
  event : Option Text := none
  id : Option Text := none
  retry : Option ℕ := none

def TextEvent.toServer (e : TextEvent) : ServerSentEvent where
  data := .str e.data
  event := e.event
  id := e.id
  retry := e.retry.map Int.ofNat

/-- The signals of events, where `lastEventId` is the id that was given last. -/
def signalsOf (lastEventId : Text) : List TextEvent → List Signal
  | [] => []
  | e :: events =>
    (e.retry.map Signal.reconnection).toList ++
      .message (e.event.getD (plainText "message")) (normalize e.data) (e.id.getD lastEventId) ::
        signalsOf (e.id.getD lastEventId) events

def ReadsBack (events : List TextEvent) : Prop :=
  ∃ texts, events.mapM (fun e => sseFormatEvent e.toServer) = some texts ∧
    EventStream.read texts.flatten = signalsOf [] events

/-- Every CR is followed by LF. -/
def bareCrFree : Text → Bool
  | [] => true
  | c :: text => (c != cr || text.head? == some lf) && bareCrFree text

/-- The name is not empty, name and id have no line break, the id has no NUL, and the data have
CR only in CRLF. -/
structure TextEvent.Clean (e : TextEvent) : Prop where
  event : ∀ event ∈ e.event, event ≠ [] ∧ LineFree event
  id : ∀ id ∈ e.id, LineFree id ∧ 0 ∉ id
  data : bareCrFree e.data = true

/-! ## The lines of an event -/

/-- The lines before the data. -/
def TextEvent.fieldParts (e : TextEvent) : List Text :=
  (e.event.map fun event => plainText "event: " ++ event).toList ++
    (e.id.map fun id => plainText "id: " ++ id).toList ++
    (e.retry.map fun retry : ℕ => plainText "retry: " ++ Text.ofLatin1 (decimal retry)).toList

def dataParts (data : Text) : List Text := (data.splitOn lf).map (plainText "data: " ++ ·)

def TextEvent.text (e : TextEvent) : Text :=
  (e.fieldParts ++ dataParts e.data).flatMap (· ++ [lf]) ++ [lf]

theorem intercalate_parts (parts : List Text) :
    [lf].intercalate (parts ++ [[], []]) = parts.flatMap (· ++ [lf]) ++ [lf] := by
  induction parts with
  | nil => rfl
  | cons part parts ih =>
    obtain ⟨next, rest, heq⟩ : ∃ next rest, parts ++ [[], []] = next :: rest :=
      exists_cons_of_ne_nil (by simp)
    rw [cons_append, heq, intercalate_cons_cons, ← heq, ih]
    simp

theorem sseFormatEvent_toServer (e : TextEvent) : sseFormatEvent e.toServer = some e.text := by
  have hretry : (e.toServer.retry.map fun retry =>
      plainText "retry: " ++ Text.ofLatin1 (decimal retry)) =
        e.retry.map fun retry : ℕ => plainText "retry: " ++ Text.ofLatin1 (decimal retry) :=
    Option.map_map ..
  simp only [sseFormatEvent, TextEvent.toServer, SseData.text, bind_eq_bind,
    bind_some, map_some, getD_some] at hretry ⊢
  rw [hretry, intercalate_parts, TextEvent.text, TextEvent.fieldParts, dataParts]
  rfl

theorem mapM_sseFormatEvent (events : List TextEvent) :
    events.mapM (fun e => sseFormatEvent e.toServer) = some (events.map TextEvent.text) := by
  simp only [sseFormatEvent_toServer]
  exact mapM_pure ..

theorem completeLines_parts (parts : List Text) (rest : Text) :
    completeLines (parts.flatMap (· ++ [lf]) ++ rest) =
      parts.flatMap linesOf ++ completeLines rest := by
  induction parts with
  | nil => rfl
  | cons part parts ih =>
    rw [flatMap_cons, append_assoc, append_assoc, singleton_append,
      completeLines_line, ih, flatMap_cons, append_assoc]

theorem completeLines_text (e : TextEvent) (rest : Text) :
    completeLines (e.text ++ rest) =
      e.fieldParts.flatMap linesOf ++ ((dataParts e.data).flatMap linesOf ++
        [] :: completeLines rest) := by
  rw [TextEvent.text, append_assoc, completeLines_parts, flatMap_append,
    append_assoc, singleton_append]
  have hblank := completeLines_line [] rest
  rw [nil_append] at hblank
  rw [hblank]
  rfl

/-! ## The data -/

theorem dataParts_last {line : Text} (hlf : lf ∉ line) :
    dataParts line = [plainText "data: " ++ line] := by
  rw [dataParts, splitOn_eq_singleton hlf]
  rfl

theorem dataParts_line {line : Text} (hlf : lf ∉ line) (rest : Text) :
    dataParts (line ++ lf :: rest) = (plainText "data: " ++ line) :: dataParts rest := by
  rw [dataParts, splitOn_append_cons_self_of_not_mem hlf]
  rfl

theorem bareCrFree_last {line : Text} (hlf : lf ∉ line) : bareCrFree line = true ↔ cr ∉ line := by
  induction line with
  | nil => simp [bareCrFree]
  | cons c line ih =>
    rw [mem_cons, not_or] at hlf
    have hhead : (line.head? == some lf) = false := by
      rw [beq_eq_false_iff_ne]
      intro h
      exact hlf.2 (mem_of_head? h)
    rw [bareCrFree, hhead, Bool.or_false, Bool.and_eq_true, ih hlf.2, bne_iff_ne, mem_cons, not_or]
    exact and_congr_left fun _ => ne_comm

theorem bareCrFree_line {line : Text} (hlf : lf ∉ line) (rest : Text) :
    bareCrFree (line ++ lf :: rest) = true ↔ cr ∉ withoutLastCr line ∧ bareCrFree rest = true := by
  induction line with
  | nil =>
    have hne : (lf != cr) = true := by decide
    exact (and_iff_right not_mem_nil).symm
  | cons c line ih =>
    rw [mem_cons, not_or] at hlf
    rw [cons_append, bareCrFree, Bool.and_eq_true, ih hlf.2]
    cases line with
    | nil =>
      have hend : cr ∉ withoutLastCr [c] := by
        rw [← nil_append [c], withoutLastCr_concat]
        split
        · exact not_mem_nil
        · rename_i hc
          simpa using Ne.symm hc
      have hempty : cr ∉ withoutLastCr [] := not_mem_nil
      have hhead : (([] ++ lf :: rest).head? == some lf) = true := beq_self_eq_true _
      rw [hhead, Bool.or_true, and_iff_right rfl, and_iff_right hempty, and_iff_right hend]
    | cons d line =>
      have hd : d ≠ lf := fun heq => hlf.2 (heq ▸ mem_cons_self)
      have hhead : ((d :: line ++ lf :: rest).head? == some lf) = false := by
        rw [beq_eq_false_iff_ne]
        exact fun h => hd (some_inj.mp h)
      rw [withoutLastCr_cons_cons, mem_cons, not_or, and_assoc, hhead, Bool.or_false, bne_iff_ne]
      exact and_congr_left fun _ => ne_comm

theorem exists_linesOf_data {line : Text} (hlf : lf ∉ line) :
    ∃ first others, linesOf (plainText "data: " ++ line) = (plainText "data: " ++ first) :: others ∧
      (normalize (withoutLastCr line)).length =
        first.length + others.flatten.length + others.length ∧
      (others = [] ↔ cr ∉ withoutLastCr line) ∧
      (others = [] → first = normalize (withoutLastCr line)) := by
  obtain ⟨first, others, h⟩ := exists_cons_of_ne_nil (linesOf_ne_nil _)
  have hjoined : [lf].intercalate (first :: others) = normalize (withoutLastCr line) := by
    rw [← h]
    exact intercalate_splitOn _
  refine ⟨first, others, ?_, ?_, linesOf_eq_singleton_iff hlf h, ?_⟩
  · rw [linesOf_append (by decide), h]
    rfl
  · rw [← hjoined, length_intercalate]
  · rintro rfl
    rwa [intercalate_singleton] at hjoined

theorem processLine_data (s : State) (value : Text) :
    processLine s (plainText "data: " ++ value) =
      ({ s with data := s.data ++ value ++ [lf] }, []) := by
  have hline : plainText "data: " ++ value = plainText "data" ++ colon :: space :: value := rfl
  rw [hline, processLine_field s (by decide) (by decide), setField, if_neg (by decide), if_pos rfl]

/-- Data with CR only in CRLF are collected with their line breaks normalised. -/
theorem run_dataParts {data : Text} (hdata : bareCrFree data = true) (s : State) :
    run s ((dataParts data).flatMap linesOf) =
      ({ s with data := s.data ++ normalize data ++ [lf] }, []) := by
  induction data using line_induction generalizing s with
  | last line hlf =>
    have hcr := (bareCrFree_last hlf).mp hdata
    have hline : linesOf (plainText "data: " ++ line) = [plainText "data: " ++ line] := by
      rw [linesOf_append (by decide), linesOf_of_lineFree ⟨hcr, hlf⟩]
      rfl
    rw [dataParts_last hlf, flatMap_singleton, hline, run, processLine_data, run,
      normalize_of_notMem hcr]
    rfl
  | line line rest hlf ih =>
    obtain ⟨hcr, hrest⟩ := (bareCrFree_line hlf _).mp hdata
    obtain ⟨first, others, hlines, -, hothers, hfirst⟩ := exists_linesOf_data hlf
    have hempty := hothers.mpr hcr
    rw [dataParts_line hlf, flatMap_cons, hlines, hempty, hfirst hempty, singleton_append,
      run, processLine_data, ih hrest, normalize_line]
    simp

theorem short_dataLine {line first : Text} {others tail : List Text}
    (hlines : linesOf (plainText "data: " ++ line) = (plainText "data: " ++ first) :: others)
    {n k : ℕ} {s : State} (hk : k ≤ n)
    (hfits : s.data.length + first.length + 1 + others.flatten.length ≤ k)
    (htail : ∀ s : State, s.data.getLast? = some lf → s.data.length ≤ k → Short n tail s) :
    Short n (linesOf (plainText "data: " ++ line) ++ tail) s := by
  rw [hlines, cons_append]
  apply short_cons
  · rw [processLine_data]
    rfl
  · rw [processLine_data]
    refine short_lines hk htail _ (getLast?_concat ..) ?_
    simp only [length_append, length_singleton]
    exact hfits

theorem short_dataParts (data : Text) {n : ℕ} {s : State}
    (h : s.data.length + (normalize data).length + 1 ≤
      n + if bareCrFree data = true then 0 else 1) (more : List Text) :
    Short n ((dataParts data).flatMap linesOf ++ [] :: more) s := by
  induction data using line_induction generalizing s with
  | last line hlf =>
    obtain ⟨first, others, hlines, hlength, hothers, -⟩ := exists_linesOf_data hlf
    rw [dataParts_last hlf, flatMap_singleton]
    refine short_dataLine hlines le_rfl ?_ fun s hlast hs => short_blank hlast hs _
    rcases length_normalize_last line with hwhole | ⟨hlast, hcr⟩
    · rw [hwhole] at hlength hothers
      by_cases hcr : cr ∈ line
      · have hmany : others.length ≠ 0 := fun hzero =>
          hothers.mp (length_eq_zero_iff.mp hzero) hcr
        rw [if_neg fun hfree => (bareCrFree_last hlf).mp hfree hcr] at h
        omega
      · rw [if_pos ((bareCrFree_last hlf).mpr hcr)] at h
        omega
    · rw [if_neg fun hfree => (bareCrFree_last hlf).mp hfree hcr] at h
      omega
  | line line rest hlf ih =>
    obtain ⟨first, others, hlines, hlength, hothers, -⟩ := exists_linesOf_data hlf
    rw [dataParts_line hlf, flatMap_cons, append_assoc]
    rw [normalize_line, length_append, length_cons] at h
    have hrest : s.data.length + first.length + 1 + others.flatten.length +
        (normalize rest).length + 1 ≤ n + if bareCrFree rest = true then 0 else 1 := by
      by_cases hcr : cr ∈ withoutLastCr line
      · have hmany : others.length ≠ 0 := fun hzero =>
          hothers.mp (length_eq_zero_iff.mp hzero) hcr
        rw [if_neg fun hfree => ((bareCrFree_line hlf _).mp hfree).1 hcr] at h
        omega
      · simp only [bareCrFree_line hlf, hcr, not_false_eq_true, true_and] at h
        omega
    refine short_dataLine hlines ?_ le_rfl fun s hlast hs => ih ?_
    · split at hrest <;> omega
    · omega

/-! ## One event -/

theorem lineFree_append {left right : Text} (hleft : LineFree left) (hright : LineFree right) :
    LineFree (left ++ right) :=
  ⟨fun h => (mem_append.mp h).elim hleft.1 hright.1,
    fun h => (mem_append.mp h).elim hleft.2 hright.2⟩

theorem lineFree_ofLatin1_decimal (n : ℕ) : LineFree (Text.ofLatin1 (decimal n)) := by
  have hdigit : ∀ c ∈ Text.ofLatin1 (decimal n), 48 ≤ c.val := by
    intro c hc
    obtain ⟨b, hb, rfl⟩ := mem_map.mp hc
    have hb' := isDigit_decimal n b hb
    simp only [Message.isDigit, Bool.and_eq_true, decide_eq_true_eq, UInt8.le_iff_toNat_le] at hb'
    have hlt := b.toNat_lt
    rw [Fin.val_ofNat, Nat.mod_eq_of_lt (by omega)]
    exact hb'.1
  exact ⟨fun h => absurd (hdigit _ h) (by decide), fun h => absurd (hdigit _ h) (by decide)⟩

theorem run_linesOf {s : State} {line : Text} (h : LineFree line) :
    run s (linesOf line) = processLine s line := by
  rw [linesOf_of_lineFree h, run, run, append_nil]

theorem run_event {event : Option Text} (h : ∀ name ∈ event, LineFree name) (s : State) :
    run s ((event.map fun event => plainText "event: " ++ event).toList.flatMap linesOf) =
      ({ s with type := event.getD s.type }, []) := by
  cases event with
  | none => rfl
  | some name =>
    have hline : plainText "event: " ++ name = plainText "event" ++ colon :: space :: name := rfl
    rw [map_some, toList_some, flatMap_singleton,
      run_linesOf (lineFree_append (by decide) (h _ rfl)), hline,
      processLine_field s (by decide) (by decide), setField, if_pos rfl]
    rfl

theorem run_id {id : Option Text} (h : ∀ name ∈ id, LineFree name ∧ 0 ∉ name) (s : State) :
    run s ((id.map fun id => plainText "id: " ++ id).toList.flatMap linesOf) =
      ({ s with lastEventId := id.getD s.lastEventId }, []) := by
  cases id with
  | none => rfl
  | some name =>
    have hline : plainText "id: " ++ name = plainText "id" ++ colon :: space :: name := rfl
    rw [map_some, toList_some, flatMap_singleton,
      run_linesOf (lineFree_append (by decide) (h _ rfl).1), hline,
      processLine_field s (by decide) (by decide), setField, if_neg (by decide),
      if_neg (by decide), if_pos rfl, if_neg (h _ rfl).2]
    rfl

theorem run_retry (retry : Option ℕ) (s : State) :
    run s ((retry.map fun retry : ℕ => plainText "retry: " ++
      Text.ofLatin1 (decimal retry)).toList.flatMap linesOf) =
        (s, (retry.map Signal.reconnection).toList) := by
  cases retry with
  | none => rfl
  | some n =>
    have hline : plainText "retry: " ++ Text.ofLatin1 (decimal n) =
        plainText "retry" ++ colon :: space :: Text.ofLatin1 (decimal n) := rfl
    rw [map_some, toList_some, flatMap_singleton,
      run_linesOf (lineFree_append (by decide) (lineFree_ofLatin1_decimal n)), hline,
      processLine_field s (by decide) (by decide), setField, if_neg (by decide),
      if_neg (by decide), if_neg (by decide), if_pos rfl, latin1_ofLatin1,
      bind_some, readDecimal_decimal]

/-- The names and the time of an event, before its data. -/
theorem run_fieldParts {e : TextEvent} (hevent : ∀ event ∈ e.event, LineFree event)
    (hid : ∀ id ∈ e.id, LineFree id ∧ 0 ∉ id) (s : State) :
    run s (e.fieldParts.flatMap linesOf) =
      ({ s with type := e.event.getD s.type, lastEventId := e.id.getD s.lastEventId },
        (e.retry.map Signal.reconnection).toList) := by
  rw [TextEvent.fieldParts, flatMap_append, flatMap_append, run_append, run_append,
    run_event hevent, run_id hid, run_retry]
  rfl

theorem run_clean {e : TextEvent} (he : e.Clean) (lastEventId : Text) (more : List Text) :
    (run { lastEventId } (e.fieldParts.flatMap linesOf ++
      ((dataParts e.data).flatMap linesOf ++ [] :: more))).2 =
        (e.retry.map Signal.reconnection).toList ++
          .message (e.event.getD (plainText "message")) (normalize e.data)
            (e.id.getD lastEventId) :: (run { lastEventId := e.id.getD lastEventId } more).2 := by
  have htype : (if e.event.getD [] = [] then plainText "message" else e.event.getD []) =
      e.event.getD (plainText "message") := by
    cases hevent : e.event with
    | none => rfl
    | some event => exact if_neg (he.event _ hevent).1
  have hdispatch : dispatch
      ⟨[] ++ normalize e.data ++ [lf], e.event.getD [], e.id.getD lastEventId⟩ =
        ({ lastEventId := e.id.getD lastEventId },
          [.message (e.event.getD (plainText "message")) (normalize e.data)
            (e.id.getD lastEventId)]) := by
    rw [dispatch, if_neg (by simp), htype]
    simp [withoutLastLf]
  rw [run_append, run_fieldParts (fun event h => (he.event _ h).2) he.id, run_append,
    run_dataParts he.data, run, processLine_nil]
  simp only [hdispatch]
  rfl

theorem short_append {n : ℕ} {front back : List Text} {s : State}
    (hnone : (run s front).2.findSome? Signal.data = none) (h : Short n back (run s front).1) :
    Short n (front ++ back) s := by
  obtain ⟨data, hdata, hlength⟩ := h
  refine ⟨data, ?_, hlength⟩
  rw [run_append, findSome?_append, hnone, none_or, hdata]

/-- A bare CR in the data of an event shows in its message. -/
theorem short_unclean {e : TextEvent} (hevent : ∀ event ∈ e.event, LineFree event)
    (hid : ∀ id ∈ e.id, LineFree id ∧ 0 ∉ id) (hdata : bareCrFree e.data ≠ true)
    (lastEventId : Text) (more : List Text) :
    Short (normalize e.data).length (e.fieldParts.flatMap linesOf ++
      ((dataParts e.data).flatMap linesOf ++ [] :: more)) { lastEventId } := by
  apply short_append
  · rw [run_fieldParts hevent hid]
    cases e.retry <;> rfl
  · rw [run_fieldParts hevent hid]
    apply short_dataParts
    rw [if_neg hdata]
    simp

/-! ## All events -/

def textOf (events : List TextEvent) : Text := (events.map TextEvent.text).flatten

theorem findSome?_signalsOf (lastEventId : Text) (e : TextEvent) (events : List TextEvent) :
    (signalsOf lastEventId (e :: events)).findSome? Signal.data = some (normalize e.data) := by
  rw [signalsOf]
  cases e.retry <;> rfl

/-- By induction on the events: what is read of the first one has its length and its names. -/
theorem run_textOf_iff (events : List TextEvent) {lastEventId : Text}
    (hlast : LineFree lastEventId ∧ 0 ∉ lastEventId) :
    (run { lastEventId } (completeLines (textOf events))).2 = signalsOf lastEventId events ↔
      ∀ e ∈ events, e.Clean := by
  induction events generalizing lastEventId with
  | nil => exact iff_of_true rfl (forall_mem_nil _)
  | cons e events ih =>
    have hfree : ∀ line ∈ completeLines (textOf (e :: events)), LineFree line :=
      fun line => lineFree_of_mem_completeLines
    have htext : textOf (e :: events) = e.text ++ textOf events := rfl
    rw [htext, completeLines_text] at hfree ⊢
    have hnext (he : e.Clean) : LineFree (e.id.getD lastEventId) ∧ 0 ∉ e.id.getD lastEventId := by
      cases hid : e.id with
      | none => exact hlast
      | some id => exact he.id _ hid
    rw [forall_mem_cons]
    constructor
    · intro heq
      have hmem : Signal.message (e.event.getD (plainText "message")) (normalize e.data)
          (e.id.getD lastEventId) ∈ signalsOf lastEventId (e :: events) :=
        mem_append_right _ mem_cons_self
      rw [← heq] at hmem
      have hcollected : State.Collected { lastEventId } :=
        ⟨⟨not_mem_nil, not_mem_nil⟩, hlast⟩
      have hexpressible := run_expressible hcollected hfree hmem
      have hevent : ∀ event ∈ e.event, event ≠ [] ∧ LineFree event := by
        intro event h
        rw [mem_def.mp h] at hexpressible
        exact ⟨hexpressible.nonempty, hexpressible.type⟩
      have hid : ∀ id ∈ e.id, LineFree id ∧ 0 ∉ id := by
        intro id h
        rw [mem_def.mp h] at hexpressible
        exact hexpressible.lastEventId
      have he : e.Clean := by
        refine ⟨hevent, hid, ?_⟩
        by_contra hdata
        obtain ⟨data, hdata, hlength⟩ := short_unclean (fun event h => (hevent _ h).2) hid hdata _ _
        rw [heq, findSome?_signalsOf] at hdata
        cases hdata
        exact lt_irrefl _ hlength
      refine ⟨he, (ih (hnext he)).mp ?_⟩
      rw [run_clean he, signalsOf] at heq
      exact (List.cons.inj (append_cancel_left heq)).2
    · rintro ⟨he, hevents⟩
      rw [run_clean he, (ih (hnext he)).mpr hevents, signalsOf]

theorem head?_text (e : TextEvent) : ∃ c, e.text.head? = some c ∧ c ≠ byteOrderMark := by
  have hparts : ∀ part ∈ e.fieldParts ++ dataParts e.data,
      ∃ c, part.head? = some c ∧ c ≠ byteOrderMark := by
    intro part hmem
    simp only [TextEvent.fieldParts, dataParts, mem_append, mem_toList,
      map_eq_some_iff, mem_map] at hmem
    rcases hmem with ((⟨value, -, rfl⟩ | ⟨value, -, rfl⟩) | ⟨value, -, rfl⟩) | ⟨value, -, rfl⟩ <;>
      exact ⟨_, rfl, by decide⟩
  obtain ⟨first, others, h⟩ : ∃ first others, e.fieldParts ++ dataParts e.data = first :: others :=
    exists_cons_of_ne_nil (by simp [dataParts])
  obtain ⟨c, hc, hne⟩ := hparts _ (h ▸ mem_cons_self)
  refine ⟨c, ?_, hne⟩
  rw [TextEvent.text, h, flatMap_cons, append_assoc, append_assoc, head?_append, hc]
  rfl

theorem head?_textOf (events : List TextEvent) : (textOf events).head? ≠ some byteOrderMark := by
  cases events with
  | nil => exact (some_ne_none _).symm
  | cons e events =>
    obtain ⟨c, hc, hne⟩ := head?_text e
    have hhead : (textOf (e :: events)).head? = some c := by
      rw [textOf, map_cons, flatten_cons, head?_append, hc]
      rfl
    rw [hhead]
    exact fun h => hne (some_inj.mp h)

/-- What is read is what was sent exactly when every event is clean. -/
theorem sse_readsBack_iff (events : List TextEvent) :
    ReadsBack events ↔ ∀ e ∈ events, e.Clean := by
  have hread : EventStream.read (textOf events) = (run {} (completeLines (textOf events))).2 := by
    rw [EventStream.read, if_neg (head?_textOf _)]
  rw [← @run_textOf_iff events [] (by decide), ← hread, ReadsBack, mapM_sseFormatEvent]
  constructor
  · rintro ⟨texts, heq, h⟩
    cases heq
    exact h
  · intro h
    exact ⟨_, rfl, h⟩

/-- A data line behind a bare CR names the event. -/
theorem sse_injection :
    ¬ ReadsBack [{ data := plainText "a" ++ cr :: plainText "event: admin" }] ∧
      EventStream.read (textOf [{ data := plainText "a" ++ cr :: plainText "event: admin" }]) =
        [.message (plainText "admin") (plainText "a") []] := by
  constructor
  · rw [sse_readsBack_iff]
    intro h
    exact absurd (h _ mem_cons_self).data (by decide +kernel)
  · decide +kernel

end AstraApi.Response
