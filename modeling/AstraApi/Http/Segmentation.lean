import AstraApi.Lib.Incremental
import AstraApi.Http.FastPath

/-!
# Segmentation of a stream

A request that has only partly arrived is always given to llhttp; once it is
complete the fast path may take it.  The requests found on a connection depend on
how the stream was cut only if llhttp refuses the part that has arrived while the
fast path accepts the whole.
-/

namespace AstraApi.Http

open List Option
open AstraApi.Server Head Incremental

variable {data tail : Bytes} {headers : List Header} {items : List Seen} {outcome : Outcome}
  {buffer : HttpConnectionBuffer} {chunks : List Bytes}

/-! ## The fast path on more bytes -/

theorem skipByte_append {b : Byte} (h : data ≠ []) (more : Bytes) :
    skipByte b (data ++ more) = skipByte b data ++ more := by
  cases data with
  | nil => exact absurd rfl h
  | cons first data =>
    simp only [skipByte, cons_append]
    split <;> rfl

theorem skipByte_nil (b : Byte) : skipByte b [] = [] := rfl

theorem dropWhile_append_of_ne_nil {p : Byte → Bool} (h : data.dropWhile p ≠ [])
    (more : Bytes) : (data ++ more).dropWhile p = data.dropWhile p ++ more := by
  rw [dropWhile_append, if_neg (by simpa  using h)]

theorem takeWhile_append_of_ne_nil {p : Byte → Bool} (h : data.dropWhile p ≠ [])
    (more : Bytes) : (data ++ more).takeWhile p = data.takeWhile p := by
  have hlength := congrArg List.length (takeWhile_append_dropWhile (p := p) (l := data))
  have hpositive := length_pos_iff.mpr h
  rw [length_append] at hlength
  rw [takeWhile_append, if_neg (by omega)]

theorem nextLine_append {afterName : Bytes} (h : nextLine afterName ≠ []) (more : Bytes) :
    nextLine (afterName ++ more) = nextLine afterName ++ more ∧
      ((afterName ++ more).dropWhile fun b => decide (b = sp)).takeWhile isLineByte =
        (afterName.dropWhile fun b => decide (b = sp)).takeWhile isLineByte := by
  unfold nextLine at h ⊢
  have hskip : skipByte cr ((afterName.dropWhile fun b => decide (b = sp)).dropWhile isLineByte) ≠
      [] := by
    intro hnil
    exact h (by rw [hnil, skipByte_nil])
  have hline : (afterName.dropWhile fun b => decide (b = sp)).dropWhile isLineByte ≠ [] := by
    intro hnil
    exact hskip (by rw [hnil, skipByte_nil])
  have hspace : (afterName.dropWhile fun b => decide (b = sp)) ≠ [] := by
    intro hnil
    exact hline (by rw [hnil]; rfl)
  rw [dropWhile_append_of_ne_nil hspace, dropWhile_append_of_ne_nil hline,
    takeWhile_append_of_ne_nil hline, skipByte_append hline, skipByte_append hskip]
  exact ⟨rfl, rfl⟩

theorem ne_nil_of_scan {slots : ℕ}
    (h : scanHeaders slots data = some (headers, tail)) : data ≠ [] := by
  intro hnil
  have hlt := scanHeaders_length_lt h
  simp [hnil] at hlt

/-- A header section that was read is read again when more follows. -/
theorem scanHeaders_append {slots : ℕ}
    (h : scanHeaders slots data = some (headers, tail)) (more : Bytes) :
    scanHeaders slots (data ++ more) = some (headers, tail ++ more) := by
  induction slots generalizing data headers with
  | zero => cases h
  | succ slots ih =>
    rcases scanHeaders_cases h with
      ⟨rfl, rfl | rfl⟩ | ⟨name, afterName, others, hname, rfl, rfl, hnext⟩
    · simp [scanHeaders]
    · simp [scanHeaders, show lf ≠ cr by decide]
    · obtain ⟨hline, hvalue⟩ := nextLine_append (ne_nil_of_scan hnext) _
      rw [append_assoc, cons_append, scanHeaders_name hname, hline, hvalue, ih hnext]
      rfl

theorem fastParse_methodWord {isHead : Bool} {target : Bytes} (h : 12 ≤ target.length) :
    fastParse (methodWord isHead ++ target) =
      scanRequest isHead (methodWord isHead ++ target) target := by
  cases isHead with
  | false =>
    rw [fastParse, if_pos]
    · rfl
    · simp [methodWord, ascii]
      omega
  | true =>
    rw [fastParse, if_neg, if_pos]
    · rfl
    · simp [methodWord, ascii]
      omega
    · simp [methodWord, ascii]

theorem two_le_of_scan {slots : ℕ} {rest : Bytes}
    (h : scanHeaders slots (skipByte lf rest) = some (headers, tail)) : 2 ≤ rest.length := by
  cases slots with
  | zero => cases h
  | succ slots =>
    have hskip := length_skipByte_le lf rest
    rcases scanHeaders_cases h with
      ⟨-, hdata | hdata⟩ | ⟨name, afterName, others, -, hdata, -, hnext⟩
    · rw [hdata] at hskip
      simp only [length_cons] at hskip
      omega
    · cases rest with
      | nil => cases hdata
      | cons first rest =>
        rw [skipByte] at hdata
        split at hdata
        · simp [hdata]
        · rename_i hfirst
          cases hdata
          exact absurd rfl hfirst
    · have hline := length_nextLine_le afterName
      have hpositive := length_pos_iff.mpr (ne_nil_of_scan hnext)
      rw [hdata] at hskip
      simp only [length_append, length_cons] at hskip
      omega

/-- The fast path accepts a request line with a header section that it can read. -/
theorem fastParse_of_scan {head : Head} {rest : Bytes}
    {keepAlive : Bool} (hdelimited : Delimited head.target)
    (hheaders : scanHeaders maxHeaders (skipByte lf rest) = some (headers, tail))
    (hconnection : scanConnection headers true = some keepAlive) :
    fastParse (head.requestLine ++ rest) = some
      { method := head.method
        path := (splitTarget head.target).1
        queryString := (splitTarget head.target).2
        headers := headers
        keepAlive := keepAlive
        noBody := true
        isHead := head.isHead
        totalConsumed := (head.requestLine ++ rest).length - tail.length } := by
  have hlength := two_le_of_scan hheaders
  rw [requestLine_eq, fastParse_methodWord, scanRequest_requestLine hdelimited, hheaders]
  · simp [hconnection, method]
  · simp [ascii]
    omega

/-- A request that the fast path has found stays the first one when more arrives. -/
theorem fastParse_append {fast : ParsedHttpRequest}
    (h : fastParse data = some fast) (more : Bytes) : fastParse (data ++ more) = some fast := by
  obtain ⟨head, rest, hdelimited, rfl⟩ := exists_requestLine h
  obtain ⟨headers, tail, keepAlive, hheaders, hconnection, rfl⟩ :=
    fastParse_requestLine hdelimited h
  have hrest : rest ≠ [] := by
    intro hnil
    have hlength := two_le_of_scan hheaders
    simp [hnil] at hlength
  have hmore : scanHeaders maxHeaders (skipByte lf (rest ++ more)) =
      some (headers, tail ++ more) := by
    rw [skipByte_append hrest]
    exact scanHeaders_append hheaders _
  rw [append_assoc, fastParse_of_scan hdelimited hmore hconnection]
  simp only [Option.some.injEq, ParsedHttpRequest.mk.injEq, true_and, length_append]
  omega

/-! ## The parse step -/

/-- llhttp reads the bytes in order and reports at once what is certain; it pauses
only behind a complete header section. -/
structure ReadsInOrder (llhttp : Llhttp) : Prop where
  start : (llhttp []).errno = .ok
  /-- What llhttp has reported does not depend on the bytes that follow. -/
  decided : ∀ data more, (llhttp data).errno ≠ .ok → llhttp (data ++ more) = llhttp data
  position : ∀ data, Paused llhttp data →
    ∃ position, (llhttp data).errorPos = some position ∧ 0 < position ∧ position ≤ data.length
  /-- There is nothing to pause at inside a request line. -/
  line : ∀ (head : Head) part rest, Delimited head.target → part ++ rest = head.requestLine →
    ¬ Paused llhttp part
  /-- Behind a request line there is a header section to be read first. -/
  headers : ∀ (head : Head) rest, Delimited head.target →
    Paused llhttp (head.requestLine ++ rest) →
      ∃ fields tail, (∀ field ∈ fields, FieldWellFormed field) ∧ rest = headerSection fields ++ tail

theorem ReadsInOrder.pausesInside {llhttp : Llhttp} (h : ReadsInOrder llhttp) :
    PausesInside llhttp := by
  intro data hpaused
  obtain ⟨position, hposition, hpositive, hle⟩ := h.position _ hpaused
  rw [headerEnd, hposition]
  exact ⟨hpositive, hle⟩

/-- What is visible of a request. -/
structure Seen where
  method : Bytes
  path : Bytes
  queryString : Bytes
  headers : List Header
  body : Bytes
  keepAlive : Bool
  deriving DecidableEq

def seen (parsed : ParsedHttpRequest) : Seen where
  method := parsed.method
  path := parsed.path
  queryString := parsed.queryString
  headers := parsed.headers
  body := parsed.body
  keepAlive := parsed.keepAlive

def requestStep (llhttp : Llhttp) (data : Bytes) : Step Seen :=
  match parseStep llhttp data with
  | .needMore => .needMore
  | .error => .fail
  | .request parsed => .item (seen parsed) parsed.totalConsumed

theorem parseHttpRequest_of_fail {llhttp : Llhttp}
    (h : requestStep llhttp data = .fail) : parseHttpRequest llhttp data = .error := by
  rw [requestStep] at h
  split at h
  · cases h
  · rename_i herror
    rw [parseStep] at herror
    split at herror
    · cases herror
    · exact herror
  · cases h

theorem errno_of_fail {llhttp : Llhttp} (h : requestStep llhttp data = .fail) :
    (llhttp data).errno = .error := by
  have herror := parseHttpRequest_of_fail h
  have hnot : ¬ Paused llhttp data := by
    intro hpaused
    rw [parseHttpRequest_of_paused hpaused] at herror
    split at herror
    · dsimp only at herror
      split at herror <;> cases herror
    · cases herror
  cases herrno : (llhttp data).errno with
  | error => rfl
  | ok => simp [parseHttpRequest, herrno] at herror
  | paused => exact absurd (.inl herrno) hnot
  | pausedUpgrade => exact absurd (.inr herrno) hnot

section Steps

variable {llhttp : Llhttp} (horder : ReadsInOrder llhttp)

include horder

theorem parseHttpRequest_append {result : ParseResult}
    (h : parseHttpRequest llhttp data = result) (hdecided : result ≠ .needMore) (more : Bytes) :
    parseHttpRequest llhttp (data ++ more) = result := by
  have herrno : (llhttp data).errno ≠ .ok := by
    intro hok
    apply hdecided
    rw [← h, parseHttpRequest, hok]
  have hsame := horder.decided _ more herrno
  by_cases hpaused : Paused llhttp data
  · have hpaused' : Paused llhttp (data ++ more) := by rwa [Paused, hsame]
    obtain ⟨position, hposition, -, -⟩ := horder.position _ hpaused
    have hend : headerEnd llhttp (data ++ more) = headerEnd llhttp data := by
      simp [headerEnd, hsame, hposition]
    rw [parseHttpRequest_of_paused hpaused] at h
    rw [parseHttpRequest_of_paused hpaused', hend, hsame]
    split at h
    · rename_i hskip
      rw [if_pos hskip]
      dsimp only at h ⊢
      split at h
      · exact absurd h.symm hdecided
      · rename_i henough
        rw [if_neg]
        · exact h
        · rw [length_append]
          omega
    · rename_i hskip
      rw [if_neg hskip]
      exact h
  · have herror : (llhttp data).errno = .error := by
      cases hcases : (llhttp data).errno with
      | ok => exact absurd hcases herrno
      | error => rfl
      | paused => exact absurd (.inl hcases) hpaused
      | pausedUpgrade => exact absurd (.inr hcases) hpaused
    rw [← h, parseHttpRequest, parseHttpRequest, hsame, herror]

/-- What llhttp has accepted the fast path has accepted too, or never will. -/
theorem fastParse_of_paused {more : Bytes} (hpaused : Paused llhttp data)
    {fast : ParsedHttpRequest} (h : fastParse (data ++ more) = some fast) :
    (fastParse data).isSome := by
  obtain ⟨head, rest, hdelimited, hdata⟩ := exists_requestLine h
  rcases append_eq_append_iff.mp hdata with ⟨part, hline, -⟩ | ⟨part, hdata, hrest⟩
  · exact absurd hpaused (horder.line _ _ _ hdelimited hline.symm)
  · rw [hdata] at hpaused
    obtain ⟨fields, tail, hfields, hpart⟩ := horder.headers _ _ hdelimited hpaused
    have hread (tail : Bytes) := scanHeaders_render hfields maxHeaders tail
    rw [hdata, append_assoc] at h
    obtain ⟨headers, tail', keepAlive, hheaders, hconnection, -⟩ :=
      fastParse_requestLine hdelimited h
    rw [hpart, headerSection, cons_append, cons_append, skipByte_cons, append_assoc,
      hread] at hheaders
    split at hheaders
    · rename_i hslots
      cases hheaders
      have hscan : scanHeaders maxHeaders (skipByte lf (headerSection fields ++ tail)) =
          some (fields.map fun field => (field.1, scannedValue field.2), tail) := by
        rw [headerSection, cons_append, skipByte_cons, hread, if_pos hslots]
      rw [hdata, hpart, fastParse_of_scan hdelimited hscan hconnection]
      rfl
    · cases hheaders

theorem parseStep_append {parsed : ParsedHttpRequest}
    (h : parseStep llhttp data = .request parsed) (more : Bytes) :
    parseStep llhttp (data ++ more) = .request parsed := by
  rw [parseStep] at h
  split at h
  · rename_i hfast
    cases h
    rw [parseStep, fastParse_append hfast _]
  · rename_i hfast
    have hnever : fastParse (data ++ more) = none := by
      by_contra hsome
      obtain ⟨fast, hlater⟩ := ne_none_iff_exists'.mp hsome
      have hnow := fastParse_of_paused horder (paused_of_request h) hlater
      simp [hfast] at hnow
    rw [parseStep, hnever]
    exact parseHttpRequest_append horder h (by simp) _

theorem requestStep_stable : Stable (requestStep llhttp) where
  inside {data value consumed} h := by
    rw [requestStep] at h
    split at h
    · cases h
    · cases h
    · rename_i parsed hparsed
      cases h
      exact parseStep_consumed_le horder.pausesInside hparsed
  append {data value consumed} more h := by
    rw [requestStep] at h
    split at h
    · cases h
    · cases h
    · rename_i parsed hparsed
      rw [requestStep, parseStep_append horder hparsed _]
      exact h

theorem requestStep_nil : requestStep llhttp [] = .needMore := by
  have hfast : fastParse [] = none := rfl
  rw [requestStep, parseStep, hfast]
  rw [parseHttpRequest, horder.start]

/-- What is refused stays refused unless the fast path accepts it. -/
theorem requestStep_fail_iff (h : requestStep llhttp data = .fail) (more : Bytes) :
    requestStep llhttp (data ++ more) = .fail ↔ fastParse (data ++ more) = none := by
  have hlater := parseHttpRequest_append horder (parseHttpRequest_of_fail h) (by simp) more
  rw [requestStep, parseStep]
  cases fastParse (data ++ more) with
  | none => simp [hlater]
  | some fast => simp

end Steps

/-! ## Connections -/

section Connection

variable {llhttp : Llhttp} (horder : ReadsInOrder llhttp)

/-- The parse step in the place of `dispatch_one_request`. -/
def parseOnly : Dispatch Empty where
  result data :=
    match parseStep llhttp data with
    | .needMore => .incomplete
    | .error => .failed
    | .request parsed => .handled parsed.totalConsumed
  writes _ := []
  fits data := by
    split
    · exact Nat.zero_le _
    · exact Nat.zero_le _
    · rename_i parsed hparsed
      exact parseStep_consumed_le horder.pausesInside hparsed

variable (llhttp) in
/-- The requests found by some calls of the parse step. -/
def requestsOf (calls : List Bytes) : List Seen :=
  calls.filterMap fun call =>
    match parseStep llhttp call with
    | .request parsed => some (seen parsed)
    | _ => none

/-- A connection receives chunks until one of them is answered with an error. -/
inductive Receives : HttpConnectionBuffer → List Bytes → List Seen → Outcome → Prop
  | done {buffer : HttpConnectionBuffer} : Receives buffer [] [] .waiting
  | more {buffer : HttpConnectionBuffer} {chunk : Bytes} {chunks : List Bytes} {fuel : ℕ}
      {batch : Batch Empty} {later : List Seen} {outcome : Outcome}
      (h : handleHttpAppendAndDispatch (parseOnly horder) fuel buffer (some chunk) = some batch)
      (hopen : batch.reply ≠ .code (-2)) (next : Receives batch.buffer chunks later outcome) :
      Receives buffer (chunk :: chunks) (requestsOf llhttp batch.calls ++ later) outcome
  | failed {buffer : HttpConnectionBuffer} {chunk : Bytes} {chunks : List Bytes} {fuel : ℕ}
      {batch : Batch Empty}
      (h : handleHttpAppendAndDispatch (parseOnly horder) fuel buffer (some chunk) = some batch)
      (hclosed : batch.reply = .code (-2)) :
      Receives buffer (chunk :: chunks) (requestsOf llhttp batch.calls) .failed

def Stopped : Dispatched Empty → Outcome → Prop
  | .incomplete, outcome => outcome = .waiting
  | .failed, outcome => outcome = .failed
  | _, _ => False

theorem drains_of_traverses {raw : Bytes} {offset last : ℕ} {calls : List Bytes}
    {result : Dispatched Empty}
    (h : Traverses (parseOnly horder) raw offset calls last result) :
    ∃ outcome, Stopped result outcome ∧
      Drains (requestStep llhttp) (raw.drop offset) (requestsOf llhttp calls) (raw.drop last)
        outcome := by
  induction h with
  | @stop offset h =>
    cases hparsed : parseStep llhttp (raw.drop offset) with
    | needMore =>
      have hstep : requestStep llhttp (raw.drop offset) = .needMore := by
        rw [requestStep, hparsed]
      refine ⟨.waiting, by simp [parseOnly, hparsed, Stopped], ?_⟩
      simpa [requestsOf, hparsed] using Drains.waiting hstep
    | error =>
      have hstep : requestStep llhttp (raw.drop offset) = .fail := by
        rw [requestStep, hparsed]
      refine ⟨.failed, by simp [parseOnly, hparsed, Stopped], ?_⟩
      simpa [requestsOf, hparsed] using Drains.failed hstep
    | request parsed => exact absurd (by simp [parseOnly, hparsed]) (h parsed.totalConsumed)
  | @next offset consumed last calls result h rest ih =>
    obtain ⟨outcome, hstopped, hdrains⟩ := ih
    refine ⟨outcome, hstopped, ?_⟩
    cases hparsed : parseStep llhttp (raw.drop offset) with
    | needMore | error => simp [parseOnly, hparsed] at h
    | request parsed =>
      have hconsumed : parsed.totalConsumed = consumed := by
        simpa [parseOnly, hparsed] using h
      have hstep : requestStep llhttp (raw.drop offset) = .item (seen parsed) consumed := by
        rw [requestStep, hparsed, ← hconsumed]
      have hcalls : requestsOf llhttp (raw.drop offset :: calls) =
          seen parsed :: requestsOf llhttp calls := by
        simp [requestsOf, hparsed]
      rw [hcalls]
      apply Drains.item hstep
      rw [drop_drop]
      exact hdrains

/-- `parseOnly` answers what the step says. -/
theorem parseOnly_result (data : Bytes) :
    (parseOnly horder).result data =
      match requestStep llhttp data with
      | .needMore => .incomplete
      | .fail => .failed
      | .item _ consumed => .handled consumed := by
  rw [requestStep]
  simp only [parseOnly]
  split <;> rfl

theorem traverse_of_drains {raw left : Bytes} {offset : ℕ}
    (h : Drains (requestStep llhttp) data items left outcome)
    (hdata : raw.drop offset = data) :
    ∃ fuel, (traverse (parseOnly horder) raw fuel offset).isSome := by
  induction h generalizing offset with
  | waiting h | failed h =>
    refine ⟨1, ?_⟩
    rw [traverse, parseOnly_result, hdata, h]
    rfl
  | @item data rest value consumed items outcome h next ih =>
    obtain ⟨fuel, hsome⟩ := ih (show raw.drop (offset + consumed) = _ by
      rw [← drop_drop, hdata])
    refine ⟨fuel + 1, ?_⟩
    rw [traverse, parseOnly_result, hdata, h, isSome_map]
    exact hsome

theorem drains_of_batch (hvalid : buffer.Valid) {fuel : ℕ}
    {batch : Batch Empty}
    (h : handleHttpBatchV2 (parseOnly horder) fuel buffer = some batch) :
    (Drains (requestStep llhttp) buffer.contents (requestsOf llhttp batch.calls)
        batch.buffer.contents .waiting ∧ batch.reply ≠ .code (-2) ∧ batch.buffer.Valid ∧
        batch.buffer.writePos ≤ buffer.writePos) ∨
      ∃ left, Drains (requestStep llhttp) buffer.contents (requestsOf llhttp batch.calls) left
        .failed ∧ batch.reply = .code (-2) := by
  rw [handleHttpBatchV2] at h
  split at h
  · rename_i hsize
    cases h
    have hcontents : buffer.contents = [] := by
      rw [← length_eq_zero_iff, HttpConnectionBuffer.length_contents hvalid, hsize]
    refine .inl ⟨?_, by simp, hvalid, le_rfl⟩
    rw [hcontents]
    exact .waiting (requestStep_nil horder)
  · rw [batchV2Loop_eq] at h
    obtain ⟨⟨calls, last, result⟩, htraverse, hbatch⟩ := map_eq_some_iff.mp h
    simp only [nil_append] at hbatch
    subst hbatch
    obtain ⟨outcome, hstopped, hdrains⟩ := drains_of_traverses horder (traverses_of_traverse htraverse)
    rw [finishBatch_calls]
    cases result with
    | handled consumed => cases hstopped
    | pair consumed inner => exact inner.elim
    | incomplete =>
      cases hstopped
      have hcontents : (finishBatch buffer calls last (.incomplete : Dispatched Empty)).buffer.contents
          = buffer.contents.drop last := finishBatch_contents _ _ _ (by simp)
      rw [hcontents]
      refine .inl ⟨hdrains, ?_⟩
      simp only [finishBatch]
      split
      · refine ⟨?_, buffer.consume_valid hvalid _, buffer.writePos_consume_le _⟩
        simp only [ne_eq, Reply.code.injEq]
        split <;> decide
      · exact ⟨by simp, hvalid, le_rfl⟩
    | failed =>
      cases hstopped
      exact .inr ⟨_, hdrains, rfl⟩

theorem batch_of_drains {left : Bytes}
    (h : Drains (requestStep llhttp) buffer.contents items left outcome) :
    ∃ fuel batch, handleHttpBatchV2 (parseOnly horder) fuel buffer = some batch := by
  obtain ⟨fuel, hsome⟩ := traverse_of_drains horder h (drop_zero (l := buffer.contents))
  refine ⟨fuel, isSome_iff_exists.mp ?_⟩
  rw [handleHttpBatchV2]
  split
  · rfl
  · rw [batchV2Loop_eq, isSome_map]
    exact hsome

/-- Room for all that is still to come. -/
def Holds (buffer : HttpConnectionBuffer) (chunks : List Bytes) : Prop :=
  buffer.Valid ∧ buffer.writePos + chunks.flatten.length ≤ HttpConnectionBuffer.maxCapacity

theorem append_of_holds {chunk : Bytes}
    (h : Holds buffer (chunk :: chunks)) :
    (buffer.append chunk).1 = true ∧ Holds (buffer.append chunk).2 chunks ∧
      (buffer.append chunk).2.contents = buffer.contents ++ chunk := by
  obtain ⟨hvalid, hlimit⟩ := h
  rw [flatten_cons, length_append] at hlimit
  have hroom : buffer.writePos + chunk.length ≤ HttpConnectionBuffer.maxCapacity := by omega
  have hsize : buffer.size ≤ buffer.writePos := Nat.sub_le _ _
  have hwrite := buffer.writePos_append_le chunk
  obtain ⟨hsuccess, hvalid', hcontents⟩ :=
    HttpConnectionBuffer.append_spec hvalid (show buffer.size + chunk.length ≤ _ by omega)
      (fun _ _ => hroom)
  exact ⟨hsuccess, ⟨hvalid', by omega⟩, hcontents⟩

/-- A connection that has room for all chunks finds what the parser finds in them. -/
theorem receives_iff (h : Holds buffer chunks) :
    Receives horder buffer chunks items outcome ↔
      Feeds (requestStep llhttp) buffer.contents chunks items outcome := by
  induction chunks generalizing buffer items with
  | nil =>
    constructor
    · intro hreceives
      cases hreceives
      exact .done
    · intro hfeeds
      cases hfeeds
      exact .done
  | cons chunk chunks ih =>
    obtain ⟨hsuccess, ⟨hvalid, hlimit⟩, hcontents⟩ := append_of_holds h
    have hbatch (fuel : ℕ) :
        handleHttpAppendAndDispatch (parseOnly horder) fuel buffer (some chunk) =
          handleHttpBatchV2 (parseOnly horder) fuel (buffer.append chunk).2 := by
      rw [appendAndDispatch_eq_batch]
      simp [hsuccess]
    have hdrained {fuel : ℕ} {batch : Batch _}
        (hb : handleHttpBatchV2 _ fuel _ = some batch) :=
      drains_of_batch horder hvalid hb
    rw [hcontents] at hdrained
    constructor
    · intro hreceives
      cases hreceives with
      | more hb hopen next =>
        rw [hbatch] at hb
        rcases hdrained hb with ⟨hdrains, -, hvalid', hwrite⟩ | ⟨left, -, hclosed⟩
        · rw [ih ⟨hvalid', by omega⟩] at next
          exact .more hdrains next
        · exact absurd hclosed hopen
      | failed hb hclosed =>
        rw [hbatch] at hb
        rcases hdrained hb with ⟨-, hopen, -, -⟩ | ⟨left, hdrains, -⟩
        · exact absurd hclosed hopen
        · exact .failed hdrains
    · intro hfeeds
      cases hfeeds with
      | more hdrains next =>
        obtain ⟨fuel, batch, hb⟩ := batch_of_drains horder (hcontents ▸ hdrains)
        rcases hdrained hb with ⟨hdrains', hopen, hvalid', hwrite⟩ | ⟨left, hdrains', -⟩
        · obtain ⟨rfl, rfl, -⟩ := hdrains.unique hdrains'
          exact .more ((hbatch _).trans hb) hopen ((ih ⟨hvalid', by omega⟩).mpr next)
        · cases (hdrains.unique hdrains').2.2
      | failed hdrains =>
        obtain ⟨fuel, batch, hb⟩ := batch_of_drains horder (hcontents ▸ hdrains)
        rcases hdrained hb with ⟨hdrains', -, -, -⟩ | ⟨left, hdrains', hclosed⟩
        · cases (hdrains.unique hdrains').2.2
        · obtain ⟨rfl, -, -⟩ := hdrains.unique hdrains'
          exact .failed ((hbatch _).trans hb) hclosed

theorem holds_create
    (h : chunks.flatten.length ≤ HttpConnectionBuffer.maxCapacity) : Holds .create chunks :=
  ⟨HttpConnectionBuffer.create_valid, (Nat.zero_add _).trans_le h⟩

/-- A new connection. -/
theorem receives_create_iff (h : chunks.flatten.length ≤ HttpConnectionBuffer.maxCapacity) :
    Receives horder .create chunks items outcome ↔
      Feeds (requestStep llhttp) [] chunks items outcome := by
  have hcontents : HttpConnectionBuffer.create.contents = [] := by
    simp [HttpConnectionBuffer.contents, HttpConnectionBuffer.size, HttpConnectionBuffer.create]
  rw [receives_iff horder (holds_create h), hcontents]

/-- Every two ways of cutting the stream lead to the same requests and the same
outcome. -/
def SegmentationIndependent (stream : Bytes) : Prop :=
  ∀ left right : List Bytes, left.flatten = stream → right.flatten = stream →
    ∀ requests outcome, Receives horder .create left requests outcome ↔
      Receives horder .create right requests outcome

/-- The cuts of a stream do not matter exactly if the fast path never accepts what
llhttp has refused before all of it had arrived. -/
theorem segmentation_iff {stream : Bytes}
    (hlimit : stream.length ≤ HttpConnectionBuffer.maxCapacity) :
    SegmentationIndependent horder stream ↔
      ∀ arrived later, arrived ++ later = stream → ∀ requests rest,
        Drains (requestStep llhttp) arrived requests rest .failed →
          fastParse (rest ++ later) = none := by
  have hnew (chunks : List _) (hchunks : chunks.flatten = stream) (requests : List _)
      (outcome : Outcome) : Receives horder .create chunks requests outcome ↔
        Feeds (requestStep llhttp) [] chunks requests outcome := by
    apply receives_create_iff
    rw [hchunks]
    exact hlimit
  calc
    SegmentationIndependent horder stream ↔ Independent (requestStep llhttp) stream := by
      constructor
      · intro h left right hleft hright requests outcome
        rw [← hnew left hleft, ← hnew right hright]
        exact h left right hleft hright requests outcome
      · intro h left right hleft hright requests outcome
        rw [hnew left hleft, hnew right hright]
        exact h left right hleft hright requests outcome
    _ ↔ FailsForGood (requestStep llhttp) [] stream :=
      independent_iff (requestStep_stable horder) (requestStep_nil horder)
    _ ↔ _ := by
      constructor
      · intro h arrived later hstream requests rest hdrains
        rw [← requestStep_fail_iff horder hdrains.step_fail]
        exact h _ _ hstream _ _ hdrains
      · intro h arrived later hstream requests rest hdrains
        rw [requestStep_fail_iff horder hdrains.step_fail]
        exact h _ _ hstream _ _ hdrains

end Connection

/-! ## Two streams -/

def recognising (head : Head) : Llhttp := fun data =>
  if head.render.isPrefixOf data then
    { errno := .paused
      errorPos := some head.render.length
      method := head.method
      url := head.target
      fields := head.fields.map fun field => (field.1, fieldValue field.2)
      headersComplete := some
        { kind := if head.isHead then .head else .get
          keepAlive := head.shouldKeepAlive
          upgrade := head.upgrade
          chunked := head.chunked
          contentLength := head.contentLength } }
  else { errno := .ok }

theorem exists_of_paused_recognising {head : Head}
    (h : Paused (recognising head) data) : ∃ tail, data = head.render ++ tail := by
  by_cases hbegins : head.render.isPrefixOf data = true
  · obtain ⟨tail, htail⟩ := isPrefixOf_iff_prefix.mp hbegins
    exact ⟨tail, htail.symm⟩
  · simp [Paused, recognising, hbegins] at h

theorem recognising_append (head : Head) (tail : Bytes) :
    recognising head (head.render ++ tail) = recognising head head.render := by
  have hbegins (tail : Bytes) : head.render.isPrefixOf (head.render ++ tail) = true :=
    isPrefixOf_iff_prefix.mpr (prefix_append _ _)
  have hself := hbegins []
  rw [append_nil] at hself
  rw [recognising, recognising, if_pos (hbegins _), if_pos hself]

theorem render_ne_nil (head : Head) : head.render ≠ [] := by
  simp [render, headerSection]

theorem recognising_readsInOrder {head : Head} (hhead : head.WellFormed) :
    ReadsInOrder (recognising head) := by
  have hdelimited : sp ∉ head.target := fun hmem => (hhead.target _ hmem).1 rfl
  have hbegins {data : Bytes} (h : (recognising head data).errno ≠ .ok) :
      ∃ tail, data = head.render ++ tail := by
    apply exists_of_paused_recognising
    by_contra hnot
    apply h
    unfold recognising
    split
    · rename_i hstart
      exact absurd (.inl (by simp [recognising, hstart])) hnot
    · rfl
  constructor
  · by_contra hstart
    obtain ⟨tail, htail⟩ := hbegins hstart
    exact render_ne_nil _ (append_eq_nil_iff.mp htail.symm).1
  · intro data more h
    obtain ⟨tail, rfl⟩ := hbegins h
    rw [append_assoc, recognising_append, recognising_append]
  · intro data hpaused
    obtain ⟨tail, rfl⟩ := exists_of_paused_recognising hpaused
    refine ⟨head.render.length, ?_, length_pos_iff.mpr (render_ne_nil _), by simp⟩
    rw [recognising, if_pos (List.isPrefixOf_iff_prefix.mpr (prefix_append _ _))]
  · intro other part rest htarget hline hpaused
    obtain ⟨tail, rfl⟩ := exists_of_paused_recognising hpaused
    have hlines : head.requestLine ++ (headerSection head.fields ++ (tail ++ rest)) =
        other.requestLine ++ [] := by
      rw [append_nil, ← hline]
      simp [render]
    have hrest := (requestLine_inj hdelimited (fun hmem => (htarget _ hmem).1 rfl) hlines).2.2.2.2
    simp [headerSection] at hrest
  · intro other rest htarget hpaused
    obtain ⟨tail, hdata⟩ := exists_of_paused_recognising hpaused
    rw [render, append_assoc] at hdata
    have hrest := (requestLine_inj (fun hmem => (htarget _ hmem).1 rfl) hdelimited hdata).2.2.2.2
    exact ⟨head.fields, tail, hhead.fields, hrest⟩

theorem segmentation_plainHead :
    ∃ horder : ReadsInOrder (recognising plainHead),
      SegmentationIndependent horder plainHead.render := by
  have horder : ReadsInOrder (recognising plainHead) := recognising_readsInOrder (by decide)
  refine ⟨horder, (segmentation_iff horder (by decide)).mpr ?_⟩
  intro arrived later hstream requests rest hdrains
  have herror := errno_of_fail hdrains.step_fail
  unfold recognising at herror
  split at herror <;> cases herror

/-- llhttp on a stream whose first bytes can begin no request. -/
def refusing (word : Bytes) : Llhttp := fun data =>
  if word.isPrefixOf data then { errno := .error } else { errno := .ok }

theorem refusing_readsInOrder {word : Bytes} (h : word ≠ []) : ReadsInOrder (refusing word) := by
  have hnever (data : Bytes) : ¬ Paused (refusing word) data := by
    unfold Paused refusing
    split <;> simp
  constructor
  · cases word with
    | nil => exact absurd rfl h
    | cons first word => rfl
  · intro data more hdecided
    have hbegins : word.isPrefixOf data = true := by
      by_contra hnot
      exact hdecided (by simp [refusing, hnot])
    have hmore : word.isPrefixOf (data ++ more) = true := by
      rw [List.isPrefixOf_iff_prefix] at hbegins ⊢
      exact hbegins.trans (prefix_append _ _)
    rw [refusing, refusing, if_pos hbegins, if_pos hmore]
  · intro data hpaused
    exact absurd hpaused (hnever _)
  · intro head part rest _ _
    exact hnever _
  · intro head rest _ hpaused
    exact absurd hpaused (hnever _)

def spacedBeginning : Bytes := ascii "GET / HTTP/1.1\r\nHost "

def spacedEnd : Bytes := ascii ": x\r\n\r\n"

def spacedRequest : Seen :=
  ⟨ascii "GET", ascii "/", [], [(ascii "Host ", ascii "x")], [], true⟩

/-- The whole request is accepted; its beginning is refused. -/
theorem spacedRequest_depends :
    ∃ horder : ReadsInOrder (refusing spacedBeginning),
      Receives horder .create [spacedBeginning ++ spacedEnd] [spacedRequest] .waiting ∧
      Receives horder .create [spacedBeginning, spacedEnd] [] .failed ∧
      ¬ SegmentationIndependent horder (spacedBeginning ++ spacedEnd) := by
  have horder : ReadsInOrder (refusing spacedBeginning) := refusing_readsInOrder (by decide)
  have hdrains : Drains (requestStep (refusing spacedBeginning))
      ([] ++ (spacedBeginning ++ spacedEnd)) [spacedRequest] [] .waiting := by
    have hstep : requestStep (refusing spacedBeginning) (spacedBeginning ++ spacedEnd) =
        .item spacedRequest 28 := rfl
    exact .item hstep (.waiting rfl)
  have hwhole : Receives horder .create [spacedBeginning ++ spacedEnd] [spacedRequest] .waiting := by
    rw [receives_create_iff horder (by decide)]
    exact .more hdrains .done
  have hcut : Receives horder .create [spacedBeginning, spacedEnd] [] .failed := by
    rw [receives_create_iff horder (by decide)]
    exact .failed (.failed rfl)
  refine ⟨horder, hwhole, hcut, ?_⟩
  intro hindependent
  have hother := (hindependent [spacedBeginning, spacedEnd] [spacedBeginning ++ spacedEnd] rfl rfl
    [] .failed).mp hcut
  rw [receives_create_iff horder (by decide)] at hother
  obtain ⟨left, hdrains'⟩ := hother.drains_of_failed
  cases (hdrains.unique hdrains').1

end AstraApi.Http
