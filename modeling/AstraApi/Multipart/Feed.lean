import AstraApi.Multipart.Parser

/-!
# Feeding the multipart parser

What one call of `feed` does in each state.  The search for the first boundary does
not depend on where the bytes are cut; a header grows up to its limit until its end
lies in one chunk; the data of a field is stored but for the last bytes.  What the
headers say is settled by their first end, wherever the parser finds one.
-/

namespace AstraApi.Multipart

open List Option
open Bytes Occurrence StreamingMultipartParser

variable {data rest : Bytes} {start fuel : ℕ} {parser' : StreamingMultipartParser}

/-! ## The opening boundary -/

/-- What the bytes say about the first boundary. -/
inductive Opening where
  | waiting
  | final
  | header (start : ℕ)
  deriving DecidableEq

def Opening.shift (count : ℕ) : Opening → Opening
  | .waiting => .waiting
  | .final => .final
  | .header start => .header (count + start)

def opening (boundary data : Bytes) : Opening :=
  match firstOccurrence boundary data with
  | none => .waiting
  | some pos =>
    let after := pos + boundary.length
    if data.length < after + 2 then .waiting
    else if data[after]? = some dash ∧ data[after + 1]? = some dash then .final
    else .header (skipLineEnd data after)

theorem le_skipLineEnd (data : Bytes) (after : ℕ) :
    after ≤ skipLineEnd data after ∧ skipLineEnd data after ≤ after + 2 := by
  simp only [skipLineEnd]
  split <;> split <;> omega

theorem skipLineEnd_append {after : ℕ} (hroom : after + 2 ≤ data.length)
    (more : Bytes) : skipLineEnd (data ++ more) after = skipLineEnd data after := by
  have hfirst : (data ++ more)[after]? = data[after]? := getElem?_append_left (by omega)
  have hsecond : (data ++ more)[after + 1]? = data[after + 1]? :=
    getElem?_append_left (by omega)
  simp only [skipLineEnd]
  rw [hfirst]
  split
  · rw [hsecond]
  · rw [hfirst]

theorem skipLineEnd_append_left (skipped data : Bytes) (after : ℕ) :
    skipLineEnd (skipped ++ data) (skipped.length + after) =
      skipped.length + skipLineEnd data after := by
  have hget (i : ℕ) : (skipped ++ data)[skipped.length + i]? = data[i]? := by
    rw [getElem?_append_right (Nat.le_add_right _ _), Nat.add_sub_cancel_left]
  simp only [skipLineEnd]
  rw [hget, Nat.add_assoc]
  split
  · rw [hget]
    split <;> rfl
  · rw [hget]
    split <;> rfl

variable {boundary data : Bytes}

/-- Two bytes behind the boundary decide. -/
theorem opening_append (hne : boundary ≠ []) (h : opening boundary data ≠ .waiting)
    (more : Bytes) : opening boundary (data ++ more) = opening boundary data := by
  unfold opening at h ⊢
  cases hfirst : firstOccurrence boundary data with
  | none =>
    rw [hfirst] at h
    exact absurd rfl h
  | some pos =>
    rw [firstOccurrence_append hne hfirst]
    rw [hfirst] at h
    simp only at h ⊢
    by_cases hshort : data.length < pos + boundary.length + 2
    · rw [if_pos hshort] at h
      exact absurd rfl h
    · have hlonger : ¬ (data ++ more).length < pos + boundary.length + 2 := by
        rw [length_append]
        omega
      rw [if_neg hshort, if_neg hlonger, getElem?_append_left (by omega),
        getElem?_append_left (by omega), skipLineEnd_append (by omega)]

theorem opening_skip {skipped : Bytes}
    (h : firstOccurrence boundary (skipped ++ data) =
      (firstOccurrence boundary data).map fun i => skipped.length + i) :
    opening boundary (skipped ++ data) = (opening boundary data).shift skipped.length := by
  have hget (i : ℕ) : (skipped ++ data)[skipped.length + i]? = data[i]? := by
    rw [getElem?_append_right (Nat.le_add_right _ _), Nat.add_sub_cancel_left]
  unfold opening
  rw [h]
  cases firstOccurrence boundary data with
  | none => rfl
  | some pos =>
    simp only [map_some, Nat.add_assoc, length_append, hget, Nat.add_lt_add_iff_left]
    rw [skipLineEnd_append_left]
    split
    · rfl
    · split <;> rfl

theorem header_bounds (h : opening boundary data = .header start) :
    boundary.length ≤ start ∧ start ≤ data.length := by
  unfold opening at h
  split at h
  · cases h
  · rename_i pos _
    simp only at h
    split at h
    · cases h
    · split at h
      · cases h
      · obtain rfl := Opening.header.inj h
        have hskip := le_skipLineEnd data (pos + boundary.length)
        omega

/-- Two bytes of the header suffice to know where it starts. -/
theorem opening_take {count : ℕ} (hne : boundary ≠ [])
    (h : opening boundary data = .header start) (hcount : start + 2 ≤ count) :
    opening boundary (data.take count) = .header start := by
  by_cases hwaiting : opening boundary (data.take count) = .waiting
  · unfold opening at h hwaiting
    cases hfirst : firstOccurrence boundary data with
    | none =>
      rw [hfirst] at h
      cases h
    | some pos =>
      rw [hfirst] at h
      simp only at h
      split at h
      · cases h
      · rename_i henough
        split at h
        · cases h
        · obtain rfl := Opening.header.inj h
          have hskip := le_skipLineEnd data (pos + boundary.length)
          obtain ⟨hoccurs, hnone⟩ := (firstOccurrence_eq_some_iff hne).mp hfirst
          rw [← take_append_drop _ data] at hoccurs hnone
          have hfront : firstOccurrence boundary (data.take count) = some pos := by
            apply (firstOccurrence_eq_some_iff hne).mpr
            constructor
            · apply (occursAt_append_iff _).mp hoccurs
              rw [length_take]
              omega
            · intro j hj hearlier
              exact hnone j hj (hearlier.append hne _)
          rw [hfront] at hwaiting
          simp only [length_take] at hwaiting
          split at hwaiting
          · omega
          · split at hwaiting <;> cases hwaiting
  · have happend := opening_append hne hwaiting (data.drop count)
    rw [take_append_drop, h] at happend
    exact happend.symm

/-- At most two bytes of a header are there when the boundary has just been decided. -/
theorem length_drop_of_waiting {b : Byte} (hne : boundary ≠ [])
    (hwaiting : opening boundary data = .waiting)
    (h : opening boundary (data ++ [b]) = .header start) :
    ((data ++ [b]).drop start).length ≤ 2 := by
  unfold opening at h hwaiting
  cases hfirst : firstOccurrence boundary (data ++ [b]) with
  | none =>
    rw [hfirst] at h
    cases h
  | some pos =>
    rw [hfirst] at h
    simp only at h
    split at h
    · cases h
    · rename_i henough
      split at h
      · cases h
      · obtain rfl := Opening.header.inj h
        have hskip := le_skipLineEnd (data ++ [b]) (pos + boundary.length)
        rw [length_append, length_singleton] at henough
        rw [length_drop, length_append, length_singleton]
        obtain ⟨hoccurs, hnone⟩ := (firstOccurrence_eq_some_iff hne).mp hfirst
        have hbefore : firstOccurrence boundary data = some pos := by
          apply (firstOccurrence_eq_some_iff hne).mpr
          constructor
          · exact (occursAt_append_iff (by omega)).mp hoccurs
          · intro j hj hearlier
            exact hnone j hj (hearlier.append hne [b])
        rw [hbefore] at hwaiting
        simp only at hwaiting
        split at hwaiting
        · omega
        · split at hwaiting <;> cases hwaiting

def Keeps (boundary data kept : Bytes) : Prop :=
  ∃ skipped, data = skipped ++ kept ∧ ∀ more,
    firstOccurrence boundary (data ++ more) =
      (firstOccurrence boundary (kept ++ more)).map fun i => skipped.length + i

theorem Keeps.initial (boundary : Bytes) : Keeps boundary [] [] := by
  use []
  constructor
  · rfl
  · intro more
    simp

/-! ## The loop, state by state -/

namespace StreamingMultipartParser

variable {parser : StreamingMultipartParser}

theorem bmhSearch_eq (hne : parser.boundary ≠ []) (data : Bytes) :
    parser.bmhSearch data = firstOccurrence parser.boundary data := by
  have hpos := length_pos_of_ne_nil hne
  unfold bmhSearch
  split
  · rename_i hshort
    symm
    apply (firstOccurrence_eq_none_iff hne).mpr
    intro i hoccurs
    have hfits := hoccurs.add_length_le hne
    omega
  · apply horspool_eq_firstOccurrence (by norm_num) hne
    · omega
    · omega
    · intro j hj
      omega

theorem feedLoop_step (hdata : data ≠ []) {consumed : ℕ}
    (hprocess : parser.process data = (.needMore, consumed, parser')) (hconsumed : consumed ≠ 0) :
    feedLoop (fuel + 1) parser data = feedLoop fuel parser' (data.drop consumed) := by
  obtain ⟨b, bytes, rfl⟩ := exists_cons_of_ne_nil hdata
  simp [feedLoop, hprocess, if_neg hconsumed]

theorem feedLoop_wait (hdata : data ≠ [])
    (hprocess : parser.process data = (.needMore, 0, parser')) :
    feedLoop (fuel + 1) parser data = (.needMore, { parser' with lookahead := data }) := by
  obtain ⟨b, bytes, rfl⟩ := exists_cons_of_ne_nil hdata
  simp [feedLoop, hprocess]

theorem feedLoop_stop (hdata : data ≠ []) {result : FeedResult}
    {consumed : ℕ}
    (hprocess : parser.process data = (result, consumed, parser'))
    (hresult : result ≠ .needMore) : feedLoop (fuel + 1) parser data = (result, parser') := by
  obtain ⟨b, bytes, rfl⟩ := exists_cons_of_ne_nil hdata
  simp [feedLoop, hprocess, if_neg hresult]

theorem feedLoop_nil (hstate : parser.state ≠ .done) :
    feedLoop (fuel + 1) parser [] = (.needMore, parser) := by
  simp [feedLoop, if_neg hstate]

/-- A turn that takes all bytes is the last one. -/
theorem feedLoop_all (hdata : data ≠ []) (hfuel : data.length ≤ fuel)
    (hprocess : parser.process data = (.needMore, data.length, parser'))
    (hstate : parser'.state ≠ .done) :
    feedLoop (fuel + 1) parser data = (.needMore, parser') := by
  have hlength := length_pos_of_ne_nil hdata
  obtain ⟨fuel, rfl⟩ := Nat.exists_eq_add_one_of_ne_zero (show fuel ≠ 0 by omega)
  rw [feedLoop_step hdata hprocess (by omega), drop_length]
  exact feedLoop_nil hstate

section Preamble

variable (hstate : parser.state = .preamble) (hne : parser.boundary ≠ [])

include hstate hne

theorem process_preamble_none (hfirst : firstOccurrence parser.boundary data = none) :
    parser.process data = (.needMore, data.length,
      { parser with
        lookahead := data.drop (data.length - min data.length (parser.boundary.length - 1)) }) := by
  simp [process, hstate, processPreamble, bmhSearch_eq hne, hfirst]

theorem process_preamble_some {pos : ℕ}
    (hfirst : firstOccurrence parser.boundary data = some pos) :
    parser.process data = parser.afterBoundary data pos (pos + parser.boundary.length) := by
  simp [process, hstate, processPreamble, bmhSearch_eq hne, hfirst]

/-- Without a boundary, the bytes that may begin one are kept. -/
theorem feedLoop_preamble_absent (hfuel : data.length < fuel + 1)
    (hdata : data ≠ []) (hfirst : firstOccurrence parser.boundary data = none) :
    ∃ kept, feedLoop (fuel + 1) parser data = (.needMore, { parser with lookahead := kept }) ∧
      Keeps parser.boundary data kept := by
  have hdone : parser.state ≠ .done := by
    rw [hstate]
    decide
  have hprocess := process_preamble_none hstate hne hfirst
  generalize hskip : data.length - min data.length (parser.boundary.length - 1) = skip at hprocess
  use data.drop skip
  constructor
  · exact feedLoop_all hdata (by omega) hprocess hdone
  · use data.take skip
    refine ⟨(take_append_drop _ _).symm, ?_⟩
    intro more
    have hparts := take_append_drop skip data
    rw [← hparts] at hfirst
    have hkept : data.take skip = [] ∨ parser.boundary.length ≤ (data.drop skip).length + 1 := by
      rcases Nat.eq_zero_or_pos skip with hzero | hpos
      · left
        rw [hzero, take_zero]
      · rw [length_drop]
        omega
    have hkeep := firstOccurrence_keep hne hfirst hkept more
    rw [hparts] at hkeep
    exact hkeep

/-- A boundary is kept until two bytes behind it have arrived. -/
theorem feedLoop_preamble_short (hfuel : data.length < fuel + 1)
    (hdata : data ≠ []) {pos : ℕ} (hfirst : firstOccurrence parser.boundary data = some pos)
    (hshort : data.length < pos + parser.boundary.length + 2) :
    ∃ kept, feedLoop (fuel + 1) parser data = (.needMore, { parser with lookahead := kept }) ∧
      Keeps parser.boundary data kept := by
  have hprocess := process_preamble_some hstate hne hfirst
  have hfits := ((firstOccurrence_eq_some_iff hne).mp hfirst).1.add_length_le hne
  have hboundary := length_pos_of_ne_nil hne
  have hlength : (data.take pos).length = pos := by
    rw [length_take]
    omega
  use data.drop pos
  constructor
  · rw [afterBoundary, if_pos hshort] at hprocess
    rcases Nat.eq_zero_or_pos pos with hzero | hpos
    · rw [hzero] at hprocess ⊢
      rw [feedLoop_wait hdata hprocess]
      rfl
    · -- the bytes in front are dropped first, and the next turn waits
      rw [feedLoop_step hdata hprocess (by omega)]
      obtain ⟨fuel, rfl⟩ := Nat.exists_eq_add_one_of_ne_zero (show fuel ≠ 0 by omega)
      have hrest : data.drop pos ≠ [] := by
        apply ne_nil_of_length_pos
        rw [length_drop]
        omega
      have hshort' : (data.drop pos).length < 0 + parser.boundary.length + 2 := by
        rw [length_drop]
        omega
      generalize hkeeping : ({ parser with lookahead := data.drop pos } :
        StreamingMultipartParser) = keeping
      have hstate' : keeping.state = .preamble := by rw [← hkeeping]; exact hstate
      have hboundary' : keeping.boundary = parser.boundary := by rw [← hkeeping]
      have hagain := process_preamble_some hstate' (hboundary' ▸ hne)
        (hboundary' ▸ firstOccurrence_drop hne hfirst)
      rw [hboundary', afterBoundary, if_pos hshort'] at hagain
      rw [feedLoop_wait hrest hagain, ← hkeeping]
  · use data.take pos
    refine ⟨(take_append_drop _ _).symm, ?_⟩
    intro more
    rw [firstOccurrence_append hne hfirst, firstOccurrence_append hne
      (firstOccurrence_drop hne hfirst), hlength]
    rfl

theorem feedLoop_preamble_waiting (hfuel : data.length < fuel)
    (hlookahead : parser.lookahead = [])
    (hwaiting : opening parser.boundary data = .waiting) :
    ∃ kept, feedLoop fuel parser data = (.needMore, { parser with lookahead := kept }) ∧
      Keeps parser.boundary data kept := by
  have hdone : parser.state ≠ .done := by
    rw [hstate]
    decide
  obtain ⟨fuel, rfl⟩ := Nat.exists_eq_add_one_of_ne_zero (Nat.ne_zero_of_lt hfuel)
  by_cases hdata : data = []
  · use []
    rw [hdata, feedLoop_nil hdone]
    refine ⟨?_, .initial _⟩
    rw [← hlookahead]
  cases hfirst : firstOccurrence parser.boundary data with
  | none => exact feedLoop_preamble_absent hstate hne hfuel hdata hfirst
  | some pos =>
    have hshort : data.length < pos + parser.boundary.length + 2 := by
      by_contra hlong
      simp only [opening, hfirst, if_neg hlong] at hwaiting
      split at hwaiting <;> cases hwaiting
    exact feedLoop_preamble_short hstate hne hfuel hdata hfirst hshort

theorem feedLoop_preamble_final (hfuel : data.length < fuel)
    (hfinal : opening parser.boundary data = .final) :
    feedLoop fuel parser data = (.done, { parser with state := .done }) := by
  obtain ⟨fuel, rfl⟩ := Nat.exists_eq_add_one_of_ne_zero (Nat.ne_zero_of_lt hfuel)
  unfold opening at hfinal
  cases hfirst : firstOccurrence parser.boundary data with
  | none =>
    rw [hfirst] at hfinal
    cases hfinal
  | some pos =>
    rw [hfirst] at hfinal
    simp only at hfinal
    have hprocess := process_preamble_some hstate hne hfirst
    split at hfinal
    · cases hfinal
    · rename_i henough
      split at hfinal
      · rename_i hdashes
        rw [afterBoundary, if_neg henough, if_pos hdashes] at hprocess
        apply feedLoop_stop _ hprocess
        · decide
        · apply ne_nil_of_length_pos
          omega
      · cases hfinal

theorem feedLoop_preamble_header (hfuel : data.length < fuel)
    (hheader : opening parser.boundary data = .header start) :
    ∃ fuel', (data.drop start).length < fuel' ∧ feedLoop fuel parser data =
        feedLoop fuel' { parser with state := .partHeader, curHeaderBuf := [] }
          (data.drop start) := by
  obtain ⟨fuel, rfl⟩ := Nat.exists_eq_add_one_of_ne_zero (Nat.ne_zero_of_lt hfuel)
  have hbounds := header_bounds hheader
  have hboundary := length_pos_of_ne_nil hne
  unfold opening at hheader
  cases hfirst : firstOccurrence parser.boundary data with
  | none =>
    rw [hfirst] at hheader
    cases hheader
  | some pos =>
    rw [hfirst] at hheader
    simp only at hheader
    have hprocess := process_preamble_some hstate hne hfirst
    split at hheader
    · cases hheader
    · rename_i henough
      split at hheader
      · cases hheader
      · rename_i hdashes
        rw [afterBoundary, if_neg henough, if_neg hdashes] at hprocess
        rw [Opening.header.inj hheader] at hprocess
        use fuel
        constructor
        · rw [length_drop]
          omega
        · apply feedLoop_step _ hprocess
          · omega
          · apply ne_nil_of_length_pos
            omega

end Preamble

/-! ## The parts found so far -/

def parts (parser : StreamingMultipartParser) : ℕ := parser.fields.length + parser.files.length

theorem parts_store (data : Bytes) : (parser.store data).parts = parser.parts := by
  unfold store
  split
  · cases hlast : parser.files.getLast? with
    | none =>
      rw [getLast?_eq_none_iff] at hlast
      simp [parts, hlast]
    | some file =>
      have hne : parser.files ≠ [] := by
        intro hnil
        rw [hnil] at hlast
        cases hlast
      have hpos := length_pos_of_ne_nil hne
      simp only [parts, length_append, length_dropLast, length_singleton]
      omega
  · rfl

theorem parts_afterBoundary (data : Bytes) (pos after : ℕ) :
    (parser.afterBoundary data pos after).2.2.parts = parser.parts := by
  unfold afterBoundary
  split
  · rfl
  · split <;> rfl

theorem parts_closePart : parser.parts ≤ parser.closePart.parts := by
  unfold closePart
  split
  · exact le_rfl
  · simp only [parts, length_append]
    omega

theorem parts_process (parser : StreamingMultipartParser) (data : Bytes) :
    parser.parts ≤ (parser.process data).2.2.parts := by
  unfold process
  split
  · unfold processPreamble
    split
    · exact le_rfl
    · exact (parts_afterBoundary _ _ _).ge
  · unfold processHeader
    split
    · split <;> exact le_rfl
    · simp only
      split
      · simp only [parts, length_append]
        omega
      · exact le_rfl
  · unfold processData
    split
    · simp only
      split
      · exact le_rfl
      · exact (parts_store _).ge
    · rw [parts_afterBoundary]
      exact (parts_store _).ge.trans parts_closePart
  · exact le_rfl
  · exact le_rfl

theorem parts_feedLoop (fuel : ℕ) (parser : StreamingMultipartParser) (data : Bytes) :
    parser.parts ≤ (feedLoop fuel parser data).2.parts ∧ (data ≠ [] → fuel ≠ 0 →
        (parser.process data).2.2.parts ≤ (feedLoop fuel parser data).2.parts) := by
  induction fuel generalizing parser data with
  | zero => exact ⟨le_rfl, by simp⟩
  | succ fuel ih =>
    cases data with
    | nil => exact ⟨le_rfl, by simp⟩
    | cons b bytes =>
      have hprocess := parts_process parser (b :: bytes)
      have hloop : (parser.process (b :: bytes)).2.2.parts ≤
          (feedLoop (fuel + 1) parser (b :: bytes)).2.parts := by
        generalize hresult : parser.process (b :: bytes) = result
        simp only [feedLoop, hresult]
        split
        · split
          · exact le_rfl
          · exact (ih _ _).1
        · exact le_rfl
      exact ⟨hprocess.trans hloop, fun _ _ => hloop⟩

def counted (parser : StreamingMultipartParser) (chunk : Bytes) : ℕ :=
  if 0 < parser.maxBodySize then parser.totalBytes + chunk.length else parser.totalBytes

/-- A chunk within the size limit goes through the loop, behind the lookahead. -/
theorem feed_eq (hdone : parser.state ≠ .done) (herr : parser.state ≠ .err) (chunk : Bytes) :
    parser.feed chunk =
      if 0 < parser.maxBodySize ∧ parser.maxBodySize < parser.counted chunk then
        (.sizeExceeded, { parser with totalBytes := parser.counted chunk })
      else
        feedLoop ((parser.lookahead ++ chunk).length + 1)
          { parser with totalBytes := parser.counted chunk, lookahead := [] }
          (parser.lookahead ++ chunk) := by
  unfold feed counted
  rw [if_neg hdone, if_neg herr]
  by_cases hsize : 0 < parser.maxBodySize
  · simp [if_pos hsize]
  · simp [if_neg hsize]

theorem parts_feed (parser : StreamingMultipartParser) (chunk : Bytes) :
    parser.parts ≤ (parser.feed chunk).2.parts := by
  by_cases hdone : parser.state = .done
  · rw [feed, if_pos hdone]
  by_cases herr : parser.state = .err
  · rw [feed, if_neg hdone, if_pos herr]
  rw [feed_eq hdone herr]
  split
  · exact le_rfl
  · exact (parts_feedLoop _ { parser with totalBytes := _, lookahead := [] } _).1

theorem parts_feedAll (parser : StreamingMultipartParser) (chunks : List Bytes) :
    parser.parts ≤ (parser.feedAll chunks).2.parts := by
  induction chunks generalizing parser with
  | nil => exact le_rfl
  | cons chunk chunks ih =>
    have hfeed := parts_feed parser chunk
    simp only [feedAll]
    split
    · rename_i next hresult
      rw [hresult] at hfeed
      exact hfeed.trans (ih _)
    · rename_i result next _ hresult
      rw [hresult] at hfeed
      exact hfeed

theorem parts_feedAll_cons (parser : StreamingMultipartParser) (chunk : Bytes)
    (chunks : List Bytes) :
    (parser.feed chunk).2.parts ≤ (parser.feedAll (chunk :: chunks)).2.parts := by
  simp only [feedAll]
  split
  · rename_i next hresult
    rw [hresult]
    exact parts_feedAll _ _
  · rename_i hresult
    rw [hresult]

theorem headersEnd_ne_nil : headersEnd ≠ [] := by decide

section PartHeader

variable (hstate : parser.state = .partHeader)

include hstate

theorem process_header_none (hnone : firstOccurrence headersEnd data = none) :
    parser.process data =
      if maxHeaderSize < parser.curHeaderBuf.length + data.length then (.err, 0, parser)
      else
        (.needMore, data.length, { parser with curHeaderBuf := parser.curHeaderBuf ++ data }) := by
  simp [process, hstate, processHeader, hnone]

theorem feedLoop_header_none (hfuel : data.length < fuel)
    (hheld : parser.curHeaderBuf.length ≤ maxHeaderSize)
    (hnone : firstOccurrence headersEnd data = none) :
    feedLoop fuel parser data =
      if maxHeaderSize < parser.curHeaderBuf.length + data.length then (.err, parser)
      else (.needMore, { parser with curHeaderBuf := parser.curHeaderBuf ++ data }) := by
  have hdone : parser.state ≠ .done := by
    rw [hstate]
    decide
  obtain ⟨fuel, rfl⟩ := Nat.exists_eq_add_one_of_ne_zero (Nat.ne_zero_of_lt hfuel)
  by_cases hdata : data = []
  · rw [hdata, feedLoop_nil hdone, length_nil, Nat.add_zero, if_neg (by omega), append_nil]
  have hprocess := process_header_none hstate hnone
  split
  · rename_i hlimit
    rw [if_pos hlimit] at hprocess
    apply feedLoop_stop hdata hprocess
    decide
  · rename_i hlimit
    rw [if_neg hlimit] at hprocess
    exact feedLoop_all hdata (by omega) hprocess hdone

variable {data : Bytes} {found : ℕ} (hfound : firstOccurrence headersEnd data = some found)

include hfound

theorem process_header_some :
    parser.process data =
      let cur := parsePartHeaders (parser.curHeaderBuf ++ data.take found)
      let opened := { parser with curHeaderBuf := [], cur := cur, state := .partData }
      (.needMore, found + 4,
        if cur.isFile then
          { opened with
            files := parser.files ++ [⟨cur.name, cur.filename, cur.contentType, []⟩]
            curFile := true }
        else { opened with curFieldData := [] }) := by
  simp [process, hstate, processHeader, hfound]

theorem feedLoop_header_some (hfuel : data.length < fuel) :
    ∃ fuel', (data.drop (found + 4)).length < fuel' ∧ feedLoop fuel parser data =
        feedLoop fuel' (parser.process data).2.2 (data.drop (found + 4)) := by
  obtain ⟨fuel, rfl⟩ := Nat.exists_eq_add_one_of_ne_zero (Nat.ne_zero_of_lt hfuel)
  have hoccurs := ((firstOccurrence_eq_some_iff headersEnd_ne_nil).mp hfound).1
  have hfits : found + 4 ≤ data.length := hoccurs.add_length_le headersEnd_ne_nil
  have hdata : data ≠ [] := ne_nil_of_length_pos (by omega)
  use fuel
  constructor
  · rw [length_drop]
    omega
  · apply feedLoop_step hdata _ (Nat.succ_ne_zero _)
    rw [process_header_some hstate hfound]

theorem process_header_field
    (hfield : (parsePartHeaders (parser.curHeaderBuf ++ data.take found)).isFile = false) :
    (parser.process data).2.2 =
      { parser with
        curHeaderBuf := []
        cur := parsePartHeaders (parser.curHeaderBuf ++ data.take found)
        state := .partData
        curFieldData := [] } := by
  rw [process_header_some hstate hfound]
  simp [hfield]

theorem parts_header_file
    (hfile : (parsePartHeaders (parser.curHeaderBuf ++ data.take found)).isFile = true) :
    0 < (parser.process data).2.2.parts := by
  rw [process_header_some hstate hfound]
  simp only [hfile, if_true, parts, length_append, length_singleton]
  omega

end PartHeader

section PartData

variable (hstate : parser.state = .partData) (hfield : parser.cur.isFile = false) {data : Bytes}
  {fuel : ℕ} (hfuel : data.length < fuel)

include hstate hfield hfuel

/-- Without a delimiter, all but the last bytes go to the field, up to the limit. -/
theorem feedLoop_data_none (hlookahead : parser.lookahead = [])
    (hnone : firstOccurrence parser.delim data = none) :
    let safe := data.length - (parser.delim.length - 1)
    feedLoop fuel parser data =
      if 0 < safe ∧ parser.maxBodySize < parser.curFieldData.length + safe then (.err, parser)
      else
        (.needMore,
          { parser with
            curFieldData := parser.curFieldData ++ data.take safe
            lookahead := data.drop safe }) := by
  intro safe
  have hdone : parser.state ≠ .done := by
    rw [hstate]
    decide
  have htoFile : parser.toFile = false := by
    rw [toFile, hfield, Bool.false_and]
  obtain ⟨fuel, rfl⟩ := Nat.exists_eq_add_one_of_ne_zero (Nat.ne_zero_of_lt hfuel)
  by_cases hdata : data = []
  · have hsafe : safe = 0 := by simp [safe, hdata]
    rw [hdata, feedLoop_nil hdone, if_neg (by omega), take_nil, drop_nil, append_nil, ← hlookahead]
  have hprocess : parser.process data =
      if 0 < safe ∧ parser.maxBodySize < parser.curFieldData.length + safe then (.err, 0, parser)
      else
        (.needMore, data.length,
          { parser with
            curFieldData := parser.curFieldData ++ data.take safe
            lookahead := data.drop safe }) := by
    simp [process, hstate, processData, hnone, curSize, store, htoFile, safe]
  split
  · rename_i hlimit
    rw [if_pos hlimit] at hprocess
    apply feedLoop_stop hdata hprocess
    decide
  · rename_i hlimit
    rw [if_neg hlimit] at hprocess
    exact feedLoop_all hdata (by omega) hprocess hdone

/-- A field is there as soon as the delimiter behind it is. -/
theorem parts_data_some {pos : ℕ} (hfound : firstOccurrence parser.delim data = some pos) :
    0 < (feedLoop fuel parser data).2.parts := by
  have hdelim : parser.delim ≠ [] := cons_ne_nil _ _
  have htoFile : parser.toFile = false := by
    rw [toFile, hfield, Bool.false_and]
  have hprocess : 0 < (parser.process data).2.2.parts := by
    simp only [process, hstate, processData, hfound, parts_afterBoundary]
    have hstored : (parser.store (data.take pos)).toFile = false := by
      rw [store, if_neg (by rw [htoFile]; decide)]
      exact htoFile
    rw [closePart, if_neg (by rw [hstored]; decide)]
    simp only [parts, length_append, length_singleton]
    omega
  have hfits := ((firstOccurrence_eq_some_iff hdelim).mp hfound).1.add_length_le hdelim
  have hlength := length_pos_of_ne_nil hdelim
  have hdata : data ≠ [] := ne_nil_of_length_pos (by omega)
  exact hprocess.trans_le ((parts_feedLoop _ _ _).2 hdata (by omega))

end PartData

end StreamingMultipartParser

/-! ## A header that goes on behind its end -/

theorem crlf_ne_nil : crlf ≠ [] := by decide

theorem firstOccurrence_crlf {line : Bytes} (hnone : firstOccurrence crlf line = none)
    (rest : Bytes) : firstOccurrence crlf (line ++ crlf ++ rest) = some line.length := by
  apply (firstOccurrence_eq_some_iff crlf_ne_nil).mpr
  constructor
  · rw [OccursAt, append_assoc, drop_left]
    exact prefix_append _ _
  · intro j hj hoccurs
    rcases Nat.lt_or_ge line.length (j + 2) with hlast | hinside
    · -- The line end would start with the last byte of the line.
      have hsecond := hoccurs.getElem? (j := 1) (by decide)
      have hat : j + 1 = line.length := by omega
      rw [hat, append_assoc, getElem?_append_right le_rfl, Nat.sub_self] at hsecond
      cases hsecond
    · apply (firstOccurrence_eq_none_iff crlf_ne_nil).mp hnone j
      rw [append_assoc] at hoccurs
      exact (occursAt_append_iff hinside).mp hoccurs

theorem firstOccurrence_crlf_prefix (h : crlf <+: rest) :
    firstOccurrence crlf rest = some 0 := by
  apply (firstOccurrence_eq_some_iff crlf_ne_nil).mpr
  exact ⟨h, by simp⟩

theorem partHeadersLoop_nil (fuel : ℕ) (part : PartHeaders) :
    partHeadersLoop fuel [] part = part := by
  cases fuel <;> rfl

theorem partHeadersLoop_crlf (hfuel : rest.length ≤ fuel)
    (h : rest = [] ∨ crlf <+: rest) (part : PartHeaders) :
    partHeadersLoop fuel rest part = part := by
  cases rest with
  | nil => exact partHeadersLoop_nil _ _
  | cons b bytes =>
    obtain ⟨fuel, rfl⟩ := Nat.exists_eq_add_one_of_ne_zero (show fuel ≠ 0 by
      rw [length_cons] at hfuel
      omega)
    rcases h with h | h
    · cases h
    · simp [partHeadersLoop, firstOccurrence_crlf_prefix h]

/-- What follows an empty line does not count. -/
theorem partHeadersLoop_stop (hrest : rest = [] ∨ crlf <+: rest) (fuel : ℕ)
    {fuel' : ℕ} {hdr : Bytes} (part : PartHeaders) (hfuel : hdr.length ≤ fuel)
    (hfuel' : (hdr ++ crlf ++ rest).length ≤ fuel') :
    partHeadersLoop fuel' (hdr ++ crlf ++ rest) part = partHeadersLoop fuel hdr part := by
  induction fuel generalizing fuel' hdr part with
  | zero =>
    obtain rfl := eq_nil_of_length_eq_zero (Nat.le_zero.mp hfuel)
    exact partHeadersLoop_crlf hfuel' (.inr (prefix_append _ _)) _
  | succ fuel ih =>
    cases hdr with
    | nil => exact partHeadersLoop_crlf hfuel' (.inr (prefix_append _ _)) _
    | cons b bytes =>
      simp only [length_append, length_cons] at hfuel hfuel'
      obtain ⟨fuel', rfl⟩ := Nat.exists_eq_add_one_of_ne_zero (show fuel' ≠ 0 by omega)
      have hcrlf : crlf.length = 2 := rfl
      rw [show b :: bytes ++ crlf ++ rest = b :: (bytes ++ crlf ++ rest) from rfl]
      simp only [partHeadersLoop]
      rw [show b :: (bytes ++ crlf ++ rest) = b :: bytes ++ crlf ++ rest from rfl]
      cases hnl : firstOccurrence crlf (b :: bytes) with
      | some nl =>
        have hfits := ((firstOccurrence_eq_some_iff crlf_ne_nil).mp hnl).1.add_length_le crlf_ne_nil
        rw [append_assoc, firstOccurrence_append crlf_ne_nil hnl]
        simp only [getD_some]
        rw [take_append_of_le_length (by omega), drop_append_of_le_length (by omega)]
        split
        · rfl
        · rw [← append_assoc]
          apply ih
          · simp only [length_drop, length_cons]
            omega
          · simp only [length_append, length_drop, length_cons]
            omega
      | none =>
        rw [firstOccurrence_crlf hnl]
        simp only [getD_some, getD_none, take_length]
        rw [append_assoc, take_left, ← append_assoc]
        have hafter : (b :: bytes ++ crlf ++ rest).drop ((b :: bytes).length + 2) = rest :=
          drop_left' (by rw [length_append, hcrlf])
        rw [if_neg (cons_ne_nil _ _), if_neg (cons_ne_nil _ _), hafter,
          drop_of_length_le (by omega), partHeadersLoop_nil]
        apply partHeadersLoop_crlf _ hrest
        omega

theorem headersEnd_apart {i j : ℕ} (hi : OccursAt headersEnd i rest)
    (hj : OccursAt headersEnd j rest) (hlt : i < j) : j = i + 2 ∨ i + 4 ≤ j := by
  have hreturn := hj.getElem? (j := 0) (by decide)
  have hone : j ≠ i + 1 := by
    intro heq
    have hline := hi.getElem? (j := 1) (by decide)
    rw [heq, hline] at hreturn
    cases hreturn
  have hthree : j ≠ i + 3 := by
    intro heq
    have hline := hi.getElem? (j := 3) (by decide)
    rw [heq, hline] at hreturn
    cases hreturn
  omega

theorem parsePartHeaders_take {found later : ℕ}
    (hfound : firstOccurrence headersEnd rest = some found)
    (hlater : OccursAt headersEnd later rest) :
    parsePartHeaders (rest.take later) = parsePartHeaders (rest.take found) := by
  obtain ⟨hoccurs, hnone⟩ := (firstOccurrence_eq_some_iff headersEnd_ne_nil).mp hfound
  have hle : found ≤ later := by
    by_contra hless
    exact hnone _ (by omega) hlater
  have hfits := hlater.add_length_le headersEnd_ne_nil
  rcases Nat.eq_or_lt_of_le hle with heq | hlt
  · rw [heq]
  · obtain ⟨behind, hbehind⟩ := hoccurs
    have hrest : rest = rest.take found ++ crlf ++ (crlf ++ behind) := by
      calc rest = rest.take found ++ rest.drop found := (take_append_drop _ _).symm
        _ = rest.take found ++ crlf ++ (crlf ++ behind) := by
          rw [← hbehind, headersEnd]
          simp
    have hfront : (rest.take found ++ crlf).length = found + 2 := by
      rw [length_append, length_take, min_eq_left (by omega)]
      rfl
    have hapart := headersEnd_apart ⟨behind, hbehind⟩ hlater hlt
    have htake : rest.take later =
        rest.take found ++ crlf ++ (crlf ++ behind).take (later - (found + 2)) := by
      conv_lhs => rw [hrest]
      rw [take_append, take_of_length_le (by omega), hfront]
    rw [htake]
    apply partHeadersLoop_stop _ _ _ le_rfl le_rfl
    rcases hapart with htwo | hfour
    · left
      rw [htwo, Nat.sub_self, take_zero]
    · right
      rw [take_append, take_of_length_le]
      · exact prefix_append _ _
      · rw [show crlf.length = 2 from rfl]
        omega

end AstraApi.Multipart
