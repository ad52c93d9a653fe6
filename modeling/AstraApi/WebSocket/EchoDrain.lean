import AstraApi.WebSocket.Stream

/-!
# What the direct echo leaves in the ring

The parse loop of `py_ws_echo_direct_fd_v2` also stops when its array of iovecs is
nearly full, and the call returns 0 all the same.  A frame that is then left in the
ring waits for the next chunk.
-/

namespace AstraApi.WebSocket

open List
open Bytes Circular WsRingBuffer

/-! ## Complete frames -/

def completeFrames : ℕ → Bytes → List WsFrame
  | 0, _ => []
  | fuel + 1, data =>
    match wsParseFrame true false data with
    | .frame frame consumed =>
      if frame.opcode = .close then [frame]
      else frame :: completeFrames fuel (data.drop consumed)
    | _ => []

def framesOf (data : Bytes) : List WsFrame := completeFrames data.length data

def NoFrameLeft (data : Bytes) : Prop :=
  ∀ frame consumed, wsParseFrame true false data ≠ .frame frame consumed

theorem noFrameLeft_of_needMore {data : Bytes} (h : wsParseFrame true false data = .needMore) :
    NoFrameLeft data := by
  intro frame consumed hparse
  rw [h] at hparse
  cases hparse

theorem noFrameLeft_of_protocolError {data : Bytes} {code : ℤ}
    (h : wsParseFrame true false data = .protocolError code) : NoFrameLeft data := by
  intro frame consumed hparse
  rw [h] at hparse
  cases hparse

theorem completeFrames_eq {fuel fuel' : ℕ} {data : Bytes} (hfuel : data.length ≤ fuel)
    (hfuel' : data.length ≤ fuel') : completeFrames fuel data = completeFrames fuel' data := by
  induction fuel generalizing fuel' data with
  | zero =>
    obtain rfl : data = [] := eq_nil_of_length_eq_zero (Nat.le_zero.mp hfuel)
    cases fuel' <;> rfl
  | succ fuel ih =>
    cases fuel' with
    | zero =>
      obtain rfl : data = [] := eq_nil_of_length_eq_zero (Nat.le_zero.mp hfuel')
      rfl
    | succ fuel' =>
      rw [completeFrames, completeFrames]
      cases hparse : wsParseFrame true false data with
      | needMore => rfl
      | protocolError code => rfl
      | frame frame consumed =>
        obtain ⟨hconsumed, hle, hheader, -⟩ := wsParseFrame_lengths hparse
        have hrest := @ih fuel' (data.drop consumed) (by rw [length_drop]; omega)
          (by rw [length_drop]; omega)
        simp [hrest]

theorem framesOf_frame {data : Bytes} {frame : WsFrame} {consumed : ℕ}
    (hparse : wsParseFrame true false data = .frame frame consumed) :
    framesOf data =
      if frame.opcode = .close then [frame] else frame :: framesOf (data.drop consumed) := by
  obtain ⟨hconsumed, hle, hheader, -⟩ := wsParseFrame_lengths hparse
  obtain ⟨fuel, hfuel⟩ := Nat.exists_eq_add_one_of_ne_zero (show data.length ≠ 0 by omega)
  have hrest : completeFrames fuel (data.drop consumed) = framesOf (data.drop consumed) :=
    completeFrames_eq (by rw [length_drop]; omega) le_rfl
  rw [framesOf, hfuel, completeFrames, hparse]
  simp [hrest]

theorem framesOf_eq_nil_iff (data : Bytes) : framesOf data = [] ↔ NoFrameLeft data := by
  constructor
  · intro hnil frame consumed hparse
    rw [framesOf_frame hparse] at hnil
    split at hnil <;> cases hnil
  · intro hnone
    unfold framesOf
    cases data with
    | nil => rfl
    | cons b bytes =>
      rw [length_cons, completeFrames]
      split
      · rename_i frame consumed hparse
        exact absurd hparse (hnone _ _)
      · rfl

theorem framesOf_splits {data rest : Bytes} {frames : List WsFrame} (h : Splits data frames rest)
    (hopen : ∀ frame ∈ frames, frame.opcode ≠ .close) :
    framesOf data = frames ++ framesOf rest := by
  induction h with
  | nil data => rfl
  | cons hparse _ ih =>
    rw [forall_mem_cons] at hopen
    rw [framesOf_frame hparse, if_neg hopen.1, ih hopen.2, cons_append]

theorem close_framesOf {data : Bytes} {front back : List WsFrame} {frame : WsFrame}
    (hclose : frame.opcode = .close) (h : framesOf data = front ++ frame :: back) : back = [] := by
  induction front generalizing data with
  | nil =>
    cases hparse : wsParseFrame true false data with
    | frame first consumed =>
      rw [framesOf_frame hparse] at h
      split at h
      · exact (List.cons.inj h).2.symm
      · rename_i hopen
        rw [(List.cons.inj h).1] at hopen
        exact absurd hclose hopen
    | needMore =>
      rw [(framesOf_eq_nil_iff _).mpr (noFrameLeft_of_needMore hparse)] at h
      cases h
    | protocolError code =>
      rw [(framesOf_eq_nil_iff _).mpr (noFrameLeft_of_protocolError hparse)] at h
      cases h
  | cons first front ih =>
    cases hparse : wsParseFrame true false data with
    | frame first' consumed =>
      rw [framesOf_frame hparse] at h
      split at h
      · simp at h
      · exact ih (List.cons.inj h).2
    | needMore =>
      rw [(framesOf_eq_nil_iff _).mpr (noFrameLeft_of_needMore hparse)] at h
      cases h
    | protocolError code =>
      rw [(framesOf_eq_nil_iff _).mpr (noFrameLeft_of_protocolError hparse)] at h
      cases h

/-! ## What the loop takes -/

def iovecs (frame : WsFrame) : ℕ :=
  if frame.opcode = .close ∨ frame.opcode = .pong then 0
  else if frame.payload = [] then 1
  else 2

/-- The frames that the loop takes when `count` iovecs are there. -/
def taken : ℕ → List WsFrame → List WsFrame
  | _, [] => []
  | count, frame :: frames =>
    if count < maxWritevFrames * 2 - 1 then frame :: taken (count + iovecs frame) frames else []

theorem taken_prefix (count : ℕ) (frames : List WsFrame) : taken count frames <+: frames := by
  induction frames generalizing count with
  | nil => exact prefix_rfl
  | cons frame frames ih =>
    rw [taken]
    split
    · exact cons_prefix_cons.mpr ⟨rfl, ih _⟩
    · exact nil_prefix

theorem taken_eq_self_iff (count : ℕ) (frames : List WsFrame) :
    taken count frames = frames ↔
      frames = [] ∨ count + (frames.dropLast.map iovecs).sum < maxWritevFrames * 2 - 1 := by
  induction frames generalizing count with
  | nil => exact iff_of_true rfl (Or.inl rfl)
  | cons frame frames ih =>
    rw [taken]
    simp only [cons_ne_nil, false_or]
    split
    · rename_i hroom
      rw [List.cons.injEq, eq_self, true_and, ih]
      cases frames with
      | nil => simpa using hroom
      | cons next frames => simp [Nat.add_assoc]
    · rename_i hfull
      apply iff_of_false (cons_ne_nil _ _).symm
      omega

theorem length_push (echo : Echo) {frame : WsFrame} (hclose : frame.opcode ≠ .close)
    (hpong : frame.opcode ≠ .pong) (payloadAt consumed : ℕ) :
    (echo.push frame payloadAt consumed).iovs.length = echo.iovs.length + iovecs frame := by
  have hopen : ¬ (frame.opcode = .close ∨ frame.opcode = .pong) := not_or.mpr ⟨hclose, hpong⟩
  rw [iovecs, if_neg hopen, Echo.push]
  cases frame.payload <;> simp

/-- The frames that the loop takes, and whether a close frame is among them. -/
theorem echoLoop_taken (fuel : ℕ) {data : Bytes} {frames : List WsFrame} {echo : Echo}
    (h : Echoes data frames echo) (hopen : echo.close = none)
    (hfuel : (echo.memory.view.drop echo.totalConsumed).length < fuel) :
    let more := taken echo.iovs.length (framesOf (echo.memory.view.drop echo.totalConsumed))
    Echoes data (frames ++ more) (echoLoop fuel echo) ∧
      ((echoLoop fuel echo).close = none ↔ ∀ frame ∈ more, frame.opcode ≠ .close) := by
  induction fuel generalizing frames echo with
  | zero => omega
  | succ fuel ih =>
    have hnone {more : List WsFrame} (hmore : more = []) :
        Echoes data (frames ++ more) echo ∧
          (echo.close = none ↔ ∀ frame ∈ more, frame.opcode ≠ .close) := by
      rw [hmore, append_nil]
      exact ⟨h, iff_of_true hopen fun _ hmem => absurd hmem not_mem_nil⟩
    intro more
    rw [echoLoop]
    split
    · rename_i hmore
      cases hparse : wsParseFrame true false (echo.memory.view.drop echo.totalConsumed) with
      | needMore =>
        apply hnone
        have hnil := (framesOf_eq_nil_iff _).mpr (noFrameLeft_of_needMore hparse)
        simp [more, hnil, taken]
      | protocolError code =>
        apply hnone
        have hnil := (framesOf_eq_nil_iff _).mpr (noFrameLeft_of_protocolError hparse)
        simp [more, hnil, taken]
      | frame frame consumed =>
        obtain ⟨hconsumed, hle, hheader, -⟩ := wsParseFrame_lengths hparse
        have hframes := framesOf_frame hparse
        have hrest := (h.unmask hparse).2.2.1
        have hshort : ((echo.memory.view.drop echo.totalConsumed).drop consumed).length < fuel := by
          rw [length_drop]
          omega
        by_cases hclose : frame.opcode = .close
        · have htaken : more = [frame] := by
            simp [more, hframes, if_pos hclose, taken, if_pos hmore.2]
          simp only [hclose, htaken]
          refine ⟨h.close hparse hclose, ?_⟩
          simp [hclose]
        · rw [if_neg hclose] at hframes
          have htaken : more = frame :: taken (echo.iovs.length + iovecs frame)
              (framesOf ((echo.memory.view.drop echo.totalConsumed).drop consumed)) := by
            simp [more, hframes, taken, if_pos hmore.2]
          have hnext {echo' : Echo} (h' : Echoes data (frames ++ [frame]) echo')
              (hopen' : echo'.close = none)
              (hcount : echo'.iovs.length = echo.iovs.length + iovecs frame)
              (hdrop : echo'.memory.view.drop echo'.totalConsumed =
                (echo.memory.view.drop echo.totalConsumed).drop consumed) :
              Echoes data (frames ++ more) (echoLoop fuel echo') ∧
                ((echoLoop fuel echo').close = none ↔ ∀ frame ∈ more, frame.opcode ≠ .close) := by
            have hstep := ih h' hopen' (by rw [hdrop]; exact hshort)
            simp only [hcount, hdrop, append_assoc, singleton_append] at hstep
            rw [htaken, forall_mem_cons]
            exact ⟨hstep.1, hstep.2.trans (and_iff_right hclose).symm⟩
          by_cases hpong : frame.opcode = .pong
          · simp only [hpong]
            apply hnext (h.pong hparse hpong) hopen
            · rw [iovecs, if_pos (Or.inr hpong), Nat.add_zero]
            · rw [drop_drop]
          · have hpush := hnext (h.push hparse hclose hpong) hopen
              (length_push _ hclose hpong _ _) hrest
            cases hopcode : frame.opcode with
            | close => exact absurd hopcode hclose
            | pong => exact absurd hopcode hpong
            | _ =>
              simp only [hopcode]
              exact hpush
    · rename_i hstop
      apply hnone
      rcases not_and_or.mp hstop with hend | hfull
      · have hnil : echo.memory.view.drop echo.totalConsumed = [] :=
          drop_eq_nil_iff.mpr (Nat.le_of_not_lt hend)
        simp only [more, hnil]
        rfl
      · simp only [more]
        cases framesOf (echo.memory.view.drop echo.totalConsumed) with
        | nil => rfl
        | cons frame frames => rw [taken, if_neg hfull]

theorem Echoes.iovs_pos (fuel : ℕ) {echo : Echo} (hpos : ∀ iov ∈ echo.iovs, 0 < iov.len) :
    ∀ iov ∈ (echoLoop fuel echo).iovs, 0 < iov.len := by
  induction fuel generalizing echo with
  | zero => exact hpos
  | succ fuel ih =>
    simp only [echoLoop]
    split
    · split
      · rename_i frame consumed _
        have hheader : 0 < wsFrameHeaderSize frame.payload.length := by
          unfold wsFrameHeaderSize
          split <;> (try split) <;> omega
        have hpush : ∀ iov ∈ (echo.push frame (echo.totalConsumed + frame.headerLen)
            consumed).iovs, 0 < iov.len := by
          intro iov hiov
          simp only [Echo.push, mem_append, mem_cons] at hiov
          rcases hiov with hold | rfl | hpayload
          · exact hpos _ hold
          · rw [length_wsWriteFrameHeader]
            exact hheader
          · split at hpayload
            · rename_i hlength
              obtain rfl := mem_singleton.mp hpayload
              exact hlength
            · cases hpayload
        cases frame.opcode with
        | close => exact hpos
        | pong => exact ih hpos
        | _ => exact ih hpush
      · exact hpos
    · exact hpos

/-! ## A socket that accepts everything -/

/-- Two writes of the socket take all that a call can have for it. -/
structure Accepting (state : DirectState) (chunk : Bytes) (answers : List ℕ) : Prop where
  writes : 2 ≤ answers.length
  takes : ∀ answer ∈ answers,
    state.outputPending.length + state.ring.contents.length + chunk.length ≤ answer

theorem advance_gathered {memory : Memory} {iovs : List IoVec}
    (hfits : ∀ iov ∈ iovs, (iov.bytes memory).length = iov.len)
    (hpos : ∀ iov ∈ iovs, 0 < iov.len) : advance (gathered memory iovs).length iovs = [] := by
  induction iovs with
  | nil => rfl
  | cons iov iovs ih =>
    rw [forall_mem_cons] at hfits hpos
    have hlength : (gathered memory (iov :: iovs)).length =
        iov.len + (gathered memory iovs).length := by
      rw [gathered, flatMap_cons, length_append, hfits.1]
      rfl
    rw [hlength, advance, if_neg (by omega), if_pos (Nat.le_add_right _ _), Nat.add_sub_cancel_left]
    exact ih hfits.2 hpos.2

/-- One write that takes everything leaves no iovec. -/
theorem writevLoop_accepting {memory : Memory} {iovs : List IoVec}
    (hfits : ∀ iov ∈ iovs, (iov.bytes memory).length = iov.len)
    (hpos : ∀ iov ∈ iovs, 0 < iov.len) {answers : List ℕ} (hsome : answers ≠ [])
    (htakes : ∀ answer ∈ answers, (gathered memory iovs).length ≤ answer) :
    (writevLoop memory answers iovs).2 = [] := by
  cases answers with
  | nil => exact absurd rfl hsome
  | cons answer answers =>
    rw [forall_mem_cons] at htakes
    cases iovs with
    | nil => rw [writevLoop, if_pos (Or.inl rfl)]
    | cons iov iovs =>
      have hlength : (gathered memory (iov :: iovs)).length =
          iov.len + (gathered memory iovs).length := by
        rw [gathered, flatMap_cons, length_append, hfits _ mem_cons_self]
        rfl
      have hlen := hpos _ mem_cons_self
      have hnonzero : ¬ (iov :: iovs = [] ∨ answer = 0) := by
        rw [not_or]
        exact ⟨cons_ne_nil _ _, by omega⟩
      rw [writevLoop, if_neg hnonzero]
      simp only
      rw [take_of_length_le htakes.1, advance_gathered hfits hpos]
      cases answers with
      | nil => rfl
      | cons answer answers => rw [writevLoop, if_pos (Or.inl rfl)]

/-- A call with nothing pending takes what the loop takes, and returns 0 unless a close
frame is among it. -/
theorem echoFrames_taken {state : DirectState} (hvalid : state.ring.Valid) {offset : ℕ}
    (hshows : state.ring.Shows offset) {answers : List ℕ} (hsome : answers ≠ [])
    (htakes : ∀ answer ∈ answers, state.ring.contents.length ≤ answer) :
    let frames := taken 0 (framesOf state.ring.contents)
    Splits state.ring.contents frames (state.echoFrames offset answers).2.2.ring.contents ∧
      ((state.echoFrames offset answers).2.1 = .done ↔ ∀ frame ∈ frames, frame.opcode ≠ .close) := by
  simp only [DirectState.echoFrames]
  have hview := hshows.contents_eq
  have hsize := length_contents hvalid
  rw [hview] at htakes
  rw [hview] at hsize ⊢
  generalize (state.ring.buffer.drop offset).take state.ring.readable = view at *
  obtain ⟨hechoes, hclose⟩ := echoLoop_taken _ (Echoes.initial _) rfl (Nat.lt_succ_self _)
  have hpos := @Echoes.iovs_pos (view.length + 1) { memory := ⟨[], view⟩ }
    fun _ hmem => absurd hmem not_mem_nil
  simp only [drop_zero, length_nil, nil_append] at hechoes hclose
  generalize echoLoop (view.length + 1) { memory := ⟨[], view⟩ } = echo at hechoes hclose hpos ⊢
  have hlength : echo.memory.view.length = state.ring.readable := by
    rw [hechoes.length_view, hsize]
  obtain ⟨-, hcontents, -⟩ := overwrite_consume_spec hvalid hshows hlength hechoes.consumed_le
  have hfits : ∀ iov ∈ echo.iovs, (iov.bytes echo.memory).length = iov.len := by
    intro iov hiov
    exact (hechoes.within _ hiov).length_bytes hechoes.consumed_le
  have hgathered : (gathered echo.memory echo.iovs).length ≤ view.length := by
    rw [hechoes.gathered_eq]
    exact (Nat.le_add_right _ _).trans hechoes.splits.length_response
  have hleft := writevLoop_accepting hfits hpos hsome fun answer hanswer =>
    hgathered.trans (htakes _ hanswer)
  constructor
  · rw [hcontents]
    exact hechoes.splits
  · rw [← hclose, hleft]
    cases echo.close with
    | none => simp
    | some close => simp

/-- What a call leaves in the ring when the socket accepts everything. -/
theorem wsEchoDirectFdV2_taken {state : DirectState} {chunk : Bytes} {answers : List ℕ}
    (hvalid : state.ring.Valid) (happend : (state.ring.append chunk).isSome)
    (haccepts : Accepting state chunk answers) :
    let data := state.ring.contents ++ chunk
    let frames := taken 0 (framesOf data)
    Splits data frames (wsEchoDirectFdV2 state chunk answers).2.2.ring.contents ∧
      ((wsEchoDirectFdV2 state chunk answers).2.1 = .done ↔
        ∀ frame ∈ frames, frame.opcode ≠ .close) := by
  obtain ⟨appended, happend⟩ := Option.isSome_iff_exists.mp happend
  obtain ⟨hvalid₁, hcontents₁, -⟩ := append_spec hvalid happend
  rcases hview : appended.readableContiguous with ⟨ring, view⟩
  obtain ⟨hvalid₂, hcontents₂, -, hempty, hshows⟩ := readableContiguous_spec hvalid₁ hview
  have hcontents := hcontents₂.trans hcontents₁
  have htakes : ∀ answer ∈ answers, ring.contents.length ≤ answer := by
    intro answer hanswer
    have hle := haccepts.takes _ hanswer
    rw [hcontents, length_append]
    omega
  have hwrites := haccepts.writes
  simp only [wsEchoDirectFdV2, happend, hview]
  rw [← hcontents]
  cases view with
  | none =>
    have hnil : ring.contents = [] := hcontents₂.trans (hempty rfl)
    simp only [hnil]
    exact ⟨.nil [], iff_of_true trivial fun _ hmem => absurd hmem not_mem_nil⟩
  | some offset =>
    simp only
    by_cases hpending : state.outputPending = []
    · rw [if_pos hpending]
      have hsome : answers ≠ [] := by
        rintro rfl
        cases hwrites
      exact @echoFrames_taken { state with ring := ring } hvalid₂ offset (hshows _ rfl)
        answers hsome htakes
    · rw [if_neg hpending]
      rcases answers with _ | ⟨first, _ | ⟨second, answers⟩⟩
      · cases hwrites
      · exact absurd hwrites (by simp)
      · have hfirst := haccepts.takes _ mem_cons_self
        have hflushed : state.outputPending.drop first = [] :=
          drop_eq_nil_iff.mpr (by omega)
        simp only [DirectState.writePending, headD_cons, tail_cons, hflushed, if_true]
        exact @echoFrames_taken { state with ring := ring, outputPending := [] } hvalid₂ offset
          (hshows _ rfl) (second :: answers) (cons_ne_nil _ _)
          fun answer hanswer => htakes _ (mem_cons_of_mem _ hanswer)

/-- Nothing complete is left if and only if the loop took all complete frames. -/
theorem drained_iff {data rest : Bytes} (hsplits : Splits data (taken 0 (framesOf data)) rest) :
    ((∀ frame ∈ taken 0 (framesOf data), frame.opcode ≠ .close) → NoFrameLeft rest) ↔
      taken 0 (framesOf data) = framesOf data := by
  by_cases hopen : ∀ frame ∈ taken 0 (framesOf data), frame.opcode ≠ .close
  · have hframes := framesOf_splits hsplits hopen
    rw [← framesOf_eq_nil_iff, forall_prop_of_true hopen]
    constructor
    · intro hnil
      rw [hnil, append_nil] at hframes
      exact hframes.symm
    · intro hall
      rw [hall] at hframes
      exact append_right_eq_self.mp hframes.symm
  · apply iff_of_true (fun h => absurd h hopen)
    have ⟨frame, hmem, hclose⟩ := not_forall₂.mp hopen
    obtain ⟨front, back, htaken⟩ := append_of_mem hmem
    obtain ⟨more, hmore⟩ := taken_prefix 0 (framesOf _)
    have hall : framesOf data = front ++ frame :: (back ++ more) := by
      rw [← hmore, htaken]
      simp
    have hnil := close_framesOf (not_not.mp hclose) hall
    rw [(append_eq_nil_iff.mp hnil).2, append_nil] at hmore
    exact hmore

theorem done_drained_iff {state : DirectState} {chunk : Bytes} {answers : List ℕ}
    (hvalid : state.ring.Valid) (happend : (state.ring.append chunk).isSome)
    (haccepts : Accepting state chunk answers) :
    ((wsEchoDirectFdV2 state chunk answers).2.1 = .done →
        NoFrameLeft (wsEchoDirectFdV2 state chunk answers).2.2.ring.contents) ↔
      taken 0 (framesOf (state.ring.contents ++ chunk)) =
        framesOf (state.ring.contents ++ chunk) := by
  obtain ⟨hsplits, hreply⟩ := wsEchoDirectFdV2_taken hvalid happend haccepts
  rw [hreply, drained_iff hsplits]

/-- The room for iovecs is enough if and only if a call that returns 0 leaves no complete
frame. -/
theorem echo_drains_iff {state : DirectState} {chunk : Bytes} {answers : List ℕ}
    (hvalid : state.ring.Valid) (happend : (state.ring.append chunk).isSome)
    (haccepts : Accepting state chunk answers) :
    ((wsEchoDirectFdV2 state chunk answers).2.1 = .done →
        NoFrameLeft (wsEchoDirectFdV2 state chunk answers).2.2.ring.contents) ↔
      ((framesOf (state.ring.contents ++ chunk)).dropLast.map iovecs).sum <
        maxWritevFrames * 2 - 1 := by
  rw [done_drained_iff hvalid happend haccepts, taken_eq_self_iff, Nat.zero_add]
  constructor
  · rintro (hnil | hroom)
    · rw [hnil]
      decide
    · exact hroom
  · exact Or.inr

/-! ## A burst of short messages -/

/-- A masked text frame with the payload "a". -/
def note : Bytes := [0x81, 0x81, 1, 2, 3, 4, 0x60]

def burst (count : ℕ) : Bytes := (List.replicate count note).flatten

theorem length_burst (count : ℕ) : (burst count).length = count * 7 := by
  simp [burst, note]

theorem framesOf_burst (count : ℕ) :
    (framesOf (burst count)).map iovecs = List.replicate count 2 := by
  induction count with
  | zero => rfl
  | succ count ih =>
    have hnote : wsParseFrame true false note =
        .frame ⟨true, 0, .text, true, [1, 2, 3, 4], [0x60], 6⟩ 7 := by decide
    have hparse := wsParseFrame_append (burst count) hnote
    have hburst : burst (count + 1) = note ++ burst count := by
      rw [burst, replicate_succ, flatten_cons, burst]
    have hrest : (note ++ burst count).drop 7 = burst count := drop_left' rfl
    rw [hburst, framesOf_frame hparse, if_neg (by decide), map_cons, hrest, ih, replicate_succ]
    rfl

theorem fresh_contents : ({} : DirectState).ring.contents = [] := create_default.2.1

theorem burst_append (count : ℕ) (hcount : count ≤ 1000) :
    (({} : DirectState).ring.append (burst count)).isSome := by
  apply append_isSome create_default.1
  rw [fresh_contents, length_burst, create_default.2.2]
  show 0 + count * 7 ≤ maximumCapacity
  unfold maximumCapacity
  omega

theorem burst_accepting (count : ℕ) :
    Accepting {} (burst count) [count * 7, count * 7] := by
  constructor
  · exact le_rfl
  · intro answer hanswer
    rw [fresh_contents, length_burst]
    simp only [mem_cons, not_mem_nil, or_false, or_self] at hanswer
    rw [hanswer]
    simp

theorem echo_drains_note :
    (wsEchoDirectFdV2 {} (burst 1) [7, 7]).2.1 = .done ∧
      NoFrameLeft (wsEchoDirectFdV2 {} (burst 1) [7, 7]).2.2.ring.contents := by
  have hdone : (wsEchoDirectFdV2 {} (burst 1) [7, 7]).2.1 = .done := by decide
  refine ⟨hdone, ?_⟩
  apply (echo_drains_iff create_default.1 (burst_append 1 (by decide)) (burst_accepting 1)).mpr
  · decide
  · exact hdone

theorem burst_drained_iff (count : ℕ) (hcount : count ≤ 1000) :
    ((wsEchoDirectFdV2 {} (burst count) [count * 7, count * 7]).2.1 = .done →
        NoFrameLeft (wsEchoDirectFdV2 {} (burst count) [count * 7, count * 7]).2.2.ring.contents) ↔
      count = 0 ∨ (count - 1) * 2 < maxWritevFrames * 2 - 1 := by
  have hframes : framesOf (burst count) = [] ↔ count = 0 := by
    rw [← map_eq_nil_iff, framesOf_burst, replicate_eq_nil_iff]
  rw [done_drained_iff create_default.1 (burst_append _ hcount) (burst_accepting _),
    taken_eq_self_iff, fresh_contents, nil_append, hframes, map_dropLast,
    framesOf_burst, dropLast_replicate, sum_replicate, Nat.zero_add, smul_eq_mul]

/-- The 257th message of a burst waits for more traffic. -/
theorem echo_burst_waits : ¬ ∀ (state : DirectState) (chunk : Bytes) (answers : List ℕ),
    state.ring.Valid → (state.ring.append chunk).isSome → Accepting state chunk answers →
      (wsEchoDirectFdV2 state chunk answers).2.1 = .done →
        NoFrameLeft (wsEchoDirectFdV2 state chunk answers).2.2.ring.contents := by
  intro hall
  have hcount : 257 ≤ 1000 := by decide
  have hdrained := (burst_drained_iff 257 hcount).mp
    (hall {} _ _ create_default.1 (burst_append 257 hcount) (burst_accepting 257))
  revert hdrained
  decide

end AstraApi.WebSocket
