import AstraApi.WebSocket.Frame

/-!
# Frames on the wire

Masking works through the payload in blocks as wide as the target's registers
allow, then in words of eight bytes, then byte by byte.  Whatever the blocks, a
frame that is written and read again is the same frame.
-/

namespace AstraApi.WebSocket

open List
open Bytes

/-! ## Masking in blocks -/

/-- The instruction sets that `ws_unmask` distinguishes. -/
inductive SimdTarget where
  | avx2
  | sse2
  | neon
  | scalar
  deriving DecidableEq

/-- The widths of the blocks, in the order they are tried. -/
def SimdTarget.widths : SimdTarget → List ℕ
  | .avx2 => [32, 16, 8]
  | .sse2 => [16, 8]
  | .neon => [16, 8]
  | .scalar => [8]

/-- XOR with the mask repeated over the width of a register. -/
def xorBlock (mask block : Bytes) : Bytes :=
  block.zipWith (· ^^^ ·) (List.replicate (block.length / 4) mask).flatten

/-- Whole blocks as long as there are any, and the bytes that remain. -/
def unmaskBlocks (width : ℕ) (mask : Bytes) : ℕ → Bytes → Bytes × Bytes
  | 0, payload => ([], payload)
  | fuel + 1, payload =>
    if payload.length < width then ([], payload)
    else
      let (done, rest) := unmaskBlocks width mask fuel (payload.drop width)
      (xorBlock mask (payload.take width) ++ done, rest)

def unmaskWidths (mask : Bytes) : List ℕ → Bytes → Bytes × Bytes
  | [], payload => ([], payload)
  | width :: widths, payload =>
    let (first, rest) := unmaskBlocks width mask payload.length payload
    let (done, rest) := unmaskWidths mask widths rest
    (first ++ done, rest)

def wsUnmask (target : SimdTarget) (payload mask : Bytes) : Bytes :=
  let (done, rest) := unmaskWidths mask target.widths payload
  done ++ rest.mapIdx fun i b => b ^^^ mask.getD ((done.length + i) &&& 3) 0

theorem xorMask_append (mask : Bytes) {first : Bytes} (rest : Bytes) (h : 4 ∣ first.length) :
    xorMask mask (first ++ rest) = xorMask mask first ++ xorMask mask rest := by
  obtain ⟨k, hk⟩ := h
  simp [xorMask, mapIdx_append, hk]

theorem getElem_flatten_replicate {mask : Bytes} (hmask : mask.length = 4) (count i : ℕ)
    (hi : i < (List.replicate count mask).flatten.length) :
    (List.replicate count mask).flatten[i] = mask.getD (i % 4) 0 := by
  induction count generalizing i with
  | zero => simp at hi
  | succ count ih =>
    simp only [replicate_succ, flatten_cons, getElem_append]
    split
    · rename_i hfirst
      have hmod : i % 4 = i := Nat.mod_eq_of_lt (by omega)
      simp [hmod, hfirst]
    · rename_i hlater
      rw [ih]
      congr 1
      omega

theorem xorBlock_eq {mask block : Bytes} (hmask : mask.length = 4) (h : 4 ∣ block.length) :
    xorBlock mask block = xorMask mask block := by
  have hlength : (List.replicate (block.length / 4) mask).flatten.length = block.length := by
    simp only [length_flatten, map_replicate, sum_replicate, hmask, smul_eq_mul]
    omega
  apply ext_getElem
  · simp [xorBlock, hlength]
  · intro i hleft hright
    simp [xorBlock, xorMask, getElem_flatten_replicate hmask]

theorem unmaskBlocks_spec {width : ℕ} {mask : Bytes} (hmask : mask.length = 4)
    (hwidth : 4 ∣ width) (fuel : ℕ) (payload : Bytes) :
    let (done, rest) := unmaskBlocks width mask fuel payload
    4 ∣ done.length ∧ xorMask mask payload = done ++ xorMask mask rest := by
  induction fuel generalizing payload with
  | zero => exact ⟨dvd_zero 4, rfl⟩
  | succ fuel ih =>
    simp only [unmaskBlocks]
    split
    · exact ⟨dvd_zero 4, rfl⟩
    · rename_i henough
      have htake : (payload.take width).length = width :=
        length_take_of_le (Nat.le_of_not_lt henough)
      have hblock : 4 ∣ (payload.take width).length := htake.symm ▸ hwidth
      obtain ⟨hdone, hrest⟩ := ih _
      constructor
      · rw [length_append, xorBlock_eq hmask hblock, length_xorMask]
        exact dvd_add hblock hdone
      · rw [xorBlock_eq hmask hblock, append_assoc, ← hrest, ← xorMask_append _ _ hblock,
          take_append_drop]

theorem unmaskWidths_spec {mask : Bytes} (hmask : mask.length = 4) (widths : List ℕ)
    (hwidths : ∀ width ∈ widths, 4 ∣ width) (payload : Bytes) :
    let (done, rest) := unmaskWidths mask widths payload
    4 ∣ done.length ∧ xorMask mask payload = done ++ xorMask mask rest := by
  induction widths generalizing payload with
  | nil => exact ⟨dvd_zero 4, rfl⟩
  | cons width widths ih =>
    simp only [unmaskWidths]
    have hfirst := unmaskBlocks_spec hmask (hwidths _ mem_cons_self) payload.length payload
    generalize unmaskBlocks width mask payload.length payload = blocks at hfirst
    obtain ⟨hdone, hrest⟩ := ih (fun width hwidth => hwidths _
      (mem_cons_of_mem _ hwidth)) _
    constructor
    · rw [length_append]
      exact dvd_add hfirst.1 hdone
    · rw [hfirst.2, append_assoc, hrest]

/-- All targets compute the same bytes. -/
theorem wsUnmask_eq (target : SimdTarget) (payload : Bytes) {mask : Bytes}
    (hmask : mask.length = 4) : wsUnmask target payload mask = xorMask mask payload := by
  have hwidths : ∀ width ∈ target.widths, 4 ∣ width := by
    cases target <;> decide
  obtain ⟨hdone, hrest⟩ := unmaskWidths_spec hmask _ hwidths _
  simp only [wsUnmask]
  obtain ⟨k, hk⟩ := hdone
  have hand (n : ℕ) : n &&& 3 = n % 4 := Nat.and_two_pow_sub_one_eq_mod n 2
  rw [hrest]
  simp [xorMask, hand, hk]

/-! ## Server frames -/

def wsBuildFrame (opcode : WsOpcode) (payload : Bytes) (fin : Bool) : Bytes :=
  wsWriteFrameHeader opcode payload.length fin ++ payload

theorem wsBuildFrame_eq (opcode : WsOpcode) (payload : Bytes) (fin : Bool) :
    wsBuildFrame opcode payload fin =
      frameHeader opcode payload.length fin false ++ [] ++ payload := by
  rw [append_nil]
  rfl

/-! ## The result as an `int` -/

theorem wsParseFrame_consumed_le {requireMask allowRsv : Bool} {data : Bytes} {parsed : WsFrame}
    {consumed : ℕ} (h : wsParseFrame requireMask allowRsv data = .frame parsed consumed) :
    consumed ≤ maxFramePayload + 14 := by
  obtain ⟨hconsumed, -, -, hheader, hpayload⟩ := wsParseFrame_lengths h
  omega

/-- What is written is read back by a client or a server, whatever follows it. -/
theorem wsParseFrame_roundTrip (target : SimdTarget) (opcode : WsOpcode) (fin : Bool)
    (payload : Bytes) (key : { key : Bytes // key.length = 4 }) (trailing : Bytes)
    (hsize : payload.length ≤ maxFramePayload) :
    let sent : Bytes := ClientFrame.encode ⟨fin, opcode, key, payload⟩
    let built := wsBuildFrame opcode payload fin
    (∃ masked headerLen, wsParseFrame true false (sent ++ trailing) =
        .frame ⟨fin, 0, opcode, true, key.1, masked, headerLen⟩ sent.length ∧
      masked = ((sent ++ trailing).drop headerLen).take payload.length ∧
      masked.length = payload.length ∧ wsUnmask target masked key.1 = payload) ∧
    (∀ part, part <+: sent → part ≠ sent → wsParseFrame true false part = .needMore) ∧
    wsParseFrame false false (built ++ trailing) =
      .frame ⟨fin, 0, opcode, false, [0, 0, 0, 0], payload, wsFrameHeaderSize payload.length⟩
        built.length ∧
    (∀ part, part <+: built → part ≠ built → wsParseFrame false false part = .needMore) ∧
    (wsWriteFrameHeader opcode payload.length fin).length = wsFrameHeaderSize payload.length ∧
    ∀ requireMask allowRsv data parsed consumed,
      wsParseFrame requireMask allowRsv data = .frame parsed consumed → consumed < 2 ^ 31 := by
  intro sent built
  have shorter {part whole : Bytes} (hpart : part <+: whole) (hne : part ≠ whole) :
      part.length < whole.length := by
    apply lt_of_le_of_ne hpart.length_le
    intro hlength
    exact hne (hpart.eq_of_length hlength)
  have hmasked : (xorMask key.1 payload).length ≤ maxFramePayload := by
    rwa [length_xorMask]
  have hsent : sent = frameHeader opcode (xorMask key.1 payload).length fin true ++ key.1 ++
      xorMask key.1 payload := encode_eq _
  have hbuilt : built = frameHeader opcode payload.length fin false ++ [] ++ payload :=
    wsBuildFrame_eq _ _ _
  have hnone : false = true → false = true := id
  have hempty : ([] : Bytes).length = maskLength false := rfl
  refine ⟨⟨xorMask key.1 payload, wsFrameHeaderSize payload.length + 4, ?_, ?_, ?_, ?_⟩, ?_, ?_,
    ?_, length_wsWriteFrameHeader _ _ _, ?_⟩
  · have hparse := wsParseFrame_wire true false (fun _ => rfl) opcode fin
      (show key.1.length = maskLength true from key.2) hmasked trailing
    rw [← hsent, length_xorMask] at hparse
    exact hparse
  · have hfront : (frameHeader opcode (xorMask key.1 payload).length fin true ++ key.1).length =
        wsFrameHeaderSize payload.length + 4 := by
      rw [length_append, length_frameHeader, key.2, length_xorMask]
    rw [hsent, append_assoc, drop_left' hfront, take_left' (length_xorMask key.1 _)]
  · exact length_xorMask _ _
  · rw [wsUnmask_eq _ _ key.2, xorMask_xorMask]
  · intro part hpart hne
    have hproper := shorter hpart hne
    rw [hsent] at hpart hproper
    exact wsParseFrame_cut _ _ (fun _ => rfl) _ _ key.2 hmasked hpart hproper
  · have hparse := wsParseFrame_wire _ false hnone opcode fin hempty hsize trailing
    rw [← hbuilt] at hparse
    exact hparse
  · intro part hpart hne
    have hproper := shorter hpart hne
    rw [hbuilt] at hpart hproper
    exact wsParseFrame_cut _ _ hnone _ _ hempty hsize hpart hproper
  · intro requireMask allowRsv data parsed consumed hparse
    have hle := wsParseFrame_consumed_le hparse
    unfold maxFramePayload at hle
    omega

theorem wsParseFrame_roundTrip_greeting :
    (ascii "hi").length ≤ maxFramePayload ∧
      wsParseFrame false false (wsBuildFrame .text (ascii "hi") true ++ [0x81]) =
        .frame ⟨true, 0, .text, false, [0, 0, 0, 0], ascii "hi", 2⟩ 4 := by
  have hsize : (ascii "hi").length ≤ maxFramePayload := by decide
  have hparse := wsParseFrame_roundTrip .scalar .text true _ ⟨[1, 2, 3, 4], rfl⟩ [0x81] hsize
  exact ⟨hsize, hparse.2.2.1⟩

end AstraApi.WebSocket
