import AstraApi.Lib.Memory
import AstraApi.WebSocket.Codec
import Mathlib.Data.List.GetD

/-!
# Unmasking in place

`ws_unmask` as each target compiles it: loops over blocks of 32, 16 and 8 bytes hand over
to each other at the index that they have reached, and a loop over bytes ends the work.
Every load and store is checked against the ends of the payload.
-/

namespace AstraApi.WebSocket

open List Option
open Bytes
open AstraApi.Memory (load store load_append store_append toLittleEndian ofLittleEndian)

def wordXor (mask chunk : Bytes) : Bytes :=
  let mask32 := toLittleEndian mask
  let mask64 := (mask32 <<< 32) ||| mask32
  ofLittleEndian 8 (toLittleEndian chunk ^^^ mask64)

def blockLoop (last : ℕ) (combine : Bytes → Bytes) (len i : ℕ) (payload : Bytes) :
    Option (ℕ × Bytes) :=
  if i + last < len then do
    let block ← load payload i (last + 1)
    let payload ← store payload i (combine block)
    blockLoop last combine len (i + (last + 1)) payload
  else some (i, payload)
termination_by len - i

def byteLoop (mask : Bytes) (len i : ℕ) (payload : Bytes) : Option Bytes :=
  if i < len then do
    let b ← payload[i]?
    let m ← mask[i &&& 3]?
    byteLoop mask len (i + 1) (payload.set i (b ^^^ m))
  else some payload
termination_by len - i

def blockLoopIf (enough : Bool) (last : ℕ) (combine : Bytes → Bytes) (len i : ℕ) (payload : Bytes) :
    Option (ℕ × Bytes) :=
  if enough then blockLoop last combine len i payload else some (i, payload)

/-- The loops over registers. -/
def vectorLoops (mask : Bytes) (len : ℕ) (payload : Bytes) : SimdTarget → Option (ℕ × Bytes)
  | .avx2 => do
    let (i, payload) ← blockLoopIf (32 ≤ len) 31 (xorBlock mask) len 0 payload
    blockLoopIf (i + 15 < len) 15 (xorBlock mask) len i payload
  | .sse2 => blockLoopIf (16 ≤ len) 15 (xorBlock mask) len 0 payload
  | .neon => blockLoopIf (16 ≤ len) 15 (xorBlock mask) len 0 payload
  | .scalar => some (0, payload)

/-- `ws_unmask`; it is `none` when a load or a store leaves the payload. -/
def wsUnmaskInPlace (target : SimdTarget) (payload : Bytes)
    (mask : { mask : Bytes // mask.length = 4 }) : Option Bytes := do
  let len := payload.length
  let (i, payload) ← vectorLoops mask.1 len payload target
  let (i, payload) ← blockLoopIf (i < len && 8 ≤ len - i) 7 (wordXor mask.1) len i payload
  byteLoop mask.1 len i payload

/-- The payload as a loop leaves it at an index. -/
def Unmasked (mask original : Bytes) (i : ℕ) (payload : Bytes) : Prop :=
  ∃ front back, original = front ++ back ∧ i = front.length ∧ payload = xorMask mask front ++ back

theorem wordXor_eq {mask chunk : Bytes} (hmask : mask.length = 4) (hchunk : chunk.length = 8) :
    wordXor mask chunk = xorMask mask chunk := by
  have hmask64 : (toLittleEndian mask <<< 32) ||| toLittleEndian mask =
      toLittleEndian (mask ++ mask) := by
    rw [← Memory.shiftLeft_or_toLittleEndian, hmask]
  have hlength : (mask ++ mask).length = 8 := by rw [length_append, hmask]
  have hwords : ofLittleEndian 8 (toLittleEndian (mask ++ mask)) = mask ++ mask := by
    rw [← hlength, Memory.ofLittleEndian_toLittleEndian]
  have hbytes : ofLittleEndian 8 (toLittleEndian chunk) = chunk := by
    rw [← hchunk, Memory.ofLittleEndian_toLittleEndian]
  rw [wordXor, hmask64, Memory.ofLittleEndian_xor, hbytes, hwords, ← xorBlock_eq hmask (by omega),
    xorBlock, hchunk]
  simp

/-! ## The loops -/

variable {mask original payload : Bytes} {i : ℕ}

/-- A loop over blocks keeps the phase of the mask. -/
theorem blockLoop_spec {last : ℕ} {combine : Bytes → Bytes} (hwidth : 4 ∣ last + 1)
    (hcombine : ∀ block : Bytes, block.length = last + 1 → combine block = xorMask mask block)
    (hphase : 4 ∣ i) (h : Unmasked mask original i payload) :
    ∃ j result, blockLoop last combine original.length i payload = some (j, result) ∧ 4 ∣ j ∧
      Unmasked mask original j result := by
  obtain ⟨front, back, rfl, rfl, rfl⟩ := h
  induction hlength : back.length using Nat.strong_induction_on generalizing front back with
  | _ length ih =>
    rw [blockLoop]
    split
    · next henough =>
      rw [length_append] at henough
      obtain ⟨block, rest, rfl, hblock⟩ : ∃ block rest, back = block ++ rest ∧
          block.length = last + 1 :=
        ⟨back.take _, back.drop _, (take_append_drop _ _).symm, length_take_of_le (by omega)⟩
      have hload : load (xorMask mask front ++ (block ++ rest)) front.length (last + 1) =
          some block := by
        rw [← length_xorMask, ← hblock, load_append]
      have hstore : store (xorMask mask front ++ (block ++ rest)) front.length (combine block) =
          some (xorMask mask (front ++ block) ++ rest) := by
        rw [hcombine _ hblock, xorMask_append _ _ hphase, append_assoc,
          ← store_append _ _ (length_xorMask _ _), length_xorMask]
      have hnext : front.length + (last + 1) = (front ++ block).length := by
        rw [length_append, hblock]
      have hrest := ih _ (by rw [← hlength, length_append]; omega) (front ++ block)
        rest (by rw [length_append, hblock]; exact dvd_add hphase hwidth) rfl
      simp only [hload, hstore, bind_eq_bind, bind_some, hnext]
      rwa [append_assoc] at hrest
    · exact ⟨front.length, _, rfl, hphase, front, back, rfl, rfl, rfl⟩

theorem byteLoop_spec (hmask : mask.length = 4) (h : Unmasked mask original i payload) :
    byteLoop mask original.length i payload = some (xorMask mask original) := by
  obtain ⟨front, back, rfl, rfl, rfl⟩ := h
  induction back generalizing front with
  | nil =>
    rw [byteLoop, if_neg (by simp), append_nil, append_nil]
  | cons b back ih =>
    have hread : (xorMask mask front ++ b :: back)[front.length]? = some b := by
      rw [← length_xorMask, getElem?_append_right le_rfl, Nat.sub_self]
      rfl
    have hand : front.length &&& 3 = front.length % 4 := Nat.and_two_pow_sub_one_eq_mod _ 2
    have hm : mask[front.length &&& 3]? = some (mask.getD (front.length % 4) 0) := by
      have hlt : front.length % 4 < mask.length := by omega
      rw [hand, getElem?_eq_getElem, getD_eq_getElem _ _ hlt]
    have hset : (xorMask mask front ++ b :: back).set front.length
        (b ^^^ mask.getD (front.length % 4) 0) = xorMask mask (front ++ [b]) ++ back := by
      rw [← length_xorMask, set_append_right _ _ le_rfl, Nat.sub_self,
        set_cons_zero, length_xorMask, xorMask, xorMask, mapIdx_append,
        append_assoc]
      simp
    have hnext : (front ++ [b]).length = front.length + 1 := length_append
    have hrest := ih (front ++ [b])
    rw [append_assoc, singleton_append, hnext] at hrest
    rw [byteLoop, if_pos (by simp), hread, hm]
    simp only [bind_eq_bind, bind_some, hset, hrest]

theorem blockLoopIf_spec {last : ℕ} {combine : Bytes → Bytes} (enough : Bool)
    (hwidth : 4 ∣ last + 1)
    (hcombine : ∀ block : Bytes, block.length = last + 1 → combine block = xorMask mask block)
    (hphase : 4 ∣ i) (h : Unmasked mask original i payload) :
    ∃ j result, blockLoopIf enough last combine original.length i payload = some (j, result) ∧
      4 ∣ j ∧ Unmasked mask original j result := by
  cases enough with
  | true => exact blockLoop_spec hwidth hcombine hphase h
  | false => exact ⟨i, payload, rfl, hphase, h⟩

theorem vectorLoops_spec (hmask : mask.length = 4) (target : SimdTarget) (payload : Bytes) :
    ∃ i result, vectorLoops mask payload.length payload target = some (i, result) ∧ 4 ∣ i ∧
      Unmasked mask payload i result := by
  have hstart : Unmasked mask payload 0 payload := ⟨[], payload, rfl, rfl, rfl⟩
  have hblock {last : ℕ} (hwidth : 4 ∣ last + 1) (block : Bytes) (hlength : block.length = last + 1) :
      xorBlock mask block = xorMask mask block := xorBlock_eq hmask (hlength ▸ hwidth)
  cases target with
  | avx2 =>
    obtain ⟨i, result, hfirst, hphase, hunmasked⟩ := blockLoopIf_spec (32 ≤ payload.length)
      (by decide : 4 ∣ 31 + 1) (hblock (by decide)) (dvd_zero 4) hstart
    simp only [vectorLoops, hfirst, bind_eq_bind, bind_some]
    exact blockLoopIf_spec _ (by decide) (hblock (by decide)) hphase hunmasked
  | sse2 | neon => exact blockLoopIf_spec _ (by decide) (hblock (by decide)) (dvd_zero 4) hstart
  | scalar => exact ⟨0, payload, rfl, dvd_zero 4, hstart⟩

/-- No access leaves the payload, and the result is that of the mask, byte by byte. -/
theorem wsUnmaskInPlace_eq (target : SimdTarget) (payload : Bytes)
    (mask : { mask : Bytes // mask.length = 4 }) :
    wsUnmaskInPlace target payload mask = some (xorMask mask.1 payload) := by
  obtain ⟨i, result, hvectors, hphase, hunmasked⟩ := vectorLoops_spec mask.2 target payload
  obtain ⟨j, after, hwords, -, hafter⟩ := blockLoopIf_spec
    (i < payload.length && 8 ≤ payload.length - i) (by decide)
    (fun block hblock => wordXor_eq mask.2 hblock) hphase hunmasked
  simp only [wsUnmaskInPlace, hvectors, bind_eq_bind, bind_some, hwords]
  exact byteLoop_spec mask.2 hafter

/-- Every target stays inside of the payload, masks each byte with the byte of the mask at
its index modulo four, and undoes itself. -/
theorem wsUnmaskInPlace_spec (target : SimdTarget) (payload : Bytes)
    (mask : { mask : Bytes // mask.length = 4 }) :
    ∃ result, wsUnmaskInPlace target payload mask = some result ∧
      result = wsUnmask target payload mask.1 ∧ result.length = payload.length ∧
      (∀ i, result[i]? = payload[i]?.map fun b => b ^^^ mask.1.getD (i % 4) 0) ∧
      wsUnmaskInPlace target result mask = some payload := by
  refine ⟨xorMask _ _, wsUnmaskInPlace_eq _ _ _,
    (wsUnmask_eq _ _ mask.2).symm, length_xorMask _ _, fun i => ?_, ?_⟩
  · rw [xorMask, getElem?_mapIdx]
  · rw [wsUnmaskInPlace_eq, xorMask_xorMask]

end AstraApi.WebSocket
