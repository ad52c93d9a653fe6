import Mathlib.Tactic

/-!
# Bytes

Byte strings, big-endian numbers and repeating-key XOR.
-/

namespace AstraApi

open List

abbrev Byte := UInt8
abbrev Bytes := List Byte

instance : LawfulBEq Bytes := inferInstance

theorem length_zeros (size : ℕ) : (replicate size (0 : Byte)).length = size := length_replicate

/-- What all bytes of a text have is decided on the text, not on all bytes. -/
instance {p : Byte → Prop} [DecidablePred p] (bytes : Bytes) : Decidable (∀ b ∈ bytes, p b) :=
  decidableBAll p bytes

def ascii (text : String) : Bytes :=
  text.toList.map fun c => UInt8.ofNat c.toNat

/-- Memory of a given size that was just set aside.  What it holds is not known. -/
abbrev FreshMemory := (size : ℕ) → { memory : Bytes // memory.length = size }

namespace Bytes

def toBigEndian (bytes : Bytes) : ℕ :=
  bytes.foldl (fun value b => value * 256 + b.toNat) 0

/-- The low `count` bytes of a number, most significant first. -/
def ofBigEndian : ℕ → ℕ → Bytes
  | 0, _ => []
  | count + 1, value => ofBigEndian count (value / 256) ++ [UInt8.ofNat value]

def xorMask (key payload : Bytes) : Bytes :=
  payload.mapIdx fun i b => b ^^^ key.getD (i % 4) 0

@[simp]
theorem length_ofBigEndian (count value : ℕ) : (ofBigEndian count value).length = count := by
  induction count generalizing value with
  | zero => rfl
  | succ count ih => simp [ofBigEndian, ih]

theorem toBigEndian_append_singleton (bytes : Bytes) (b : Byte) :
    toBigEndian (bytes ++ [b]) = toBigEndian bytes * 256 + b.toNat := by
  simp [toBigEndian]

theorem toBigEndian_ofBigEndian {count value : ℕ} (hfits : value < 256 ^ count) :
    toBigEndian (ofBigEndian count value) = value := by
  induction count generalizing value with
  | zero =>
    obtain rfl : value = 0 := by simpa using hfits
    rfl
  | succ count ih =>
    have hrest : value / 256 < 256 ^ count := by
      rw [Nat.div_lt_iff_lt_mul (by norm_num)]
      simpa [pow_succ] using hfits
    rw [ofBigEndian, toBigEndian_append_singleton, ih hrest]
    have hlow : (UInt8.ofNat value).toNat = value % 256 := by simp
    omega

theorem toBigEndian_lt (bytes : Bytes) : toBigEndian bytes < 256 ^ bytes.length := by
  induction bytes using List.reverseRecOn with
  | nil => exact Nat.one_pos
  | append_singleton bytes b ih =>
    have hb : b.toNat < 256 := b.toNat_lt
    rw [toBigEndian_append_singleton, length_append, length_singleton, pow_succ]
    omega

@[simp]
theorem length_xorMask (key payload : Bytes) : (xorMask key payload).length = payload.length := by
  simp [xorMask]

theorem xorMask_xorMask (key payload : Bytes) : xorMask key (xorMask key payload) = payload := by
  apply ext_getElem
  · simp
  · intro i hleft hright
    simp only [xorMask, getElem_mapIdx]
    rw [UInt8.xor_assoc, UInt8.xor_self, UInt8.xor_zero]

end Bytes

theorem append_delimiter_inj {α : Type*} {delimiter : α}
    {left right leftRest rightRest : List α} (hleft : delimiter ∉ left) (hright : delimiter ∉ right)
    (h : left ++ delimiter :: leftRest = right ++ delimiter :: rightRest) :
    left = right ∧ leftRest = rightRest := by
  rcases append_eq_append_iff.mp h with ⟨more, hmore, hback⟩ | ⟨more, hmore, hback⟩
  · cases more with
    | nil => exact ⟨(hmore.trans (append_nil left)).symm, (List.cons.inj hback).2⟩
    | cons c more =>
      rw [hmore, ← (List.cons.inj hback).1] at hright
      exact absurd (mem_append_right left mem_cons_self) hright
  · cases more with
    | nil => exact ⟨hmore.trans (append_nil right), (List.cons.inj hback).2.symm⟩
    | cons c more =>
      rw [hmore, ← (List.cons.inj hback).1] at hleft
      exact absurd (mem_append_right right mem_cons_self) hleft

end AstraApi
