import AstraApi.Lib.Bytes
import Mathlib.Data.List.GetD

/-!
# Base64

The encoding of RFC 4648 with its standard alphabet.
-/

namespace AstraApi.Base64

open List

/-- Capital letters, small letters, digits, "+" and "/". -/
def alphabet : Bytes :=
  (List.range 26).map (fun i => UInt8.ofNat (65 + i)) ++
    (List.range 26).map (fun i => UInt8.ofNat (97 + i)) ++
    (List.range 10).map (fun i => UInt8.ofNat (48 + i)) ++ [43, 47]

def letter (value : ℕ) : Byte := alphabet.getD value 0

def bits (b : Byte) : List Bool :=
  [b.toNat.testBit 7, b.toNat.testBit 6, b.toNat.testBit 5, b.toNat.testBit 4,
    b.toNat.testBit 3, b.toNat.testBit 2, b.toNat.testBit 1, b.toNat.testBit 0]

def value (bits : List Bool) : ℕ :=
  bits.foldl (fun value bit => 2 * value + bit.toNat) 0

/-- Groups of six bits.  The last one is filled up with zero bits. -/
def sextets : List Bool → List ℕ
  | [] => []
  | a :: b :: c :: d :: e :: f :: rest => value [a, b, c, d, e, f] :: sextets rest
  | few => [value (few ++ List.replicate (6 - few.length) false)]

/-- A letter for each group, and "=" up to a multiple of four. -/
def encode (data : Bytes) : Bytes :=
  let letters := (sextets (data.flatMap bits)).map letter
  letters ++ List.replicate ((4 - letters.length % 4) % 4) 0x3D

/-! ## Three bytes at a time -/

section Groups

variable (a b c : Byte)

theorem sextets_three (rest : Bytes) :
    sextets ((a :: b :: c :: rest).flatMap bits) =
      a.toNat / 4 :: (a.toNat % 4 * 16 + b.toNat / 16) :: (b.toNat % 16 * 4 + c.toNat / 64) ::
        c.toNat % 64 :: sextets (rest.flatMap bits) := by
  have ha := a.toNat_lt
  have hb := b.toNat_lt
  have hc := c.toNat_lt
  simp only [flatMap_cons, bits, cons_append, nil_append, sextets, value,
    foldl_cons, foldl_nil, Nat.toNat_testBit, List.cons.injEq, and_true]
  omega

theorem sextets_two :
    sextets ([a, b].flatMap bits) =
      [a.toNat / 4, a.toNat % 4 * 16 + b.toNat / 16, b.toNat % 16 * 4] := by
  have ha := a.toNat_lt
  have hb := b.toNat_lt
  simp only [flatMap_cons, flatMap_nil, bits, cons_append, nil_append, sextets,
    length_cons, length_nil, List.replicate, value, foldl_cons, foldl_nil,
    Nat.toNat_testBit, Bool.toNat_false, List.cons.injEq, and_true]
  omega

theorem sextets_one :
    sextets ([a].flatMap bits) = [a.toNat / 4, a.toNat % 4 * 16] := by
  have ha := a.toNat_lt
  simp only [flatMap_cons, flatMap_nil, bits, cons_append, nil_append, sextets,
    length_cons, length_nil, List.replicate, value, foldl_cons, foldl_nil,
    Nat.toNat_testBit, Bool.toNat_false, List.cons.injEq, and_true]
  omega

theorem encode_three (rest : Bytes) :
    encode (a :: b :: c :: rest) = [letter (a.toNat / 4), letter (a.toNat % 4 * 16 + b.toNat / 16),
        letter (b.toNat % 16 * 4 + c.toNat / 64), letter (c.toNat % 64)] ++ encode rest := by
  have hpad (n : ℕ) : (4 - (n + 4) % 4) % 4 = (4 - n % 4) % 4 := by
    rw [Nat.add_mod_right]
  simp only [encode, sextets_three, map_cons, length_cons, cons_append, nil_append]
  rw [hpad]

theorem encode_two :
    encode [a, b] = [letter (a.toNat / 4), letter (a.toNat % 4 * 16 + b.toNat / 16),
        letter (b.toNat % 16 * 4), 0x3D] := by
  simp only [encode, sextets_two]
  rfl

theorem encode_one :
    encode [a] = [letter (a.toNat / 4), letter (a.toNat % 4 * 16), 0x3D, 0x3D] := by
  simp only [encode, sextets_one]
  rfl

end Groups

theorem letter_mem {value : ℕ} (hvalue : value < 64) : letter value ∈ alphabet := by
  rw [letter, getD_eq_getElem _ _ (show value < alphabet.length from hvalue)]
  exact getElem_mem _

/-- Nothing but letters of the alphabet and "=". -/
theorem encode_subset (data : Bytes) : encode data ⊆ alphabet ++ [0x3D] := by
  match data with
  | [] => exact nil_subset _
  | [a] =>
    have ha := a.toNat_lt
    rw [encode_one]
    simp only [cons_subset, nil_subset, mem_append, mem_singleton, or_true, and_true]
    exact ⟨.inl (letter_mem (by omega)), .inl (letter_mem (by omega))⟩
  | [a, b] =>
    have ha := a.toNat_lt
    have hb := b.toNat_lt
    rw [encode_two]
    simp only [cons_subset, nil_subset, mem_append, mem_singleton, or_true, and_true]
    exact ⟨.inl (letter_mem (by omega)), .inl (letter_mem (by omega)), .inl (letter_mem (by omega))⟩
  | a :: b :: c :: rest =>
    have ha := a.toNat_lt
    have hb := b.toNat_lt
    have hc := c.toNat_lt
    rw [encode_three, append_subset]
    refine ⟨?_, encode_subset rest⟩
    simp only [cons_subset, nil_subset, mem_append, and_true]
    exact ⟨.inl (letter_mem (by omega)), .inl (letter_mem (by omega)),
      .inl (letter_mem (by omega)), .inl (letter_mem (by omega))⟩

end AstraApi.Base64
