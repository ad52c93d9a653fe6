import AstraApi.Lib.Bytes

/-!
# Blocks of memory

Loads and stores of several bytes at once, which fail outside of an array, and the numbers
that such bytes are to a processor with the least significant byte first.
-/

namespace AstraApi.Memory

open List hiding Vector

/-! ## Loads and stores -/

def load (data : Bytes) (i width : ℕ) : Option Bytes :=
  if i + width ≤ data.length then some ((data.drop i).take width) else none

def store (data : Bytes) (i : ℕ) (block : Bytes) : Option Bytes :=
  if i + block.length ≤ data.length then
    some (data.take i ++ (block ++ data.drop (i + block.length)))
  else none

theorem load_append (front block back : Bytes) :
    load (front ++ (block ++ back)) front.length block.length = some block := by
  have hfits : front.length + block.length ≤ (front ++ (block ++ back)).length := by
    simp only [length_append]
    omega
  rw [load, if_pos hfits, drop_left, take_left]

theorem store_append (front back : Bytes) {block block' : Bytes}
    (hlength : block'.length = block.length) :
    store (front ++ (block ++ back)) front.length block' = some (front ++ (block' ++ back)) := by
  have hfits : front.length + block'.length ≤ (front ++ (block ++ back)).length := by
    simp only [length_append]
    omega
  have hback : (front ++ (block ++ back)).drop (front.length + block'.length) = back := by
    rw [← drop_drop, drop_left, hlength, drop_left]
  rw [store, if_pos hfits, hback, take_left]

/-! ## Arrays of a fixed size -/

section Arrays

variable {A : Type*} {size : ℕ}

/-- A write that is refused outside of the array. -/
def put (cells : Vector A size) (i : ℕ) (value : A) : Option (Vector A size) :=
  if h : i < size then some (cells.set i value h) else none

def putAll (cells : Vector A size) : ℕ → List A → Option (Vector A size)
  | _, [] => some cells
  | i, value :: values => (put cells i value).bind fun cells => putAll cells (i + 1) values

theorem put_filled {cells : Vector A size} {filled : List A} (value : A)
    (hfilled : filled <+: cells.toList) (hroom : filled.length < size) :
    ∃ cells', put cells filled.length value = some cells' ∧
      filled ++ [value] <+: cells'.toList := by
  refine ⟨_, dif_pos hroom, ?_⟩
  obtain ⟨rest, hrest⟩ := hfilled
  have hlength := congrArg List.length hrest
  rw [length_append, Vector.length_toList] at hlength
  cases rest with
  | nil =>
    rw [length_nil] at hlength
    omega
  | cons old rest =>
    refine ⟨rest, ?_⟩
    rw [Vector.toList_set, ← hrest, set_append_right _ _ le_rfl, Nat.sub_self, append_assoc]
    rfl

theorem putAll_filled {cells : Vector A size} {filled : List A} (values : List A)
    (hfilled : filled <+: cells.toList) (hroom : filled.length + values.length ≤ size) :
    ∃ cells', putAll cells filled.length values = some cells' ∧
      filled ++ values <+: cells'.toList := by
  induction values generalizing cells filled with
  | nil => exact ⟨cells, rfl, by rwa [append_nil]⟩
  | cons value values ih =>
    rw [length_cons] at hroom
    obtain ⟨next, hput, hnext⟩ := put_filled value hfilled (by omega)
    obtain ⟨cells', hall, hcells'⟩ := ih hnext (by
      rw [length_append, length_singleton]
      omega)
    rw [length_append, length_singleton] at hall
    rw [append_assoc, singleton_append] at hcells'
    refine ⟨cells', ?_, hcells'⟩
    rw [putAll, hput]
    exact hall

end Arrays

/-! ## Little-endian numbers -/

def toLittleEndian : Bytes → ℕ
  | [] => 0
  | b :: bytes => b.toNat + 256 * toLittleEndian bytes

def ofLittleEndian : ℕ → ℕ → Bytes
  | 0, _ => []
  | count + 1, value => UInt8.ofNat value :: ofLittleEndian count (value / 256)

theorem toLittleEndian_lt (bytes : Bytes) : toLittleEndian bytes < 256 ^ bytes.length := by
  induction bytes with
  | nil => exact Nat.one_pos
  | cons b bytes ih =>
    have hb : b.toNat < 256 := b.toNat_lt
    rw [toLittleEndian, length_cons, pow_succ]
    omega

theorem toLittleEndian_append (left right : Bytes) :
    toLittleEndian (left ++ right) =
      toLittleEndian left + 256 ^ left.length * toLittleEndian right := by
  induction left with
  | nil => simp [toLittleEndian]
  | cons b left ih =>
    rw [cons_append, toLittleEndian, ih, toLittleEndian, length_cons, pow_succ]
    ring

theorem ofLittleEndian_toLittleEndian (bytes : Bytes) :
    ofLittleEndian bytes.length (toLittleEndian bytes) = bytes := by
  induction bytes with
  | nil => rfl
  | cons b bytes ih =>
    have hb : b.toNat < 256 := b.toNat_lt
    have hlow : UInt8.ofNat (b.toNat + 256 * toLittleEndian bytes) = b := by
      apply UInt8.toNat_inj.mp
      rw [UInt8.toNat_ofNat']
      omega
    have hhigh : (b.toNat + 256 * toLittleEndian bytes) / 256 = toLittleEndian bytes := by omega
    rw [toLittleEndian, length_cons, ofLittleEndian, hlow, hhigh, ih]

theorem ofLittleEndian_xor (count left right : ℕ) :
    ofLittleEndian count (left ^^^ right) =
      (ofLittleEndian count left).zipWith (· ^^^ ·) (ofLittleEndian count right) := by
  induction count generalizing left right with
  | zero => rfl
  | succ count ih =>
    have hhigh : (left ^^^ right) / 256 = left / 256 ^^^ right / 256 := Nat.xor_div_two_pow (n := 8)
    have hlow : UInt8.ofNat (left ^^^ right) = UInt8.ofNat left ^^^ UInt8.ofNat right := by
      apply UInt8.toNat_inj.mp
      exact Nat.xor_mod_two_pow (n := 8)
    rw [ofLittleEndian, ofLittleEndian, ofLittleEndian, zipWith_cons_cons, hhigh, hlow, ih]

theorem shiftLeft_or_toLittleEndian (low high : Bytes) :
    (toLittleEndian high <<< (8 * low.length)) ||| toLittleEndian low =
      toLittleEndian (low ++ high) := by
  have hlow : toLittleEndian low < 2 ^ (8 * low.length) := by
    rw [pow_mul]
    exact toLittleEndian_lt _
  rw [← Nat.shiftLeft_add_eq_or_of_lt hlow, toLittleEndian_append, Nat.shiftLeft_eq, pow_mul]
  ring

end AstraApi.Memory
