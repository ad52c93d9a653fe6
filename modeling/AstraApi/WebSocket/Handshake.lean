import AstraApi.Lib.Base64
import AstraApi.Lib.Message
import AstraApi.Lib.Sha1

/-!
# The handshake

`ws_build_upgrade_response` answers the key of a client with its SHA-1 digest in
base64.  The `SHA1` object collects bytes in a block buffer and pads the message by
feeding the padding to its own `update`.
-/

namespace AstraApi.WebSocket

open List
open Bytes BlockStream Sha1

/-! ## The hash object -/

structure SHA1 where
  state : Registers := ⟨0x67452301, 0xEFCDAB89, 0x98BADCFE, 0x10325476, 0xC3D2E1F0⟩
  count : UInt64 := 0
  buffer : Bytes := List.replicate 64 0

namespace SHA1

/-- The first loop of `transform`. -/
def blockWords (block : Bytes) : List UInt32 :=
  (List.range 16).map fun i =>
    (block.getD (i * 4) 0).toUInt32 <<< 24 ||| (block.getD (i * 4 + 1) 0).toUInt32 <<< 16 |||
      (block.getD (i * 4 + 2) 0).toUInt32 <<< 8 ||| (block.getD (i * 4 + 3) 0).toUInt32

def expandStep (w : List UInt32) (i : ℕ) : List UInt32 :=
  w ++ [rotl 1 (w.getD (i - 3) 0 ^^^ w.getD (i - 8) 0 ^^^ w.getD (i - 14) 0 ^^^ w.getD (i - 16) 0)]

/-- The array `w` of `transform`. -/
def expand (block : Bytes) : List UInt32 :=
  (List.range' 16 64).foldl expandStep (blockWords block)

/-- One round of the loop in `transform`. -/
def mix (w : List UInt32) (r : Registers) (i : ℕ) : Registers :=
  let (f, k) :=
    if i < 20 then ((r.b &&& r.c) ||| (~~~r.b &&& r.d), 0x5A827999)
    else if i < 40 then (r.b ^^^ r.c ^^^ r.d, 0x6ED9EBA1)
    else if i < 60 then ((r.b &&& r.c) ||| (r.b &&& r.d) ||| (r.c &&& r.d), 0x8F1BBCDC)
    else (r.b ^^^ r.c ^^^ r.d, 0xCA62C1D6)
  let temp := rotl 5 r.a + f + r.e + k + w.getD i 0
  ⟨temp, r.a, rotl 30 r.b, r.c, r.d⟩

def transform (state : Registers) (block : Bytes) : Registers :=
  let r := (List.range 80).foldl (mix (expand block)) state
  ⟨state.a + r.a, state.b + r.b, state.c + r.c, state.d + r.d, state.e + r.e⟩

def updateLoop : Bytes → ℕ → SHA1 → SHA1
  | [], _, sha => sha
  | b :: data, idx, sha =>
    let buffer := sha.buffer.set idx b
    if idx + 1 = 64 then
      updateLoop data 0 { sha with state := transform sha.state buffer, buffer := buffer }
    else updateLoop data (idx + 1) { sha with buffer := buffer }

def update (sha : SHA1) (data : Bytes) : SHA1 :=
  let idx := (sha.count % 64).toNat
  updateLoop data idx { sha with count := sha.count + UInt64.ofNat data.length }

/-- Zero bytes up to the length.  There are fewer than 64 of them. -/
def padZeros : ℕ → SHA1 → SHA1
  | 0, sha => sha
  | fuel + 1, sha => if sha.count % 64 ≠ 56 then padZeros fuel (sha.update [0]) else sha

/-- The loop that fills `len_be` from its end. -/
def lengthBytes : ℕ → UInt64 → Bytes
  | 0, _ => []
  | count + 1, bits => lengthBytes count (bits >>> 8) ++ [(bits &&& 0xFF).toUInt8]

def finalize (sha : SHA1) : Bytes :=
  let bits := sha.count * 8
  let sha := padZeros 64 (sha.update [0x80])
  let sha := sha.update (lengthBytes 8 bits)
  [sha.state.a, sha.state.b, sha.state.c, sha.state.d, sha.state.e].flatMap fun (word : UInt32) =>
    [(word >>> 24).toUInt8, (word >>> 16).toUInt8, (word >>> 8).toUInt8, word.toUInt8]

end SHA1

/-! ## The response -/

def b64Table : Bytes := ascii "ABCDEFGHIJKLMNOPQRSTUVWXYZabcdefghijklmnopqrstuvwxyz0123456789+/"

def base64Encode (data : Bytes) : Bytes :=
  match data with
  | [] => []
  | a :: rest =>
    let n := a.toUInt32 <<< 16
    let n := if 0 < rest.length then n ||| (rest.getD 0 0).toUInt32 <<< 8 else n
    let n := if 1 < rest.length then n ||| (rest.getD 1 0).toUInt32 else n
    [b64Table.getD ((n >>> 18) &&& 0x3F).toNat 0,
      b64Table.getD ((n >>> 12) &&& 0x3F).toNat 0,
      if 0 < rest.length then b64Table.getD ((n >>> 6) &&& 0x3F).toNat 0 else 0x3D,
      if 1 < rest.length then b64Table.getD (n &&& 0x3F).toNat 0 else 0x3D] ++
      base64Encode (rest.drop 2)
termination_by data.length
decreasing_by
  simp only [length_drop, length_cons]
  omega

def wsMagicGuid : Bytes := ascii "258EAFA5-E914-47DA-95CA-C5AB0DC85B11"

def wsBuildUpgradeResponse (secKey : Bytes) : Bytes :=
  let sha := (({} : SHA1).update secKey).update wsMagicGuid
  let accept := base64Encode sha.finalize
  ascii "HTTP/1.1 101 Switching Protocols\r\n" ++ ascii "Upgrade: websocket\r\n" ++
    ascii "Connection: Upgrade\r\n" ++ ascii "Sec-WebSocket-Accept: " ++ accept ++ ascii "\r\n\r\n"

/-! ## Compression -/

theorem or_eq_ch (x y z : Word) : (x &&& y) ||| (~~~x &&& z) = ch x y z := by
  apply UInt32.toBitVec_inj.mp
  ext i hi
  simp only [ch, UInt32.toBitVec_or, UInt32.toBitVec_xor, UInt32.toBitVec_and, UInt32.toBitVec_not,
    BitVec.getElem_or, BitVec.getElem_xor, BitVec.getElem_and, BitVec.getElem_not]
  cases x.toBitVec[i] <;> simp

theorem or_eq_maj (x y z : Word) : (x &&& y) ||| (x &&& z) ||| (y &&& z) = maj x y z := by
  apply UInt32.toBitVec_inj.mp
  ext i hi
  simp only [maj, UInt32.toBitVec_or, UInt32.toBitVec_xor, UInt32.toBitVec_and,
    BitVec.getElem_or, BitVec.getElem_xor, BitVec.getElem_and]
  cases x.toBitVec[i] <;> cases y.toBitVec[i] <;> simp

theorem shiftLeft_or_shiftLeft (x : ℕ) {y : ℕ} (hy : y < 2 ^ 8) (k : ℕ) :
    x <<< (8 + k) ||| y <<< k = (x * 256 + y) <<< k := by
  have hbyte : x <<< 8 ||| y = x * 256 + y := by
    rw [← Nat.shiftLeft_add_eq_or_of_lt hy, Nat.shiftLeft_eq]
  rw [Nat.shiftLeft_add, ← Nat.shiftLeft_or_distrib, hbyte]

theorem shifts_eq_word (b0 b1 b2 b3 : Byte) :
    b0.toUInt32 <<< 24 ||| b1.toUInt32 <<< 16 ||| b2.toUInt32 <<< 8 ||| b3.toUInt32 =
      UInt32.ofNat (toBigEndian [b0, b1, b2, b3]) := by
  have h0 := b0.toNat_lt
  have h1 := b1.toNat_lt
  have h2 := b2.toNat_lt
  have h3 := b3.toNat_lt
  have hvalue : toBigEndian [b0, b1, b2, b3] =
      ((b0.toNat * 256 + b1.toNat) * 256 + b2.toNat) * 256 + b3.toNat := by
    simp [toBigEndian]
  have hlow (x : Byte) (n : ℕ) (hn : n ≤ 24) : x.toNat <<< n % 2 ^ 32 = x.toNat <<< n := by
    apply Nat.mod_eq_of_lt
    rw [Nat.shiftLeft_eq]
    calc x.toNat * 2 ^ n < 2 ^ 8 * 2 ^ n := Nat.mul_lt_mul_of_pos_right x.toNat_lt (by positivity)
      _ ≤ 2 ^ 8 * 2 ^ 24 := Nat.mul_le_mul_left _ (Nat.pow_le_pow_right (by norm_num) hn)
      _ = 2 ^ 32 := by norm_num
  have hzero := shiftLeft_or_shiftLeft ((b0.toNat * 256 + b1.toNat) * 256 + b2.toNat) h3 0
  apply UInt32.toNat_inj.mp
  calc b0.toNat <<< 24 % 2 ^ 32 ||| b1.toNat <<< 16 % 2 ^ 32 ||| b2.toNat <<< 8 % 2 ^ 32 ||| b3.toNat
      = b0.toNat <<< (8 + 16) ||| b1.toNat <<< 16 ||| b2.toNat <<< 8 ||| b3.toNat := by
        rw [hlow b0 24 le_rfl, hlow b1 16 (by norm_num), hlow b2 8 (by norm_num)]
    _ = (b0.toNat * 256 + b1.toNat) <<< (8 + 8) ||| b2.toNat <<< 8 ||| b3.toNat := by
        rw [shiftLeft_or_shiftLeft _ h1]
    _ = ((b0.toNat * 256 + b1.toNat) * 256 + b2.toNat) <<< 8 ||| b3.toNat := by
        rw [shiftLeft_or_shiftLeft _ h2]
    _ = ((b0.toNat * 256 + b1.toNat) * 256 + b2.toNat) * 256 + b3.toNat := hzero
    _ = toBigEndian [b0, b1, b2, b3] % 2 ^ 32 := by
        omega

theorem blockWords_eq {block : Bytes} (hblock : block.length = 64) :
    SHA1.blockWords block = (List.range 16).map (schedule block) := by
  apply map_congr_left
  intro i hmem
  have hi : i < 16 := mem_range.mp hmem
  have hget (j : ℕ) : block.getD (i * 4 + j) 0 = (block.drop (i * 4)).getD j 0 := by
    rw [getD_eq_getElem?_getD, getD_eq_getElem?_getD, getElem?_drop]
  have hlength : (block.drop (i * 4)).length = 64 - i * 4 := by rw [length_drop, hblock]
  have hfour : (block.drop (i * 4)).take 4 = [block.getD (i * 4) 0, block.getD (i * 4 + 1) 0,
      block.getD (i * 4 + 2) 0, block.getD (i * 4 + 3) 0] := by
    have hfirst := hget 0
    rw [Nat.add_zero] at hfirst
    rw [hfirst, hget, hget, hget]
    match hrest : block.drop (i * 4) with
    | _ :: _ :: _ :: _ :: _ => rfl
    | [] | [_] | [_, _] | [_, _, _] =>
      rw [hrest] at hlength
      simp only [length_cons, length_nil] at hlength
      omega
  rw [shifts_eq_word, schedule, if_pos hi, blockWord, hfour]

theorem getD_schedule (block : Bytes) {t count : ℕ} (ht : t < count) :
    ((List.range count).map (schedule block)).getD t 0 = schedule block t := by
  rw [getD_eq_getElem _ _ (by simpa using ht), getElem_map, getElem_range]

/-- The second loop of `transform` continues the message schedule. -/
theorem foldl_expandStep (block : Bytes) (count : ℕ) :
    (List.range' 16 count).foldl SHA1.expandStep ((List.range 16).map (schedule block)) =
      (List.range (16 + count)).map (schedule block) := by
  induction count with
  | zero => rfl
  | succ count ih =>
    have hnext : schedule block (16 + count) =
        rotl 1 (schedule block (16 + count - 3) ^^^ schedule block (16 + count - 8) ^^^
          schedule block (16 + count - 14) ^^^ schedule block (16 + count - 16)) := by
      rw [schedule, if_neg (by omega)]
    rw [range'_1_concat, foldl_append, ih, foldl_cons, foldl_nil,
      SHA1.expandStep, getD_schedule _ (by omega), getD_schedule _ (by omega),
      getD_schedule _ (by omega), getD_schedule _ (by omega), ← hnext, ← Nat.add_assoc,
      range_succ, map_append, map_singleton]

theorem expand_eq {block : Bytes} (hblock : block.length = 64) :
    SHA1.expand block = (List.range 80).map (schedule block) := by
  rw [SHA1.expand, blockWords_eq hblock, foldl_expandStep]

/-- The code's form of a round is that of the standard. -/
theorem transform_eq {block : Bytes} (hblock : block.length = 64) (state : Registers) :
    SHA1.transform state block = compress state block := by
  have hrounds : (List.range 80).foldl (SHA1.mix (SHA1.expand block)) state =
      (List.range 80).foldl (advance (schedule block)) state := by
    apply foldl_ext
    intro r t hmem
    have ht : t < 80 := mem_range.mp hmem
    have hword : (SHA1.expand block).getD t 0 = schedule block t := by
      rw [expand_eq hblock, getD_schedule _ ht]
    by_cases h20 : t < 20
    · simp only [SHA1.mix, advance, f, k, if_pos h20, hword, or_eq_ch]
    · by_cases h40 : t < 40
      · simp only [SHA1.mix, advance, f, k, if_neg h20, if_pos h40, hword, parity]
      · by_cases h60 : t < 60
        · simp only [SHA1.mix, advance, f, k, if_neg h20, if_neg h40, if_pos h60, hword, or_eq_maj]
        · simp only [SHA1.mix, advance, f, k, if_neg h20, if_neg h40, if_neg h60, hword, parity]
  simp [SHA1.transform, compress, hrounds]

/-! ## The block buffer -/

theorem take_set_succ {buffer : Bytes} {idx : ℕ} (hidx : idx < buffer.length) (b : Byte) :
    (buffer.set idx b).take (idx + 1) = buffer.take idx ++ [b] := by
  rw [take_add_one, take_set_of_le le_rfl, getElem?_set_self hidx, Option.toList_some]

theorem updateLoop_spec (data : Bytes) {idx : ℕ} (hidx : idx < 64) {sha : SHA1}
    (hbuffer : sha.buffer.length = 64) :
    let out := SHA1.updateLoop data idx sha
    out.count = sha.count ∧ out.buffer.length = 64 ∧
      absorb 64 compress ⟨sha.state, sha.buffer.take idx⟩ data =
        ⟨out.state, out.buffer.take ((idx + data.length) % 64)⟩ := by
  induction data generalizing idx sha with
  | nil =>
    refine ⟨rfl, hbuffer, ?_⟩
    rw [length_nil, Nat.add_zero, Nat.mod_eq_of_lt hidx]
    rfl
  | cons b data ih =>
    have hset : (sha.buffer.set idx b).length = 64 := by rw [length_set, hbuffer]
    have hpending : (sha.buffer.take idx).length = idx :=
      length_take_of_le (by omega)
    have htaken := take_set_succ (show idx < sha.buffer.length by omega) b
    rw [SHA1.updateLoop]
    by_cases hfull : idx + 1 = 64
    · have hblock : sha.buffer.take idx ++ [b] = sha.buffer.set idx b := by
        rw [← htaken, hfull, ← hset, take_length]
      have hpush : push 64 compress ⟨sha.state, sha.buffer.take idx⟩ b =
          ⟨SHA1.transform sha.state (sha.buffer.set idx b), (sha.buffer.set idx b).take 0⟩ := by
        rw [push, hpending, if_pos hfull, hblock, transform_eq hset, take_zero]
      have hlength : (0 + data.length) % 64 = (idx + (data.length + 1)) % 64 := by omega
      rw [if_pos hfull, length_cons, ← hlength, absorb, foldl_cons, hpush]
      exact @ih 0 (by norm_num)
        { sha with
          state := SHA1.transform _ _
          buffer := sha.buffer.set _ b } hset
    · have hpush : push 64 compress ⟨sha.state, sha.buffer.take idx⟩ b =
          ⟨sha.state, (sha.buffer.set idx b).take (idx + 1)⟩ := by
        rw [push, hpending, if_neg hfull, htaken]
      have hlength : (idx + 1 + data.length) % 64 = (idx + (data.length + 1)) % 64 := by omega
      rw [if_neg hfull, length_cons, ← hlength, absorb, foldl_cons, hpush]
      exact @ih (idx + 1) (by omega) { sha with buffer := sha.buffer.set _ b } hset

/-- The object has taken in the message. -/
structure SHA1.Absorbed (message : Bytes) (sha : SHA1) : Prop where
  count : sha.count = UInt64.ofNat message.length
  length_buffer : sha.buffer.length = 64
  stream : absorb 64 compress ⟨Sha1.initial, []⟩ message =
    ⟨sha.state, sha.buffer.take (message.length % 64)⟩

namespace SHA1.Absorbed

variable {message : Bytes} {sha : SHA1}

theorem fresh : SHA1.Absorbed [] {} where
  count := rfl
  length_buffer := length_replicate
  stream := rfl

theorem count_mod (h : sha.Absorbed message) : (sha.count % 64).toNat = message.length % 64 := by
  rw [h.count, UInt64.toNat_mod, UInt64.toNat_ofNat']
  show message.length % 2 ^ 64 % 64 = message.length % 64
  omega

theorem update (h : sha.Absorbed message) (data : Bytes) :
    (sha.update data).Absorbed (message ++ data) := by
  obtain ⟨hcount, hbuffer, hstream⟩ := @updateLoop_spec data (message.length % 64)
    (Nat.mod_lt _ (by norm_num)) { sha with count := sha.count + UInt64.ofNat _ }
    h.length_buffer
  rw [SHA1.update, h.count_mod]
  constructor
  · rw [hcount, h.count, length_append, UInt64.ofNat_add]
  · exact hbuffer
  · rw [absorb_append, h.stream, hstream, Nat.mod_add_mod, length_append]

theorem foldl_update (h : sha.Absorbed message) (pieces : List Bytes) :
    (pieces.foldl SHA1.update sha).Absorbed (message ++ pieces.flatten) := by
  induction pieces generalizing sha message with
  | nil =>
    rw [flatten_nil, append_nil]
    exact h
  | cons piece pieces ih =>
    rw [flatten_cons, ← append_assoc]
    exact ih (h.update _)

theorem count_mod_ne_iff (h : sha.Absorbed message) :
    sha.count % 64 ≠ 56 ↔ message.length % 64 ≠ 56 := by
  rw [ne_eq, ← UInt64.toNat_inj, h.count_mod]
  rfl

theorem padZeros (h : sha.Absorbed message) {fuel count : ℕ}
    (hcount : (120 - message.length % 64) % 64 = count) (hfuel : count ≤ fuel) :
    (SHA1.padZeros fuel sha).Absorbed (message ++ List.replicate count 0) := by
  induction fuel generalizing sha message count with
  | zero =>
    obtain rfl : count = 0 := Nat.le_zero.mp hfuel
    rw [replicate_zero, append_nil]
    exact h
  | succ fuel ih =>
    rw [SHA1.padZeros]
    by_cases hmore : message.length % 64 ≠ 56
    · obtain ⟨rest, rfl⟩ : ∃ rest, count = rest + 1 := ⟨count - 1, by omega⟩
      have hlength : (message ++ [0]).length = message.length + 1 := by
        rw [length_append, length_singleton]
      have hnext := h.update [0]
      rw [if_pos (h.count_mod_ne_iff.mpr hmore), replicate_succ, ← singleton_append, ← append_assoc]
      exact ih hnext (by omega) (by omega)
    · obtain rfl : count = 0 := by omega
      rw [if_neg (mt h.count_mod_ne_iff.mp hmore), replicate_zero, append_nil]
      exact h

end SHA1.Absorbed

/-! ## The digest -/

theorem lengthBytes_eq (count : ℕ) (bits : UInt64) :
    SHA1.lengthBytes count bits = ofBigEndian count bits.toNat := by
  induction count generalizing bits with
  | zero => rfl
  | succ count ih =>
    have hrest : (bits >>> 8).toNat = bits.toNat / 256 := by
      exact Nat.shiftRight_eq_div_pow _ 8
    have hlow : (bits &&& 0xFF).toUInt8 = UInt8.ofNat bits.toNat := by
      apply UInt8.toNat_inj.mp
      show (bits.toNat &&& (2 ^ 8 - 1)) % 2 ^ 8 = bits.toNat % 2 ^ 8
      rw [Nat.and_two_pow_sub_one_eq_mod, Nat.mod_mod]
    rw [SHA1.lengthBytes, ofBigEndian, ih, hrest, hlow]

theorem wordBytes_eq (word : UInt32) :
    [(word >>> 24).toUInt8, (word >>> 16).toUInt8, (word >>> 8).toUInt8, word.toUInt8] =
      ofBigEndian 4 word.toNat := by
  have hbyte (n : ℕ) (shift : UInt32) (hshift : shift.toNat % 32 = n) :
      (word >>> shift).toUInt8 = UInt8.ofNat (word.toNat / 2 ^ n) := by
    apply UInt8.toNat_inj.mp
    rw [UInt32.toNat_toUInt8, UInt32.toNat_shiftRight, UInt8.toNat_ofNat', hshift,
      Nat.shiftRight_eq_div_pow]
  have hlast : word.toUInt8 = UInt8.ofNat word.toNat := by
    apply UInt8.toNat_inj.mp
    rw [UInt32.toNat_toUInt8, UInt8.toNat_ofNat']
  rw [hbyte 24 24 rfl, hbyte 16 16 rfl, hbyte 8 8 rfl, hlast]
  simp only [ofBigEndian, nil_append, cons_append, Nat.div_div_eq_div_mul]
  rfl

theorem SHA1.Absorbed.finalize {message : Bytes} {sha : SHA1} (h : sha.Absorbed message)
    (hlength : message.length < 2 ^ 61) : sha.finalize = sha1 message := by
  have hbits : (sha.count * 8).toNat = message.length * 8 := by
    rw [h.count, UInt64.toNat_mul, UInt64.toNat_ofNat']
    show message.length % 2 ^ 64 * 8 % 2 ^ 64 = message.length * 8
    omega
  have hmarked : (message ++ [0x80]).length = message.length + 1 := by
    rw [length_append, length_singleton]
  have hzeros : (120 - (message ++ [0x80]).length % 64) % 64 = zeros message.length := by
    rw [hmarked, zeros]
    omega
  have hfew : zeros message.length ≤ 64 := by
    omega
  have hpadded := ((h.update [0x80]).padZeros hzeros hfew).update
    (SHA1.lengthBytes 8 (sha.count * 8))
  have hmessage : message ++ [0x80] ++ List.replicate (zeros message.length) 0 ++
      SHA1.lengthBytes 8 (sha.count * 8) = message ++ padding message.length := by
    rw [lengthBytes_eq, hbits, padding]
    simp
  rw [hmessage] at hpadded
  have hstream := hpadded.stream
  rw [absorb_eq 64 _ (by norm_num)] at hstream
  have hstate := congrArg Stream.state hstream
  simp only at hstate
  rw [SHA1.finalize, sha1, digest, hstate]
  simp [wordBytes_eq]

example : ((({} : SHA1).update (ascii "ab")).update (ascii "c")).finalize =
    [0xA9, 0x99, 0x3E, 0x36, 0x47, 0x06, 0x81, 0x6A, 0xBA, 0x3E, 0x25, 0x71, 0x78, 0x50,
      0xC2, 0x6C, 0x9C, 0xD0, 0xD8, 0x9D] := by
  decide +kernel

/-! ## Base64 -/

theorem b64Table_eq : b64Table = Base64.alphabet := by decide +kernel

/-- Six bits of the 24 that three bytes make. -/
theorem sextet_eq (a b c : Byte) {n : UInt32}
    (hn : n.toNat = a.toNat * 65536 + b.toNat * 256 + c.toNat) :
    ((n >>> 18) &&& 0x3F).toNat = a.toNat / 4 ∧
      ((n >>> 12) &&& 0x3F).toNat = a.toNat % 4 * 16 + b.toNat / 16 ∧
      ((n >>> 6) &&& 0x3F).toNat = b.toNat % 16 * 4 + c.toNat / 64 ∧
      (n &&& 0x3F).toNat = c.toNat % 64 := by
  have ha := a.toNat_lt
  have hb := b.toNat_lt
  have hc := c.toNat_lt
  have hlow (x : UInt32) : (x &&& 0x3F).toNat = x.toNat % 64 := by
    exact Nat.and_two_pow_sub_one_eq_mod _ 6
  have hshift (shift : UInt32) (k : ℕ) (hk : shift.toNat % 32 = k) :
      (n >>> shift).toNat = n.toNat / 2 ^ k := by
    rw [UInt32.toNat_shiftRight, hk, Nat.shiftRight_eq_div_pow]
  rw [hlow, hlow, hlow, hlow, hshift 18 18 rfl, hshift 12 12 rfl, hshift 6 6 rfl, hn]
  omega

theorem triple_eq (a b c : Byte) :
    (a.toUInt32 <<< 16 ||| b.toUInt32 <<< 8 ||| c.toUInt32).toNat =
      a.toNat * 65536 + b.toNat * 256 + c.toNat := by
  have ha := a.toNat_lt
  have hb := b.toNat_lt
  have hc := c.toNat_lt
  have hzero : (0 : Byte).toUInt32 <<< 24 ||| a.toUInt32 <<< 16 = a.toUInt32 <<< 16 :=
    UInt32.zero_or
  have hvalue : toBigEndian [0, a, b, c] = a.toNat * 65536 + b.toNat * 256 + c.toNat := by
    simp only [toBigEndian, foldl_cons, foldl_nil, UInt8.toNat_zero]
    omega
  rw [← hzero, shifts_eq_word, hvalue, UInt32.toNat_ofNat', Nat.mod_eq_of_lt (by omega)]

theorem base64Encode_eq (data : Bytes) : base64Encode data = Base64.encode data := by
  induction data using base64Encode.induct with
  | case1 =>
    rw [base64Encode]
    rfl
  | case2 a rest ih =>
    rw [base64Encode, ih, b64Table_eq]
    match rest with
    | [] =>
      have hn := triple_eq a 0 0
      have hlast : a.toUInt32 <<< 16 ||| (0 : Byte).toUInt32 <<< 8 ||| (0 : Byte).toUInt32 =
          a.toUInt32 <<< 16 := by
        show a.toUInt32 <<< 16 ||| (0 : UInt32) ||| (0 : UInt32) = a.toUInt32 <<< 16
        rw [UInt32.or_zero, UInt32.or_zero]
      rw [hlast] at hn
      obtain ⟨h1, h2, -, -⟩ := sextet_eq a 0 0 hn
      rw [Base64.encode_one]
      simp [h1, h2, Base64.letter, Base64.encode, Base64.sextets]
    | [b] =>
      have hn := triple_eq a b 0
      have hlast : a.toUInt32 <<< 16 ||| b.toUInt32 <<< 8 ||| (0 : Byte).toUInt32 =
          a.toUInt32 <<< 16 ||| b.toUInt32 <<< 8 := UInt32.or_zero
      rw [hlast] at hn
      obtain ⟨h1, h2, h3, -⟩ := sextet_eq a b 0 hn
      rw [Base64.encode_two]
      simp [h1, h2, h3, Base64.letter, Base64.encode, Base64.sextets]
    | b :: c :: tail =>
      obtain ⟨h1, h2, h3, h4⟩ := sextet_eq a b c (triple_eq a b c)
      rw [Base64.encode_three]
      simp [h1, h2, h3, h4, Base64.letter]

/-! ## What the client reads -/

def acceptFields (accept : Bytes) : List Message.Field :=
  [(ascii "Upgrade", ascii "websocket"), (ascii "Connection", ascii "Upgrade"),
    (ascii "Sec-WebSocket-Accept", accept)]

theorem wsBuildUpgradeResponse_eq (secKey : Bytes) :
    wsBuildUpgradeResponse secKey =
      Message.writeMessage (ascii "HTTP/1.1 101 Switching Protocols")
        ((acceptFields (base64Encode (({} : SHA1).update secKey |>.update wsMagicGuid).finalize)).map
          Message.fieldLine) [] := by
  have hstart : ascii "HTTP/1.1 101 Switching Protocols\r\n" =
      ascii "HTTP/1.1 101 Switching Protocols" ++ Message.crlf := by decide
  have hupgrade : ascii "Upgrade: websocket\r\n" =
      ascii "Upgrade" ++ ascii ": " ++ ascii "websocket" ++ Message.crlf := by decide
  have hconnection : ascii "Connection: Upgrade\r\n" =
      ascii "Connection" ++ ascii ": " ++ ascii "Upgrade" ++ Message.crlf := by decide
  have haccept : ascii "Sec-WebSocket-Accept: " =
      ascii "Sec-WebSocket-Accept" ++ ascii ": " := by decide
  have hend : ascii "\r\n\r\n" = Message.crlf ++ Message.crlf := by decide
  rw [wsBuildUpgradeResponse, hstart, hupgrade, hconnection, haccept, hend, Message.writeMessage]
  simp [acceptFields, Message.fieldLine]

/-- The letters of the digest are read back as they are. -/
theorem encode_plain (data : Bytes) :
    Message.CrlfFree (Base64.encode data) ∧
      Message.trim (Base64.encode data) = Base64.encode data := by
  have hletters : ∀ b ∈ Base64.alphabet ++ [0x3D],
      b ≠ Message.cr ∧ b ≠ Message.lf ∧ Message.isOws b = false := by
    decide +kernel
  have hplain : ∀ b ∈ Base64.encode data,
      b ≠ Message.cr ∧ b ≠ Message.lf ∧ Message.isOws b = false :=
    fun b hb => hletters b (Base64.encode_subset _ hb)
  refine ⟨⟨?_, ?_⟩, Message.trim_of_forall fun b hb => (hplain b hb).2.2⟩
  · intro hcr
    exact (hplain _ hcr).1 rfl
  · intro hlf
    exact (hplain _ hlf).2.1 rfl

theorem readMessage_acceptFields (data : Bytes) :
    let fields := acceptFields (Base64.encode data)
    Message.readMessage (Message.writeMessage (ascii "HTTP/1.1 101 Switching Protocols")
        (fields.map Message.fieldLine) []) =
      some (ascii "HTTP/1.1 101 Switching Protocols", fields.map Message.fieldLine, []) ∧
      (fields.map Message.fieldLine).mapM Message.readField = some fields := by
  intro fields
  obtain ⟨hcrlf, htrim⟩ := encode_plain _
  have hfields : ∀ field ∈ fields, Message.Clean field := by
    intro field hmem
    simp only [fields, acceptFields, mem_cons, not_mem_nil, or_false] at hmem
    rcases hmem with rfl | rfl | rfl
    · exact ⟨by decide, by decide, by decide⟩
    · exact ⟨by decide, by decide, by decide⟩
    · exact Message.Clean.of_name (by decide) hcrlf
  have htrimmed : fields.map Message.trimmed = fields := by
    have hupgrade : Message.trim (ascii "websocket") = ascii "websocket" := by decide
    have hconnection : Message.trim (ascii "Upgrade") = ascii "Upgrade" := by decide
    simp [fields, acceptFields, Message.trimmed, hupgrade, hconnection, htrim]
  constructor
  · apply (Message.readMessage_write_iff _ _ _).mpr
    refine ⟨by decide, ?_⟩
    intro line hline
    obtain ⟨field, hfield, rfl⟩ := mem_map.mp hline
    have hclean := hfields _ hfield
    exact ⟨Message.crlfFree_fieldLine.mpr ⟨hclean.name, hclean.value⟩, Message.fieldLine_ne_nil _⟩
  · have hread := Message.mapM_readField fun field hfield => (hfields _ hfield).colonFree
    rw [htrimmed] at hread
    exact hread

/-- Pieces of a message are digested as the message, and the client reads the digest of its
key in base64. -/
theorem handshake_digest :
    (∀ pieces : List Bytes, pieces.flatten.length < 2 ^ 61 →
      (pieces.foldl SHA1.update {}).finalize = sha1 pieces.flatten) ∧
    (∀ data, base64Encode data = Base64.encode data) ∧
    ∀ secKey, (secKey ++ wsMagicGuid).length < 2 ^ 61 →
      ∃ lines, Message.readMessage (wsBuildUpgradeResponse secKey) =
          some (ascii "HTTP/1.1 101 Switching Protocols", lines, []) ∧
        lines.mapM Message.readField = some [
          (ascii "Upgrade", ascii "websocket"),
          (ascii "Connection", ascii "Upgrade"),
          (ascii "Sec-WebSocket-Accept", Base64.encode (sha1 (secKey ++ wsMagicGuid)))] := by
  refine ⟨?_, base64Encode_eq, ?_⟩
  · intro pieces hlength
    have hpieces := SHA1.Absorbed.fresh.foldl_update pieces
    exact hpieces.finalize hlength
  · intro secKey hlength
    have hkey := (SHA1.Absorbed.fresh.update secKey).update wsMagicGuid
    rw [wsBuildUpgradeResponse_eq, hkey.finalize hlength, base64Encode_eq]
    exact ⟨_, readMessage_acceptFields _⟩

theorem handshake_digest_abc :
    (({} : SHA1).update (ascii "ab") |>.update (ascii "c")).finalize = sha1 (ascii "abc") ∧
      base64Encode (ascii "abc") = Base64.encode (ascii "abc") ∧
      ∃ lines, Message.readMessage (wsBuildUpgradeResponse (ascii "dGhlIHNhbXBsZSBub25jZQ==")) =
          some (ascii "HTTP/1.1 101 Switching Protocols", lines, []) ∧
        lines.mapM Message.readField = some [
          (ascii "Upgrade", ascii "websocket"),
          (ascii "Connection", ascii "Upgrade"),
          (ascii "Sec-WebSocket-Accept",
            Base64.encode (sha1 (ascii "dGhlIHNhbXBsZSBub25jZQ==" ++ wsMagicGuid)))] :=
  ⟨handshake_digest.1 [ascii "ab", ascii "c"] (by decide), handshake_digest.2.1 _,
    handshake_digest.2.2 _ (by decide)⟩

end AstraApi.WebSocket
