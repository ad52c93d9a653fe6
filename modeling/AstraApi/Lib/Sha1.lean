import AstraApi.Lib.BlockStream
import AstraApi.Lib.Bytes

/-!
# SHA-1

The hash function of FIPS 180-4 on byte strings.
-/

namespace AstraApi.Sha1

open Bytes BlockStream

abbrev Word := UInt32

/-! ## Functions and constants -/

def rotl (n : Word) (x : Word) : Word := (x <<< n) ||| (x >>> (32 - n))

def ch (x y z : Word) : Word := (x &&& y) ^^^ (~~~x &&& z)

def parity (x y z : Word) : Word := x ^^^ y ^^^ z

def maj (x y z : Word) : Word := (x &&& y) ^^^ (x &&& z) ^^^ (y &&& z)

def f (t : ℕ) : Word → Word → Word → Word :=
  if t < 20 then ch else if t < 40 then parity else if t < 60 then maj else parity

def k (t : ℕ) : Word :=
  if t < 20 then 0x5A827999 else if t < 40 then 0x6ED9EBA1
  else if t < 60 then 0x8F1BBCDC else 0xCA62C1D6

/-- Five words: the hash value, or the working variables. -/
@[ext]
structure Registers where
  a : Word
  b : Word
  c : Word
  d : Word
  e : Word
  deriving DecidableEq

def initial : Registers where
  a := 0x67452301
  b := 0xEFCDAB89
  c := 0x98BADCFE
  d := 0x10325476
  e := 0xC3D2E1F0

/-! ## Blocks -/

/-- Word `t` of a block, most significant byte first. -/
def blockWord (block : Bytes) (t : ℕ) : Word :=
  UInt32.ofNat (toBigEndian ((block.drop (t * 4)).take 4))

def schedule (block : Bytes) (t : ℕ) : Word :=
  if t < 16 then blockWord block t
  else
    rotl 1 (schedule block (t - 3) ^^^ schedule block (t - 8) ^^^ schedule block (t - 14) ^^^
      schedule block (t - 16))
termination_by t

def advance (w : ℕ → Word) (r : Registers) (t : ℕ) : Registers where
  a := rotl 5 r.a + f t r.b r.c r.d + r.e + k t + w t
  b := r.a
  c := rotl 30 r.b
  d := r.c
  e := r.d

def compress (h : Registers) (block : Bytes) : Registers :=
  let r := (List.range 80).foldl (advance (schedule block)) h
  ⟨h.a + r.a, h.b + r.b, h.c + r.c, h.d + r.d, h.e + r.e⟩

/-! ## Messages -/

/-- The number of zero bytes in the padding. -/
def zeros (length : ℕ) : ℕ := (119 - length % 64) % 64

/-- The bit "1", the bits "0" and the length in bits. -/
def padding (length : ℕ) : Bytes :=
  0x80 :: List.replicate (zeros length) 0 ++ ofBigEndian 8 (length * 8)

def digest (h : Registers) : Bytes :=
  [h.a, h.b, h.c, h.d, h.e].flatMap fun word => ofBigEndian 4 word.toNat

def sha1 (message : Bytes) : Bytes :=
  let padded := message ++ padding message.length
  digest (absorbBlocks 64 compress (padded.length / 64) initial padded)

end AstraApi.Sha1
