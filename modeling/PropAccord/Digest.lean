import PropAccord.Text.Utf8

/-!
# Digests

The digest of a text is the SHA-256 of its UTF-8 bytes, in lower-case hexadecimal.
-/

namespace PropAccord.Digest

set_option autoImplicit false

/-- The first thirty-two bits of the fractional parts of the cube roots of the first 64 primes. -/
def roundConstants : List UInt32 := [
  0x428a2f98, 0x71374491, 0xb5c0fbcf, 0xe9b5dba5, 0x3956c25b, 0x59f111f1, 0x923f82a4, 0xab1c5ed5,
  0xd807aa98, 0x12835b01, 0x243185be, 0x550c7dc3, 0x72be5d74, 0x80deb1fe, 0x9bdc06a7, 0xc19bf174,
  0xe49b69c1, 0xefbe4786, 0x0fc19dc6, 0x240ca1cc, 0x2de92c6f, 0x4a7484aa, 0x5cb0a9dc, 0x76f988da,
  0x983e5152, 0xa831c66d, 0xb00327c8, 0xbf597fc7, 0xc6e00bf3, 0xd5a79147, 0x06ca6351, 0x14292967,
  0x27b70a85, 0x2e1b2138, 0x4d2c6dfc, 0x53380d13, 0x650a7354, 0x766a0abb, 0x81c2c92e, 0x92722c85,
  0xa2bfe8a1, 0xa81a664b, 0xc24b8b70, 0xc76c51a3, 0xd192e819, 0xd6990624, 0xf40e3585, 0x106aa070,
  0x19a4c116, 0x1e376c08, 0x2748774c, 0x34b0bcb5, 0x391c0cb3, 0x4ed8aa4a, 0x5b9cca4f, 0x682e6ff3,
  0x748f82ee, 0x78a5636f, 0x84c87814, 0x8cc70208, 0x90befffa, 0xa4506ceb, 0xbef9a3f7, 0xc67178f2]

structure Chain where
  a : UInt32
  b : UInt32
  c : UInt32
  d : UInt32
  e : UInt32
  f : UInt32
  g : UInt32
  h : UInt32

/-- The first thirty-two bits of the fractional parts of the square roots of the first 8 primes. -/
def Chain.initial : Chain :=
  ⟨0x6a09e667, 0xbb67ae85, 0x3c6ef372, 0xa54ff53a, 0x510e527f, 0x9b05688c, 0x1f83d9ab, 0x5be0cd19⟩

def Chain.words (s : Chain) : List UInt32 := [s.a, s.b, s.c, s.d, s.e, s.f, s.g, s.h]

def rotate (n : UInt32) (w : UInt32) : UInt32 := (w >>> n) ||| (w <<< (32 - n))

def Chain.round (s : Chain) (constant word : UInt32) : Chain :=
  let s1 := rotate 6 s.e ^^^ rotate 11 s.e ^^^ rotate 25 s.e
  let choice := (s.e &&& s.f) ^^^ ((s.e ^^^ 0xFFFFFFFF) &&& s.g)
  let t1 := s.h + s1 + choice + constant + word
  let s0 := rotate 2 s.a ^^^ rotate 13 s.a ^^^ rotate 22 s.a
  let majority := (s.a &&& s.b) ^^^ (s.a &&& s.c) ^^^ (s.b &&& s.c)
  ⟨t1 + (s0 + majority), s.a, s.b, s.c, s.d + t1, s.e, s.f, s.g⟩

def Chain.add (s t : Chain) : Chain :=
  ⟨s.a + t.a, s.b + t.b, s.c + t.c, s.d + t.d, s.e + t.e, s.f + t.f, s.g + t.g, s.h + t.h⟩

def nextWord (window : List UInt32) : UInt32 :=
  let word (i : Nat) : UInt32 := window.getD i 0
  let s0 := rotate 7 (word 1) ^^^ rotate 18 (word 1) ^^^ (word 1 >>> 3)
  let s1 := rotate 17 (word 14) ^^^ rotate 19 (word 14) ^^^ (word 14 >>> 10)
  word 0 + s0 + word 9 + s1

/-- A window of sixteen words followed by `count` more. -/
def schedule : (count : Nat) → (window : List UInt32) → List UInt32
  | 0, window => window
  | count + 1, window =>
    window.take 1 ++ schedule count (window.drop 1 ++ [nextWord window])

def Chain.compress (s : Chain) (block : List UInt32) : Chain :=
  s.add ((roundConstants.zip (schedule 48 block)).foldl (fun t (k, w) => t.round k w) s)

/-- The words of a run of bytes, four bytes to a word with the highest first. -/
def wordsOf : Bytes → List UInt32
  | a :: b :: c :: d :: rest =>
    ((a.toUInt32 <<< 24) ||| (b.toUInt32 <<< 16) ||| (c.toUInt32 <<< 8) ||| d.toUInt32) ::
      wordsOf rest
  | _ => []

/-- The message followed by its end mark, zeros and its length in bits. -/
def pad (message : Bytes) : Bytes :=
  let size := message.length
  let zeros := (119 - size % 64) % 64
  let bits := 8 * size
  let count : Bytes := (List.range 8).map fun i => UInt8.ofNat (Nat.shiftRight bits (8 * (7 - i)))
  message ++ 0x80 :: List.replicate zeros 0 ++ count

def Chain.absorb (s : Chain) : (count : Nat) → (words : List UInt32) → Chain
  | 0, _ => s
  | count + 1, words => (s.compress (words.take 16)).absorb count (words.drop 16)

/-- SHA-256 of a message in hexadecimal. -/
def ofBytes (message : Bytes) : Text :=
  let words := wordsOf (pad message)
  (Chain.initial.absorb (words.length / 16) words).words.flatMap fun w => Text.hex 8 w.toNat

def ofText (t : Text) : Text := ofBytes (Utf8.encode t)

end PropAccord.Digest
