import TieredStore.Lib.Bytes

/-!
# SHA-256 and HMAC

The hash function on byte strings, and the keyed hash over it. Words are natural numbers below
`2 ^ 32`.
-/

namespace TieredStore.Lib.Sha256

def word (x : Nat) : Nat := x % 2 ^ 32

def rotr (x n : Nat) : Nat := word (x >>> n ||| x <<< (32 - n))

def constants : List Nat := [
  0x428a2f98, 0x71374491, 0xb5c0fbcf, 0xe9b5dba5, 0x3956c25b, 0x59f111f1, 0x923f82a4, 0xab1c5ed5,
  0xd807aa98, 0x12835b01, 0x243185be, 0x550c7dc3, 0x72be5d74, 0x80deb1fe, 0x9bdc06a7, 0xc19bf174,
  0xe49b69c1, 0xefbe4786, 0x0fc19dc6, 0x240ca1cc, 0x2de92c6f, 0x4a7484aa, 0x5cb0a9dc, 0x76f988da,
  0x983e5152, 0xa831c66d, 0xb00327c8, 0xbf597fc7, 0xc6e00bf3, 0xd5a79147, 0x06ca6351, 0x14292967,
  0x27b70a85, 0x2e1b2138, 0x4d2c6dfc, 0x53380d13, 0x650a7354, 0x766a0abb, 0x81c2c92e, 0x92722c85,
  0xa2bfe8a1, 0xa81a664b, 0xc24b8b70, 0xc76c51a3, 0xd192e819, 0xd6990624, 0xf40e3585, 0x106aa070,
  0x19a4c116, 0x1e376c08, 0x2748774c, 0x34b0bcb5, 0x391c0cb3, 0x4ed8aa4a, 0x5b9cca4f, 0x682e6ff3,
  0x748f82ee, 0x78a5636f, 0x84c87814, 0x8cc70208, 0x90befffa, 0xa4506ceb, 0xbef9a3f7, 0xc67178f2]

structure Hash where
  a : Nat
  b : Nat
  c : Nat
  d : Nat
  e : Nat
  f : Nat
  g : Nat
  h : Nat

def initial : Hash :=
  ⟨0x6a09e667, 0xbb67ae85, 0x3c6ef372, 0xa54ff53a, 0x510e527f, 0x9b05688c, 0x1f83d9ab, 0x5be0cd19⟩

/-- The words of a block, the last one first, and more of them. -/
def expand : Nat → List Nat → List Nat
  | 0, ws => ws
  | n + 1, ws =>
    let w2 := ws.getD 1 0
    let w15 := ws.getD 14 0
    let s0 := rotr w15 7 ^^^ rotr w15 18 ^^^ (w15 >>> 3)
    let s1 := rotr w2 17 ^^^ rotr w2 19 ^^^ (w2 >>> 10)
    expand n (word (s1 + ws.getD 6 0 + s0 + ws.getD 15 0) :: ws)

def round (s : Hash) (kw : Nat × Nat) : Hash :=
  let s1 := rotr s.e 6 ^^^ rotr s.e 11 ^^^ rotr s.e 25
  let ch := (s.e &&& s.f) ^^^ ((2 ^ 32 - 1 - s.e) &&& s.g)
  let t1 := s.h + s1 + ch + kw.1 + kw.2
  let s0 := rotr s.a 2 ^^^ rotr s.a 13 ^^^ rotr s.a 22
  let maj := (s.a &&& s.b) ^^^ (s.a &&& s.c) ^^^ (s.b &&& s.c)
  ⟨word (t1 + s0 + maj), s.a, s.b, s.c, word (s.d + t1), s.e, s.f, s.g⟩

def compress (s : Hash) (block : List Nat) : Hash :=
  let t := (constants.zip (expand 48 block.reverse).reverse).foldl round s
  ⟨word (s.a + t.a), word (s.b + t.b), word (s.c + t.c), word (s.d + t.d), word (s.e + t.e),
    word (s.f + t.f), word (s.g + t.g), word (s.h + t.h)⟩

/-- The `n` bytes of a number, the highest first. -/
def bytesOf (n x : Nat) : GoString :=
  (List.range n).map fun i => UInt8.ofNat (x >>> (8 * (n - 1 - i)) % 256)

def wordsOf : GoString → List Nat
  | a :: b :: c :: d :: rest =>
    (((a.toNat * 256 + b.toNat) * 256 + c.toNat) * 256 + d.toNat) :: wordsOf rest
  | _ => []

/-- The message with the bit behind it, zeros and its length: whole blocks of 64 bytes. -/
def pad (x : GoString) : GoString :=
  x ++ 128 :: List.replicate ((119 - x.length % 64) % 64) 0 ++ bytesOf 8 (8 * x.length)

def sum256 (x : GoString) : GoString :=
  let s := ((wordsOf (pad x)).toChunks 16).foldl compress initial
  [s.a, s.b, s.c, s.d, s.e, s.f, s.g, s.h].flatMap (bytesOf 4)

def hmac (key x : GoString) : GoString :=
  let key := if 64 < key.length then sum256 key else key
  let block := key ++ List.replicate (64 - key.length) 0
  sum256 (block.map (· ^^^ 0x5c) ++ sum256 (block.map (· ^^^ 0x36) ++ x))

theorem sum256_ne_nil (x : GoString) : sum256 x ≠ [] := by
  unfold sum256
  simp [bytesOf]

example : sum256 (lit "abc") = bytesOf 32
    0xba7816bf8f01cfea414140de5dae2223b00361a396177a9cb410ff61f20015ad := by decide +kernel

end TieredStore.Lib.Sha256
