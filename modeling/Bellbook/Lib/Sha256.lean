import Mathlib.Data.List.Basic

/-!
# SHA-256

The hash function of FIPS 180-4, on lists of bytes. The eight chaining words and the sixteen words
of the message schedule are each packed into one natural number, first word highest, so that a
digest is computed by arithmetic alone and runs inside the kernel.
-/

namespace Bellbook

namespace Sha256

/-- Word `i` of a packed sequence, counted from the last. -/
def word (s i : Nat) : Nat := (s.shiftRight (.mul 32 i)).mod 4294967296

def rotr (x n : Nat) : Nat := (x.shiftRight n).lor ((x.shiftLeft (.sub 32 n)).mod 4294967296)

/-- The four functions Σ and σ: two rotations and either a third one or a shift. -/
def bigSigma (x a b c : Nat) : Nat := ((rotr x a).xor (rotr x b)).xor (rotr x c)

def smallSigma (x a b c : Nat) : Nat := ((rotr x a).xor (rotr x b)).xor (x.shiftRight c)

def ch (x y z : Nat) : Nat := (x.land y).xor ((x.xor 0xffffffff).land z)

def maj (x y z : Nat) : Nat := ((x.land y).xor (x.land z)).xor (y.land z)

/-- The round constants. -/
def roundConstants : List Nat :=
  [0x428a2f98, 0x71374491, 0xb5c0fbcf, 0xe9b5dba5, 0x3956c25b, 0x59f111f1, 0x923f82a4, 0xab1c5ed5,
    0xd807aa98, 0x12835b01, 0x243185be, 0x550c7dc3, 0x72be5d74, 0x80deb1fe, 0x9bdc06a7, 0xc19bf174,
    0xe49b69c1, 0xefbe4786, 0x0fc19dc6, 0x240ca1cc, 0x2de92c6f, 0x4a7484aa, 0x5cb0a9dc, 0x76f988da,
    0x983e5152, 0xa831c66d, 0xb00327c8, 0xbf597fc7, 0xc6e00bf3, 0xd5a79147, 0x06ca6351, 0x14292967,
    0x27b70a85, 0x2e1b2138, 0x4d2c6dfc, 0x53380d13, 0x650a7354, 0x766a0abb, 0x81c2c92e, 0x92722c85,
    0xa2bfe8a1, 0xa81a664b, 0xc24b8b70, 0xc76c51a3, 0xd192e819, 0xd6990624, 0xf40e3585, 0x106aa070,
    0x19a4c116, 0x1e376c08, 0x2748774c, 0x34b0bcb5, 0x391c0cb3, 0x4ed8aa4a, 0x5b9cca4f, 0x682e6ff3,
    0x748f82ee, 0x78a5636f, 0x84c87814, 0x8cc70208, 0x90befffa, 0xa4506ceb, 0xbef9a3f7, 0xc67178f2]

/-- The initial chaining words. -/
def initial : Nat := 0x6a09e667bb67ae853c6ef372a54ff53a510e527f9b05688c1f83d9ab5be0cd19

/-- One round on the working words `a … h`, with round constant `k` and schedule word `w`. -/
def round (s k w : Nat) : Nat :=
  let a := word s 7
  let d := word s 4
  let e := word s 3
  let t₁ := (((word s 0).add (bigSigma e 6 11 25)).add (ch e (word s 2) (word s 1))).add (k.add w)
  let t₂ := (bigSigma a 2 13 22).add (maj a (word s 6) (word s 5))
  -- all words move down one place; `d + t₁` and `t₁ + t₂` go in the places of `e` and `a`
  (((s.shiftRight 32).sub (d.shiftLeft 96)).add (((d.add t₁).mod 4294967296).shiftLeft 96)).add
    (((t₁.add t₂).mod 4294967296).shiftLeft 224)

/-- The schedule moves on by one word. -/
def nextWords (w : Nat) : Nat :=
  ((w.mod (.pow 2 480)).shiftLeft 32).add
    ((((word w 15).add (smallSigma (word w 14) 7 18 3)).add
      ((word w 6).add (smallSigma (word w 1) 17 19 10))).mod 4294967296)

def rounds : List Nat → Nat → Nat → Nat
  | [], s, _ => s
  | k :: ks, s, w => rounds ks (round s k (word w 15)) (nextWords w)

/-- Sums of the last `n` words of two sequences. -/
def addWords : Nat → Nat → Nat → Nat
  | 0, _, _ => 0
  | n + 1, x, y =>
    ((((word x n).add (word y n)).mod 4294967296).shiftLeft (.mul 32 n)).add (addWords n x y)

def compress (h block : Nat) : Nat := addWords 8 h (rounds roundConstants h block)

/-- The number with the given bytes, most significant first. -/
def packed (bytes : List UInt8) : Nat := bytes.foldl (fun acc b => (acc.mul 256).add b.toNat) 0

/-- The length of a message of `n` bytes, in bits and eight bytes long. -/
def lengthBytes (n : Nat) : List UInt8 :=
  (List.range 8).map fun i => UInt8.ofNat ((8 * n) >>> (8 * (7 - i)))

/-- The message, a one bit, zeros up to the last eight bytes of a block, and the length. -/
def padded (bytes : List UInt8) : List UInt8 :=
  bytes ++ 0x80 :: (List.replicate ((119 - bytes.length % 64) % 64) 0 ++ lengthBytes bytes.length)

def blocks : Nat → List UInt8 → Nat → Nat
  | 0, _, h => h
  | n + 1, bytes, h => blocks n (bytes.drop 64) (compress h (packed (bytes.take 64)))

/-- The digest of a byte string, as a 256-bit number. -/
def digest (bytes : List UInt8) : BitVec 256 :=
  let bytes := padded bytes
  BitVec.ofNat 256 (blocks (bytes.length / 64) bytes initial)

/-- The test vector of the standard: the digest of `abc`. -/
example : digest [97, 98, 99] =
    0xba7816bf8f01cfea414140de5dae2223b00361a396177a9cb410ff61f20015ad := by decide +kernel

end Sha256

end Bellbook
