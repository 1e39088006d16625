import Zelr.Base.Merkle

/-!
# SHA-1, SHA-256 and HMAC as their standards state them

FIPS 180-4 (functions, schedule, rounds, padding) and HMAC over either hash. No code is modelled here.
-/

namespace Zelr.Crypto.Fips

def ROTL (n x : UInt32) : UInt32 := (x <<< n) ||| (x >>> (32 - n))
def ROTR (n x : UInt32) : UInt32 := (x >>> n) ||| (x <<< (32 - n))
def SHR (n x : UInt32) : UInt32 := x >>> n

def Ch (x y z : UInt32) : UInt32 := (x &&& y) ^^^ (~~~x &&& z)
def Parity (x y z : UInt32) : UInt32 := x ^^^ y ^^^ z
def Maj (x y z : UInt32) : UInt32 := (x &&& y) ^^^ (x &&& z) ^^^ (y &&& z)

/-- Word `t` of a block, high byte first. -/
def M (block : Bytes) (t : Nat) : UInt32 := UInt32.ofNat (beNat ((block.drop (4 * t)).take 4))

/-! ## SHA-1 -/

structure Five where
  a : UInt32
  b : UInt32
  c : UInt32
  d : UInt32
  e : UInt32
  deriving DecidableEq

namespace Sha1

def f (t : Nat) : UInt32 → UInt32 → UInt32 → UInt32 :=
  if t < 20 then Ch else if t < 40 then Parity else if t < 60 then Maj else Parity

def K (t : Nat) : UInt32 :=
  if t < 20 then 0x5a827999 else if t < 40 then 0x6ed9eba1 else if t < 60 then 0x8f1bbcdc else 0xca62c1d6

def W (block : Bytes) (t : Nat) : UInt32 :=
  if t < 16 then M block t
  else ROTL 1 (W block (t - 3) ^^^ W block (t - 8) ^^^ W block (t - 14) ^^^ W block (t - 16))
  termination_by t
  decreasing_by all_goals omega

def round (block : Bytes) (v : Five) (t : Nat) : Five :=
  ⟨ROTL 5 v.a + f t v.b v.c v.d + v.e + K t + W block t, v.a, ROTL 30 v.b, v.c, v.d⟩

def compress (H : Five) (block : Bytes) : Five :=
  let v := (List.range 80).foldl (round block) H
  ⟨v.a + H.a, v.b + H.b, v.c + H.c, v.d + H.d, v.e + H.e⟩

def H0 : Five := ⟨0x67452301, 0xefcdab89, 0x98badcfe, 0x10325476, 0xc3d2e1f0⟩

end Sha1

def sha1 (m : Bytes) : Bytes :=
  let H := Merkle.hash Sha1.compress Sha1.H0 m
  [H.a, H.b, H.c, H.d, H.e].flatMap fun w => beBytes 4 w.toNat

/-! ## SHA-256 -/

structure Eight where
  a : UInt32
  b : UInt32
  c : UInt32
  d : UInt32
  e : UInt32
  f : UInt32
  g : UInt32
  h : UInt32
  deriving DecidableEq

namespace Sha256

def Sigma0 (x : UInt32) : UInt32 := ROTR 2 x ^^^ ROTR 13 x ^^^ ROTR 22 x
def Sigma1 (x : UInt32) : UInt32 := ROTR 6 x ^^^ ROTR 11 x ^^^ ROTR 25 x
def sigma0 (x : UInt32) : UInt32 := ROTR 7 x ^^^ ROTR 18 x ^^^ SHR 3 x
def sigma1 (x : UInt32) : UInt32 := ROTR 17 x ^^^ ROTR 19 x ^^^ SHR 10 x

def K : List UInt32 := [
  0x428a2f98, 0x71374491, 0xb5c0fbcf, 0xe9b5dba5, 0x3956c25b, 0x59f111f1, 0x923f82a4, 0xab1c5ed5,
  0xd807aa98, 0x12835b01, 0x243185be, 0x550c7dc3, 0x72be5d74, 0x80deb1fe, 0x9bdc06a7, 0xc19bf174,
  0xe49b69c1, 0xefbe4786, 0x0fc19dc6, 0x240ca1cc, 0x2de92c6f, 0x4a7484aa, 0x5cb0a9dc, 0x76f988da,
  0x983e5152, 0xa831c66d, 0xb00327c8, 0xbf597fc7, 0xc6e00bf3, 0xd5a79147, 0x06ca6351, 0x14292967,
  0x27b70a85, 0x2e1b2138, 0x4d2c6dfc, 0x53380d13, 0x650a7354, 0x766a0abb, 0x81c2c92e, 0x92722c85,
  0xa2bfe8a1, 0xa81a664b, 0xc24b8b70, 0xc76c51a3, 0xd192e819, 0xd6990624, 0xf40e3585, 0x106aa070,
  0x19a4c116, 0x1e376c08, 0x2748774c, 0x34b0bcb5, 0x391c0cb3, 0x4ed8aa4a, 0x5b9cca4f, 0x682e6ff3,
  0x748f82ee, 0x78a5636f, 0x84c87814, 0x8cc70208, 0x90befffa, 0xa4506ceb, 0xbef9a3f7, 0xc67178f2]

def W (block : Bytes) (t : Nat) : UInt32 :=
  if t < 16 then M block t
  else sigma1 (W block (t - 2)) + W block (t - 7) + sigma0 (W block (t - 15)) + W block (t - 16)
  termination_by t
  decreasing_by all_goals omega

def round (block : Bytes) (v : Eight) (t : Nat) : Eight :=
  let T1 := v.h + Sigma1 v.e + Ch v.e v.f v.g + K.getD t 0 + W block t
  let T2 := Sigma0 v.a + Maj v.a v.b v.c
  ⟨T1 + T2, v.a, v.b, v.c, v.d + T1, v.e, v.f, v.g⟩

def compress (H : Eight) (block : Bytes) : Eight :=
  let v := (List.range 64).foldl (round block) H
  ⟨v.a + H.a, v.b + H.b, v.c + H.c, v.d + H.d, v.e + H.e, v.f + H.f, v.g + H.g, v.h + H.h⟩

def H0 : Eight :=
  ⟨0x6a09e667, 0xbb67ae85, 0x3c6ef372, 0xa54ff53a, 0x510e527f, 0x9b05688c, 0x1f83d9ab, 0x5be0cd19⟩

end Sha256

def sha256 (m : Bytes) : Bytes :=
  let H := Merkle.hash Sha256.compress Sha256.H0 m
  [H.a, H.b, H.c, H.d, H.e, H.f, H.g, H.h].flatMap fun w => beBytes 4 w.toNat

/-! ## HMAC -/

def blockKey (hash : Bytes → Bytes) (key : Bytes) : Bytes :=
  let k := if key.length > Merkle.BLOCK then hash key else key
  k ++ List.replicate (Merkle.BLOCK - k.length) 0

def hmac (hash : Bytes → Bytes) (key text : Bytes) : Bytes :=
  let K0 := blockKey hash key
  hash (K0.map (· ^^^ 0x5c) ++ hash (K0.map (· ^^^ 0x36) ++ text))

end Zelr.Crypto.Fips
