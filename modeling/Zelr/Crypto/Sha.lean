import Zelr.Crypto.Fips

/-!
# The kernel's hashes

SHA-1 and its HMAC from `kernel/crypto.c`, SHA-256 and its HMAC from `kernel/sha256.c`.
-/

namespace Zelr.Crypto

open Fips (Five Eight)

def wordAt (p : Bytes) (i : Nat) : UInt32 :=
  (byteAt p (i * 4)).toUInt32 <<< 24 ||| (byteAt p (i * 4 + 1)).toUInt32 <<< 16 |||
    (byteAt p (i * 4 + 2)).toUInt32 <<< 8 ||| (byteAt p (i * 4 + 3)).toUInt32

def wordBytes (w : UInt32) : Bytes :=
  [(w >>> 24).toUInt8, (w >>> 16).toUInt8, (w >>> 8).toUInt8, w.toUInt8]

def lengthBytes (bits : UInt64) : Bytes :=
  (List.range 8).map fun i => (bits >>> (56 - UInt64.ofNat i * 8)).toUInt8

/-! ## SHA-1 -/

def SHA1_SIZE : Nat := 20

def rol (v n : UInt32) : UInt32 := (v <<< n) ||| (v >>> (32 - n))

def sha1Schedule (p : Bytes) : List UInt32 :=
  (List.range' 16 64).foldl (fun w i =>
      w ++ [rol (w.getD (i - 3) 0 ^^^ w.getD (i - 8) 0 ^^^ w.getD (i - 14) 0 ^^^ w.getD (i - 16) 0) 1])
    ((List.range 16).map (wordAt p))

def sha1Round (w : List UInt32) (v : Five) (i : Nat) : Five :=
  let (f, k) :=
    if i < 20 then ((v.b &&& v.c) ||| (~~~v.b &&& v.d), (0x5A827999 : UInt32))
    else if i < 40 then (v.b ^^^ v.c ^^^ v.d, 0x6ED9EBA1)
    else if i < 60 then ((v.b &&& v.c) ||| (v.b &&& v.d) ||| (v.c &&& v.d), 0x8F1BBCDC)
    else (v.b ^^^ v.c ^^^ v.d, 0xCA62C1D6)
  let t := rol v.a 5 + f + v.e + k + w.getD i 0
  ⟨t, v.a, rol v.b 30, v.c, v.d⟩

def sha1Block (s : Five) (p : Bytes) : Five :=
  let v := (List.range 80).foldl (sha1Round (sha1Schedule p)) s
  ⟨s.a + v.a, s.b + v.b, s.c + v.c, s.d + v.d, s.e + v.e⟩

abbrev Sha1 := Merkle.Running Five

def sha1Init : Sha1 := ⟨⟨0x67452301, 0xEFCDAB89, 0x98BADCFE, 0x10325476, 0xC3D2E1F0⟩, 0, []⟩

def sha1Update : Sha1 → Bytes → Sha1 := Merkle.update sha1Block

def sha1Final (s : Sha1) : Bytes :=
  let bits := s.bits
  let s := { sha1Update s [0x80] with bits := bits }
  let s := Merkle.zeros sha1Block (fun s => { s with bits := bits }) 64 s
  let s := sha1Update s (lengthBytes bits)
  [s.h.a, s.h.b, s.h.c, s.h.d, s.h.e].flatMap wordBytes

def sha1 (data : Bytes) : Bytes := sha1Final (sha1Update sha1Init data)

def keyBlock (k : Bytes) : Bytes := put (List.replicate 64 0) 0 k

def hmacSha1Vector (key : Bytes) (parts : List Bytes) : Bytes :=
  let k := keyBlock (if key.length > 64 then sha1 key else key)
  let s := sha1Update sha1Init (k.map (· ^^^ 0x36))
  let inner := sha1Final (parts.foldl sha1Update s)
  sha1Final (sha1Update (sha1Update sha1Init (k.map (· ^^^ 0x5C))) inner)

def hmacSha1 (key data : Bytes) : Bytes := hmacSha1Vector key [data]

/-! ## PBKDF2 -/

def pbkdf2Rounds (password : Bytes) : Nat → Bytes → Bytes → Bytes
  | 0, _, acc => acc
  | n + 1, u, acc =>
    let u := hmacSha1 password u
    pbkdf2Rounds password n u (acc.zipWith (· ^^^ ·) u)

/-- The blocks from one number on, until there are `out_len` bytes. -/
def pbkdf2From (password salt : Bytes) (iterations : Nat) : Nat → UInt32 → Nat → Bytes
  | 0, _, _ => []
  | n + 1, block, outLen =>
    if outLen = 0 then []
    else
      let u := hmacSha1Vector password [salt, wordBytes block]
      let acc := pbkdf2Rounds password (iterations - 1) u u
      let take := min outLen SHA1_SIZE
      acc.take take ++ pbkdf2From password salt iterations n (block + 1) (outLen - take)

def pbkdf2Sha1 (password salt : Bytes) (iterations outLen : Nat) : Bytes :=
  pbkdf2From (password.takeWhile (· ≠ 0)) salt iterations outLen 1 outLen

/-! ## SHA-256 -/

def SHA256_SIZE : Nat := 32

def SHA256_BLOCK : Nat := 64

def ror (x n : UInt32) : UInt32 := (x >>> n) ||| (x <<< (32 - n))

def K : List UInt32 := [
  0x428a2f98, 0x71374491, 0xb5c0fbcf, 0xe9b5dba5, 0x3956c25b, 0x59f111f1, 0x923f82a4, 0xab1c5ed5,
  0xd807aa98, 0x12835b01, 0x243185be, 0x550c7dc3, 0x72be5d74, 0x80deb1fe, 0x9bdc06a7, 0xc19bf174,
  0xe49b69c1, 0xefbe4786, 0x0fc19dc6, 0x240ca1cc, 0x2de92c6f, 0x4a7484aa, 0x5cb0a9dc, 0x76f988da,
  0x983e5152, 0xa831c66d, 0xb00327c8, 0xbf597fc7, 0xc6e00bf3, 0xd5a79147, 0x06ca6351, 0x14292967,
  0x27b70a85, 0x2e1b2138, 0x4d2c6dfc, 0x53380d13, 0x650a7354, 0x766a0abb, 0x81c2c92e, 0x92722c85,
  0xa2bfe8a1, 0xa81a664b, 0xc24b8b70, 0xc76c51a3, 0xd192e819, 0xd6990624, 0xf40e3585, 0x106aa070,
  0x19a4c116, 0x1e376c08, 0x2748774c, 0x34b0bcb5, 0x391c0cb3, 0x4ed8aa4a, 0x5b9cca4f, 0x682e6ff3,
  0x748f82ee, 0x78a5636f, 0x84c87814, 0x8cc70208, 0x90befffa, 0xa4506ceb, 0xbef9a3f7, 0xc67178f2]

def sha256Schedule (block : Bytes) : List UInt32 :=
  (List.range' 16 48).foldl (fun w i =>
      let s0 := ror (w.getD (i - 15) 0) 7 ^^^ ror (w.getD (i - 15) 0) 18 ^^^ (w.getD (i - 15) 0 >>> 3)
      let s1 := ror (w.getD (i - 2) 0) 17 ^^^ ror (w.getD (i - 2) 0) 19 ^^^ (w.getD (i - 2) 0 >>> 10)
      w ++ [w.getD (i - 16) 0 + s0 + w.getD (i - 7) 0 + s1])
    ((List.range 16).map (wordAt block))

def sha256Round (w : List UInt32) (v : Eight) (i : Nat) : Eight :=
  let S1 := ror v.e 6 ^^^ ror v.e 11 ^^^ ror v.e 25
  let ch := (v.e &&& v.f) ^^^ (~~~v.e &&& v.g)
  let t1 := v.h + S1 + ch + K.getD i 0 + w.getD i 0
  let S0 := ror v.a 2 ^^^ ror v.a 13 ^^^ ror v.a 22
  let maj := (v.a &&& v.b) ^^^ (v.a &&& v.c) ^^^ (v.b &&& v.c)
  let t2 := S0 + maj
  ⟨t1 + t2, v.a, v.b, v.c, v.d + t1, v.e, v.f, v.g⟩

def compress (s : Eight) (block : Bytes) : Eight :=
  let v := (List.range 64).foldl (sha256Round (sha256Schedule block)) s
  ⟨s.a + v.a, s.b + v.b, s.c + v.c, s.d + v.d, s.e + v.e, s.f + v.f, s.g + v.g, s.h + v.h⟩

abbrev Sha256 := Merkle.Running Eight

def sha256Init : Sha256 :=
  ⟨⟨0x6a09e667, 0xbb67ae85, 0x3c6ef372, 0xa54ff53a, 0x510e527f, 0x9b05688c, 0x1f83d9ab, 0x5be0cd19⟩, 0, []⟩

def sha256Update : Sha256 → Bytes → Sha256 := Merkle.update compress

/-- The length goes into the block with no update. -/
def sha256Final (s : Sha256) : Bytes :=
  let bits := s.bits
  let s := Merkle.zeros compress id 64 (sha256Update s [0x80])
  let h := compress s.h (s.buf ++ lengthBytes bits)
  [h.a, h.b, h.c, h.d, h.e, h.f, h.g, h.h].flatMap wordBytes

def sha256 (data : Bytes) : Bytes := sha256Final (sha256Update sha256Init data)

def hmacSha256 (key data : Bytes) : Bytes :=
  let k := keyBlock (if key.length > SHA256_BLOCK then sha256 key else key)
  let s := sha256Update sha256Init (k.map (· ^^^ 0x36))
  let inner := sha256Final (sha256Update s data)
  sha256Final (sha256Update (sha256Update sha256Init (k.map (· ^^^ 0x5c))) inner)

end Zelr.Crypto
