import Mathlib.Data.List.DropRight
import Zelr.Base.Bytes

/-!
# Strings of a protocol

A string is its bytes without the zero at its end.
-/

namespace Zelr.Web

def LF : UInt8 := 10
def CR : UInt8 := 13
def SPACE : UInt8 := 32
def HASH : UInt8 := 35
def DOT : UInt8 := 46
def SLASH : UInt8 := 47
def COLON : UInt8 := 58
def SEMICOLON : UInt8 := 59
def EQUALS : UInt8 := 61
def QUESTION : UInt8 := 63

def isDigit (c : UInt8) : Bool := 48 ≤ c ∧ c ≤ 57

def trimmed (s : Bytes) : Bytes := s.dropWhile (· = SPACE)

/-- As much of a string as a buffer of `cap` holds. -/
def wCopy (cap : Nat) (s : Bytes) : Bytes := s.take (cap - 1)

def wLower (c : UInt8) : UInt8 := if 65 ≤ c ∧ c ≤ 90 then c + 32 else c

def wSameFold : Bytes → Bytes → Bool
  | [], [] => true
  | a :: as, b :: bs => if wLower a = wLower b then wSameFold as bs else a = b
  | _, _ => false

def wStartsFold : Bytes → Bytes → Bool
  | _, [] => true
  | [], _ :: _ => false
  | c :: s, p :: pre => wLower c = wLower p && wStartsFold s pre

def folded (s : Bytes) : Bytes := s.map wLower

theorem wStartsFold_iff {s pre : Bytes} : wStartsFold s pre = true ↔ folded pre <+: folded s := by
  induction pre generalizing s with
  | nil => simp [wStartsFold, folded]
  | cons p pre ih =>
    cases s with
    | nil => simp [wStartsFold, folded]
    | cons c s =>
      rw [wStartsFold, Bool.and_eq_true, ih, decide_eq_true_iff]
      simp [folded, List.cons_prefix_cons, eq_comm]

/-!
## Addresses

`url_parse`, and `url_join`, which says where a link on a page points. An address is what a request needs of it:
what comes behind a `#` is left out.
-/

def URL_HOST : Nat := 128
def URL_PATH : Nat := 640

/-- `secure`: http, https, or a file of the machine's. -/
inductive Security
  | insecure
  | secure
  | file
  deriving DecidableEq

structure Url where
  host : Bytes
  /-- the path with the query behind it -/
  path : Bytes
  port : Int
  secure : Security
  deriving DecidableEq

/-- An `int`, which comes round past its end. -/
def int32 (n : Int) : Int := n.bmod (2 ^ 32)

def portDigits (s : Bytes) : Int :=
  if s.all isDigit then s.foldl (fun v c => int32 (v * 10 + (c.toNat - 48))) 0 else 0

def Security.port (s : Security) : Int := if s = .insecure then 80 else 443

def urlParse (s : Bytes) : Option Url :=
  let s := trimmed s
  if wStartsFold s (ascii "file://") then
    let s := s.drop 7
    let lead := if s.head? = some SLASH then [] else [SLASH]
    some { host := ascii "file", path := (lead ++ s.takeWhile (· ≠ HASH)).take (URL_PATH - 1), port := 0, secure := .file }
  else
    let scheme : Security :=
      if wStartsFold s (ascii "https://") then .secure
      else if wStartsFold s (ascii "http://") then .insecure
      else .secure
    let s :=
      if wStartsFold s (ascii "https://") then s.drop 8
      else if wStartsFold s (ascii "http://") then s.drop 7
      else if wStartsFold s (ascii "//") then s.drop 2
      else s
    let name := (s.takeWhile fun c => c ≠ SLASH ∧ c ≠ QUESTION ∧ c ≠ HASH).take (URL_HOST - 1)
    let s := s.dropWhile fun c => c ≠ SLASH ∧ c ≠ QUESTION ∧ c ≠ HASH
    if name = [] then none
    else
      let v := portDigits ((name.dropWhile (· ≠ COLON)).drop 1)
      let port := if COLON ∈ name ∧ 0 < v ∧ v < 65536 then v else scheme.port
      let lead := if s.head? = some SLASH ∨ s.head? = some QUESTION then [] else [SLASH]
      let path := (lead ++ s.takeWhile (· ≠ HASH)).take (URL_PATH - 1)
      some { host := name.takeWhile (· ≠ COLON), path := if path = [] then [SLASH] else path, port, secure := scheme }

/-! ## Links -/

def uptoSlash (s : Bytes) : Bytes := s.rdropWhile (· ≠ SLASH)

def back (clean : Bytes) : Bytes := (uptoSlash clean).dropLast

/-- The loop that folds away `.` and `..`, with how many characters it is past already. -/
def cleaned : Nat → Bytes → Bytes → Bytes
  | _, clean, [] => clean
  | skip + 1, clean, _ :: s => cleaned skip clean s
  | 0, clean, c :: s =>
    if c = SLASH ∧ byteAt s 0 = DOT ∧ byteAt s 1 = SLASH then cleaned 1 clean s
    else if c = SLASH ∧ byteAt s 0 = DOT ∧ byteAt s 1 = DOT ∧ (byteAt s 2 = SLASH ∨ byteAt s 2 = 0) then
      if byteAt s 2 = 0 then back clean ++ [SLASH] else cleaned 2 (back clean) s
    else cleaned 0 (if clean.length < URL_PATH - 1 then clean ++ [c] else clean) s

def joinPath (path href : Bytes) : Bytes :=
  let joined := (uptoSlash path).take (URL_PATH - 1)
  let joined := (joined ++ href.takeWhile (· ≠ HASH)).take (URL_PATH - 1)
  let clean := cleaned 0 [] joined
  wCopy URL_PATH (if clean = [] then [SLASH] else clean)

def urlJoin (base : Url) (href : Bytes) : Option Url :=
  let href := trimmed href
  if href = [] ∨ href.head? = some HASH then some base
  else if wStartsFold href (ascii "http://") ∨ wStartsFold href (ascii "https://") then urlParse href
  else if wStartsFold href (ascii "file:") then if base.secure = .file then urlParse href else none
  else if wStartsFold href (ascii "//") then
    let stated := COLON ∈ (href.drop 2).takeWhile fun c => c ≠ SLASH ∧ c ≠ QUESTION
    (urlParse href).map fun out =>
      -- the scheme of the page, and the port it implies when none is written
      let scheme := if base.secure = .file then .secure else base.secure
      { out with secure := scheme, port := if stated then out.port else scheme.port }
  else if COLON ∈ (href.takeWhile (· ≠ SLASH)).take 12 then none
  else if href.head? = some SLASH then
    some { base with path := (href.takeWhile (· ≠ HASH)).take (URL_PATH - 1) }
  else some { base with path := joinPath base.path href }

end Zelr.Web
