import Zelr.Base.Segments
import Zelr.Web.Url

/-!
# Cookies

The jar: `ck_take_line`, by which a server or a page's script puts one in, and `ck_cookies_for`, which writes out those
that go with a request or that a script may see.
-/

namespace Zelr.Web

open Segments

def CK_MAX : Nat := 64
def CK_NAME : Nat := 96
def CK_VALUE : Nat := 768
def CK_DOMAIN : Nat := URL_HOST
def CK_PATH : Nat := 160

structure Cookie where
  name : Bytes
  value : Bytes
  domain : Bytes
  path : Bytes
  secure : Bool
  /-- sent to the server, never shown to a script -/
  httponly : Bool
  used : Bool
  deriving DecidableEq

def noCookie : Cookie :=
  { name := [], value := [], domain := [], path := [], secure := false, httponly := false, used := false }

abbrev Jar := List Cookie

/-! ## Where a cookie belongs -/

def ckDomainOk (host domain : Bytes) : Bool :=
  domain ≠ [] && domain.length ≤ host.length &&
    folded (host.drop (host.length - domain.length)) = folded domain &&
    (domain.length = host.length || byteAt host (host.length - domain.length - 1) = DOT)

def ckPathOk (path cpath : Bytes) : Bool :=
  cpath = [] || cpath = [SLASH] ||
    cpath.isPrefixOf path &&
      (path.length = cpath.length || (path.drop cpath.length).head? = some SLASH || cpath.getLast? = some SLASH)

def ckSame (k : Cookie) (name domain path : Bytes) : Bool := k.name = name && k.domain = domain && k.path = path

/-! ## A line -/

def rtrimmed (s : Bytes) : Bytes := s.rdropWhile (· = SPACE)

/-- What the attributes of a line have come to. -/
structure Attributes where
  domain : Bytes
  path : Bytes
  secure : Bool
  httponly : Bool
  drop : Bool

def in1970 : Bytes → Bool
  | [] => false
  | c :: s => (ascii "1970").isPrefixOf (c :: s) || in1970 s

def ckAttribute (host : Bytes) (a : Attributes) (key val : Bytes) : Attributes :=
  if wSameFold key (ascii "secure") then { a with secure := true }
  else if wSameFold key (ascii "httponly") then { a with httponly := true }
  else if wSameFold key (ascii "domain") then
    let d := if val.head? = some DOT then val.drop 1 else val
    -- a server may only widen a cookie to a domain it is inside
    if ckDomainOk host d then { a with domain := wCopy CK_DOMAIN d } else a
  else if wSameFold key (ascii "path") then
    if val.head? = some SLASH then { a with path := wCopy CK_PATH val } else a
  else if wSameFold key (ascii "max-age") then
    if val.head? = some 48 ∨ val.head? = some 45 then { a with drop := true } else a
  else if wSameFold key (ascii "expires") then
    if in1970 val then { a with drop := true } else a
  else a

def ckPiece (host : Bytes) (a : Attributes) (piece : Bytes) : Attributes :=
  let piece := trimmed piece
  ckAttribute host a ((piece.takeWhile (· ≠ EQUALS)).take 31) (((piece.dropWhile (· ≠ EQUALS)).drop 1).take 159)

def ckAttributes (u : Url) (pieces : List Bytes) : Attributes :=
  pieces.foldl (ckPiece u.host)
    { domain := wCopy CK_DOMAIN u.host, path := wCopy CK_PATH [SLASH], secure := false, httponly := false, drop := false }

def ckPut (c : Cookie) (drop fromScript : Bool) (jar : Jar) : Jar :=
  match jar.findIdx? fun k => k.used && ckSame k c.name c.domain c.path with
  | some i =>
    if fromScript ∧ ∃ k ∈ jar[i]?, k.httponly = true then jar
    else if drop then jar.modify i fun k => { k with used := false }
    else jar.modify i fun k => { k with value := c.value, secure := c.secure, httponly := c.httponly }
  | none =>
    match jar.findIdx? fun k => !k.used with
    | some i => if drop then jar else jar.set i c
    | none => jar

/-- One line, from the server, or written to `document.cookie` by a script. -/
def ckTakeLine (u : Url) (line : Bytes) (fromScript : Bool) (jar : Jar) : Jar :=
  let name := rtrimmed ((line.takeWhile fun c => c ≠ EQUALS ∧ c ≠ SEMICOLON).take (CK_NAME - 1))
  let rest := line.dropWhile fun c => c ≠ EQUALS ∧ c ≠ SEMICOLON
  if name = [] ∨ rest.head? ≠ some EQUALS then jar
  else
    let value := rtrimmed ((firstOf SEMICOLON (rest.drop 1)).take (CK_VALUE - 1))
    let a := ckAttributes u (moreOf SEMICOLON (rest.drop 1))
    -- a script may not write an HttpOnly cookie, nor a secure one from a page that did not arrive encrypted
    if fromScript ∧ (a.httponly ∨ a.secure ∧ u.secure = .insecure) then jar
    else
      ckPut { name, value, domain := a.domain, path := a.path, secure := a.secure, httponly := a.httponly, used := true }
        a.drop fromScript jar

/-! ## What is sent, and what a script is shown -/

def ckGoes (u : Url) (forScript : Bool) (k : Cookie) : Bool :=
  k.used && !(forScript && k.httponly) && !(k.secure && u.secure = .insecure) && ckDomainOk u.host k.domain &&
    ckPathOk u.path k.path

def ckWritten (out : Bytes) (k : Cookie) : Bytes :=
  (if out = [] then [] else out ++ [SEMICOLON, SPACE]) ++ k.name ++ EQUALS :: k.value

def ckNeed (k : Cookie) : Nat := k.name.length + k.value.length + 4

def ckLoop (u : Url) (cap : Nat) (forScript : Bool) : Bytes → Jar → Bytes
  | out, [] => out
  | out, k :: jar =>
    if ckGoes u forScript k then
      if cap ≤ out.length + ckNeed k then out else ckLoop u cap forScript (ckWritten out k) jar
    else ckLoop u cap forScript out jar

def ckCookiesFor (u : Url) (jar : Jar) (cap : Nat) (forScript : Bool) : Bytes := ckLoop u cap forScript [] jar

def ckHeader (u : Url) (jar : Jar) (cap : Nat) : Bytes := ckCookiesFor u jar cap false

end Zelr.Web
