import Zelr.Tls.Handshake

/-!
# Carrying data

`tls_send`, `tls_recv` and what comes between records of data: session tickets, which are skipped,
and key updates, which move the keys on.
-/

namespace Zelr.Tls

open Act

section Crypto

variable (K : Prims)

/-! ## Sending -/

def SEND_MAX : Nat := 8192

/-- The loop of `tls_send`; each turn sends at least a byte. -/
def sendLoop : Nat → Bytes → Act Session Unit
  | 0, _ => pure ()
  | left + 1, data =>
    if data = [] then pure ()
    else do
      sendEncrypted K REC_APPDATA (data.take SEND_MAX)
      sendLoop left (data.drop SEND_MAX)

def tlsSend (data : Bytes) : Act Session Unit := do
  let z ← get
  if z.opened then sendLoop K data.length data else stop

/-! ## After the handshake -/

def answerUpdate : Act Session Unit := do
  sendEncrypted K REC_HANDSHAKE [HS_KEY_UPDATE, 0, 0, 1, 0]
  let z ← get
  let next ← ofOption (K.hkdfExpandLabel z.cApp "traffic upd" [] 32)
  modify fun z => { z with cApp := next }
  setOurKeys K next

def keyUpdate (requested : Bool) : Act Session Unit := do
  let z ← get
  let next ← ofOption (K.hkdfExpandLabel z.sApp "traffic upd" [] 32)
  modify fun z => { z with sApp := next }
  setTheirKeys K next
  if requested then answerUpdate K else pure ()

def postMessage (m : Msg) : Act Session Unit := do
  let z ← get
  if m.type = HS_KEY_UPDATE ∧ z.v12 = false then
    refuseIf K (m.body.length != 1) "a key update is malformed" .decodeError
    refuseIf K (1 < byteAt m.body 0) "a key update asks for something that does not exist" .illegalParameter
    orRefuse K (keyUpdate K (byteAt m.body 0 != 0)) "a key update could not be carried out" .internalError
  else pure ()

/-- The loop of `post_handshake`; a message takes at least four bytes. -/
def postLoop : Nat → Act Session Unit
  | 0 => pure ()
  | left + 1 => do
    let z ← get
    let avail := z.hs.drop z.hsPos
    if 4 ≤ avail.length ∧ HS_MAX < be24 avail 1 then
      refuse K "a message after the handshake claims an impossible size" .decodeError
    else
      match hsWhole avail with
      | none => pure ()
      | some m => do
        postMessage K m
        modify fun z => { z with hsPos := z.hsPos + m.whole.length }
        postLoop left

def postHandshake (data : Bytes) : Act Session Unit := do
  let z ← get
  refuseIf K (HS_MAX < z.hs.length + data.length) "a message after the handshake is too big to hold"
    .internalError
  modify fun z => { z with hs := z.hs ++ data }
  postLoop K (z.hs.length + data.length)
  modify fun z => { z with hs := z.hs.drop z.hsPos, hsPos := 0 }

/-! ## Receiving -/

def handOver (cap len : Nat) : Act Session Bytes := do
  let z ← get
  let app := z.record.take len
  modify fun z => { z with app, appPos := min len cap }
  return app.take cap

/-- The loop of `recv_on`, bounded by what the transport has. -/
def recvLoop (cap : Nat) : Nat → Act Session Bytes
  | 0 => return []
  | left + 1 => do
    let r ← attempt (readRecord K true)
    let z ← get
    match r with
    | none => do
      modify fun z => { z with ended := true }
      return []
    | some none => return []
    | some (some (type, len)) =>
      if z.ended then return []
      else if type = REC_CHANGE_CIPHER then recvLoop cap left
      else if type = REC_HANDSHAKE then do
        let ok ← attempt (postHandshake K (z.record.take len))
        match ok with
        | none => do
          modify fun z => { z with ended := true }
          return []
        | some () => recvLoop cap left
      else if type ≠ REC_APPDATA ∨ len = 0 then recvLoop cap left
      else handOver cap len

/-- `tls_recv`: what it hands over, which is nothing when nothing came in time. -/
def tlsRecv (cap : Nat) : Act Session Bytes := do
  let z ← get
  if z.opened = false then return []
  else if z.appPos < z.app.length then do
    let out := (z.app.drop z.appPos).take cap
    modify fun z => { z with appPos := z.appPos + out.length }
    return out
  else if z.ended then return []
  else recvLoop K cap (netSize z.net + 1)

/-! ## Closing -/

def tlsAbandon : Act Session Unit := modify fun z => { z with
  opened := false, handshakeDone := false, ended := false, app := [], appPos := 0, hs := [], hsPos := 0,
  haveLen := 0 }

def sayClose (opened : Bool) : Act Session Unit :=
  if opened then do
    let _ ← attempt (sendEncrypted K REC_ALERT [1, 0])
  else pure ()

def tlsClose : Act Session Unit := do
  let z ← get
  sayClose K z.opened
  tlsAbandon

end Crypto

end Zelr.Tls
