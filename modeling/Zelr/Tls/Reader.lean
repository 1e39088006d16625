import Zelr.Tls.Data

/-!
# Reading a stream of records

What a stream of bytes from the server says to a session, with no transport in between: the
receiving half of a session (`Reader`) takes one whole record after another.
-/

namespace Zelr.Tls

structure Reader where
  v12 : Bool
  sSealed : Bool
  ccsOk : Bool
  sGcm : Bytes
  sIv : Bytes
  sSeq : UInt64
  sApp : Bytes
  cApp : Bytes
  hs : Bytes
  hsPos : Nat
  deriving Repr, DecidableEq

def Session.reader (z : Session) : Reader :=
  ⟨z.v12, z.sSealed, z.ccsOk, z.sGcm, z.sIv, z.sSeq, z.sApp, z.cApp, z.hs, z.hsPos⟩

inductive Outcome
  | nothing
  | data (b : Bytes)
  | over
  deriving Repr, DecidableEq

namespace Reader

section Records

variable (K : Prims)

/-! ## Opening a record -/

def open12 (r : Reader) (type : UInt8) (body : Bytes) : Option (UInt8 × Bytes × Reader) :=
  let n := body.length - 8 - GCM_TAG
  if body.length < 8 + GCM_TAG then none
  else
    match K.gcmOpen r.sGcm (r.sIv.take 4 ++ body.take 8) (aad12 r.sSeq type n)
        ((body.drop 8).take n) ((body.drop (8 + n)).take GCM_TAG) with
    | none => none
    | some plain =>
      if type = REC_ALERT then none else some (type, plain, { r with sSeq := r.sSeq + 1 })

def open13 (r : Reader) (head body : Bytes) : Option (UInt8 × Bytes × Reader) :=
  let n := body.length - GCM_TAG
  if body.length < GCM_TAG + 1 then none
  else
    match K.gcmOpen r.sGcm (nonceFor r.sIv r.sSeq) head (body.take n) ((body.drop n).take GCM_TAG) with
    | none => none
    | some plain =>
      let inner := unpad plain
      if inner = [] ∨ inner.getLastD 0 = REC_ALERT then none
      else some (inner.getLastD 0, plain.take (inner.length - 1), { r with sSeq := r.sSeq + 1 })

def openRecord (r : Reader) (head body : Bytes) : Option (UInt8 × Bytes × Reader) :=
  let type := byteAt head 0
  if type = REC_CHANGE_CIPHER then
    if r.v12 then
      if !r.ccsOk || r.sSealed || body.length != 1 || byteAt body 0 != 1 then none
      else some (REC_CHANGE_CIPHER, [], { r with sSealed := true })
    else some (REC_CHANGE_CIPHER, [], r)
  else if r.v12 && !r.sSealed then
    if type = REC_ALERT then none else some (type, body, r)
  else if r.v12 then r.open12 K type body
  else r.open13 K head body

/-! ## Messages after the handshake -/

def keysFrom (secret : Bytes) : Option (Bytes × Bytes) := do
  let key ← K.hkdfExpandLabel secret "key" [] 16
  let iv ← K.hkdfExpandLabel secret "iv" [] 12
  return (key, iv)

def update (r : Reader) (requested : Bool) : Option Reader := do
  let sApp ← K.hkdfExpandLabel r.sApp "traffic upd" [] 32
  let (sGcm, sIv) ← keysFrom K sApp
  let r := { r with sApp, sGcm, sIv, sSeq := 0 }
  if requested then
    let cApp ← K.hkdfExpandLabel r.cApp "traffic upd" [] 32
    let _ ← keysFrom K cApp
    return { r with cApp }
  else return r

def message (r : Reader) (m : Msg) : Option Reader :=
  if m.type = HS_KEY_UPDATE ∧ r.v12 = false then
    if m.body.length != 1 || 1 < byteAt m.body 0 then none else r.update K (byteAt m.body 0 != 0)
  else some r

def messages : Nat → Reader → Option Reader
  | 0, r => some r
  | left + 1, r =>
    let avail := r.hs.drop r.hsPos
    if 4 ≤ avail.length ∧ HS_MAX < be24 avail 1 then none
    else
      match hsWhole avail with
      | none => some r
      | some m =>
        match r.message K m with
        | none => none
        | some r => messages left { r with hsPos := r.hsPos + m.whole.length }

def post (r : Reader) (data : Bytes) : Option Reader :=
  if HS_MAX < r.hs.length + data.length then none
  else
    (messages K (r.hs.length + data.length) { r with hs := r.hs ++ data }).map fun r =>
      { r with hs := r.hs.drop r.hsPos, hsPos := 0 }

/-! ## A whole stream -/

def take (r : Reader) (type : UInt8) (data : Bytes) : Outcome × Reader :=
  if type = REC_CHANGE_CIPHER then (.nothing, r)
  else if type = REC_HANDSHAKE then
    match r.post K data with
    | none => (.over, r)
    | some r => (.nothing, r)
  else if type ≠ REC_APPDATA ∨ data = [] then (.nothing, r)
  else (.data data, r)

def feed (r : Reader) (head body : Bytes) : Outcome × Reader :=
  match r.openRecord K head body with
  | none => (.over, r)
  | some (type, data, r) => r.take K type data

/-- One record after another, as far as whole ones go; the first argument bounds their number. -/
def read (closed : Bool) : Nat → Reader → Bytes → Bytes × Bool
  | 0, _, _ => ([], closed)
  | left + 1, r, s =>
    let n := recLen s
    if s.length < 5 then ([], closed)
    else if n = 0 ∨ REC_MAX < n then ([], true)
    else if s.length < 5 + n then ([], closed)
    else
      match r.feed K (s.take 5) ((s.drop 5).take n) with
      | (.over, _) => ([], true)
      | (.nothing, r) => read closed left r (s.drop (5 + n))
      | (.data b, r) =>
        let later := read closed left r (s.drop (5 + n))
        (b ++ later.1, later.2)

def all (closed : Bool) (r : Reader) (s : Bytes) : Bytes × Bool := read K closed (s.length + 1) r s

end Records

variable {K : Prims} {closed : Bool}

variable {r : Reader} {head rest : Bytes}

theorem read_fuel {left left' : Nat} {s : Bytes} (h : s.length < left)
    (h' : s.length < left') : read K closed left r s = read K closed left' r s := by
  induction left generalizing left' r s with
  | zero => omega
  | succ left ih =>
    obtain ⟨left', rfl⟩ : ∃ k, left' = k + 1 := ⟨left' - 1, by omega⟩
    have hrest : ∀ r', 5 ≤ s.length → read K closed left r' (s.drop (5 + recLen s)) =
        read K closed left' r' (s.drop (5 + recLen s)) := by
      intro r' h5
      refine ih ?_ ?_ <;> rw [List.length_drop] <;> omega
    unfold read
    dsimp only
    by_cases h5 : s.length < 5
    · rw [if_pos h5, if_pos h5]
    · simp only [hrest _ (by omega)]

theorem recLen_append (hhead : head.length = 5) : recLen (head ++ rest) = recLen head := by
  unfold recLen byteAt
  simp only [List.getD_eq_getElem?_getD]
  rw [List.getElem?_append_left (by omega), List.getElem?_append_left (by omega)]

theorem all_short {s : Bytes} (h : s.length < 5) : all K closed r s = ([], closed) := by
  unfold all read
  simp only [h, if_true]

theorem all_bad (hhead : head.length = 5)
    (h : recLen head = 0 ∨ REC_MAX < recLen head) : all K closed r (head ++ rest) = ([], true) := by
  unfold all read
  dsimp only
  rw [recLen_append hhead, if_neg (by simp [hhead]), if_pos h]

theorem all_partial (hhead : head.length = 5)
    (h : ¬ (recLen head = 0 ∨ REC_MAX < recLen head)) (hrest : rest.length < recLen head) :
    all K closed r (head ++ rest) = ([], closed) := by
  unfold all read
  dsimp only
  rw [recLen_append hhead, if_neg (by simp [hhead]), if_neg h,
    if_pos (by rw [List.length_append]; omega)]

theorem all_record (closed : Bool) (r : Reader) {body : Bytes} (rest : Bytes) (hhead : head.length = 5)
    (h : ¬ (recLen head = 0 ∨ REC_MAX < recLen head)) (hbody : body.length = recLen head) :
    all K closed r (head ++ body ++ rest) =
      match r.feed K head body with
      | (.over, _) => ([], true)
      | (.nothing, r) => all K closed r rest
      | (.data b, r) => (b ++ (all K closed r rest).1, (all K closed r rest).2) := by
  have hdrop : (head ++ body ++ rest).drop (5 + recLen head) = rest := by
    rw [← hbody, ← hhead, ← List.length_append, List.drop_left]
  have htake : (head ++ body ++ rest).take 5 = head := by
    rw [List.append_assoc, ← hhead, List.take_left]
  have hmid : ((head ++ body ++ rest).drop 5).take (recLen head) = body := by
    rw [List.append_assoc, ← hhead, List.drop_left, ← hbody, List.take_left]
  have hfuel : ∀ r', read K closed (head ++ body ++ rest).length r' rest = all K closed r' rest :=
    fun r' => read_fuel (by simp [hhead]; omega) (by omega)
  conv_lhs => unfold all read
  dsimp only
  rw [List.append_assoc, recLen_append hhead, ← List.append_assoc, if_neg (by simp [hhead]), if_neg h,
    if_neg (by simp [hhead, hbody]), htake, hmid, hdrop]
  simp only [hfuel]

end Reader

end Zelr.Tls
