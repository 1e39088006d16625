import Zelr.Web.Sock

/-!
# What a server sends

The bytes of a conforming server, as frames of messages in pieces with control frames anywhere between; and that a
frame is taken whole out of any bytes that begin with it.
-/

namespace Zelr.Web

/-! ## The server's frames -/

inductive Kind
  | text
  | binary
  deriving DecidableEq

def Kind.op : Kind → Nat
  | .text => 1
  | .binary => 2

def lengthBytes (n : Nat) : Bytes :=
  if n < 126 then [UInt8.ofNat n] else if n < 65536 then 126 :: beBytes 2 n else 127 :: beBytes 8 n

def firstByte (fin : Bool) (op : Nat) : UInt8 := UInt8.ofNat ((if fin then 0x80 else 0) + op)

def frameBytes (fin : Bool) (op : Nat) (payload : Bytes) : Bytes :=
  firstByte fin op :: lengthBytes payload.length ++ payload

def Sendable (kind : Kind) (data : Bytes) : Prop :=
  data.length ≤ WS_MESSAGE_MAX ∧ (kind = .text → ∃ chars : List Char, data = chars.flatMap String.utf8EncodeChar)

/-- The bytes of a server that may have begun a message, the messages it goes on to finish and the payloads of its pings.
It can stop between frames, and after a close anything may follow. -/
inductive Sends : Option (Kind × Bytes) → Bytes → List (Kind × Bytes) → List Bytes → Prop
  | stop {begun : Option (Kind × Bytes)} : Sends begun [] [] []
  | close {begun : Option (Kind × Bytes)} {payload after : Bytes} (hlen : payload.length ≠ 1 ∧ payload.length ≤ 125) :
      Sends begun (frameBytes true 8 payload ++ after) [] []
  | ping {begun : Option (Kind × Bytes)} {payload rest : Bytes} {ms : List (Kind × Bytes)} {ps : List Bytes}
      (hlen : payload.length ≤ 125) (hrest : Sends begun rest ms ps) :
      Sends begun (frameBytes true 9 payload ++ rest) ms (payload :: ps)
  | pong {begun : Option (Kind × Bytes)} {payload rest : Bytes} {ms : List (Kind × Bytes)} {ps : List Bytes}
      (hlen : payload.length ≤ 125) (hrest : Sends begun rest ms ps) :
      Sends begun (frameBytes true 10 payload ++ rest) ms ps
  | whole {kind : Kind} {data rest : Bytes} {ms : List (Kind × Bytes)} {ps : List Bytes} (hdata : Sendable kind data)
      (hrest : Sends none rest ms ps) : Sends none (frameBytes true kind.op data ++ rest) ((kind, data) :: ms) ps
  | begin {kind : Kind} {piece rest : Bytes} {ms : List (Kind × Bytes)} {ps : List Bytes}
      (hlen : piece.length ≤ WS_MESSAGE_MAX) (hrest : Sends (some (kind, piece)) rest ms ps) :
      Sends none (frameBytes false kind.op piece ++ rest) ms ps
  | more {kind : Kind} {data piece rest : Bytes} {ms : List (Kind × Bytes)} {ps : List Bytes}
      (hlen : (data ++ piece).length ≤ WS_MESSAGE_MAX) (hrest : Sends (some (kind, data ++ piece)) rest ms ps) :
      Sends (some (kind, data)) (frameBytes false 0 piece ++ rest) ms ps
  | last {kind : Kind} {data piece rest : Bytes} {ms : List (Kind × Bytes)} {ps : List Bytes}
      (hdata : Sendable kind (data ++ piece)) (hrest : Sends none rest ms ps) :
      Sends (some (kind, data)) (frameBytes true 0 piece ++ rest) ((kind, data ++ piece) :: ms) ps

/-! ## Reading the head of a frame -/

theorem firstByte_op : ∀ op < 16, ∀ fin : Bool, (firstByte fin op &&& 0x0F).toNat = op ∧ firstByte fin op &&& 0x70 = 0 ∧
    (decide (firstByte fin op &&& 0x80 ≠ 0)) = fin := by
  decide

theorem lengthBytes_length (n : Nat) : (lengthBytes n).length = if n < 126 then 1 else if n < 65536 then 3 else 9 := by
  unfold lengthBytes
  split
  · rfl
  · split
    · rw [List.length_cons, beBytes_length]
    · rw [List.length_cons, beBytes_length]

theorem frameBytes_length (fin : Bool) (op : Nat) (payload : Bytes) :
    (frameBytes fin op payload).length = 1 + (lengthBytes payload.length).length + payload.length := by
  rw [frameBytes, List.cons_append, List.length_cons, List.length_append]
  omega

theorem small_byte : ∀ n < 126, (UInt8.ofNat n &&& 0x7F).toNat = n ∧ UInt8.ofNat n &&& 0x80 = 0 := by decide

theorem lengthBytes_head (n : Nat) : ∃ b s, lengthBytes n = b :: s ∧ b &&& 0x80 = 0 ∧
    (b &&& 0x7F).toNat = if n < 126 then n else if n < 65536 then 126 else 127 := by
  unfold lengthBytes
  split
  · rename_i hn
    obtain ⟨hval, hmask⟩ := small_byte n hn
    exact ⟨_, _, rfl, hmask, hval⟩
  · split
    · exact ⟨_, _, rfl, by decide, by decide⟩
    · exact ⟨_, _, rfl, by decide, by decide⟩

theorem take_lengthBytes (x y : UInt8) (k n : Nat) (payload : Bytes) :
    ((x :: (y :: beBytes k n) ++ payload).drop 2).take k = beBytes k n :=
  List.take_left' (beBytes_length k n)

theorem frameLength_append {b c : Bytes} {r : Nat × Nat} (hlen : 2 ≤ b.length) (h : frameLength b = some r) :
    frameLength (b ++ c) = some r := by
  unfold frameLength at h ⊢
  rw [byteAt_append (show 1 < b.length by omega)]
  dsimp only at h ⊢
  split
  · rename_i h126
    rw [if_pos h126] at h
    obtain ⟨hfour, h⟩ := Option.ite_none_left_eq_some.mp h
    rw [if_neg (by rw [List.length_append]; omega), ← h, take_drop_append (by omega)]
  · rename_i h126
    rw [if_neg h126] at h
    split
    · rename_i h127
      rw [if_pos h127] at h
      obtain ⟨hten, h⟩ := Option.ite_none_left_eq_some.mp h
      rw [if_neg (by rw [List.length_append]; omega), ← h, take_drop_append (by omega)]
    · rename_i h127
      rw [if_neg h127] at h
      exact h

theorem frameLength_frame (fin : Bool) (op : Nat) {payload : Bytes} (hlen : payload.length ≤ WS_MESSAGE_MAX) :
    frameLength (frameBytes fin op payload) = some (payload.length, 1 + (lengthBytes payload.length).length) := by
  have hmax : WS_MESSAGE_MAX = 8388608 := by decide
  obtain ⟨b, s, hbytes, -, hkind⟩ := lengthBytes_head payload.length
  have hsecond : byteAt (frameBytes fin op payload) 1 = b := by
    rw [frameBytes, hbytes]
    rfl
  have htotal := frameBytes_length fin op payload
  have hwidth := lengthBytes_length payload.length
  unfold frameLength
  rw [hsecond, hkind, hwidth]
  dsimp only
  by_cases hsmall : payload.length < 126
  · simp only [if_pos hsmall] at hwidth ⊢
    rw [if_neg (by omega), if_neg (by omega)]
  · simp only [if_neg hsmall] at hwidth ⊢
    by_cases hmid : payload.length < 65536
    · simp only [if_pos hmid] at hwidth ⊢
      rw [if_pos trivial, if_neg (by omega), frameBytes, lengthBytes, if_neg hsmall, if_pos hmid]
      rw [take_lengthBytes, beNat_beBytes, Nat.mod_eq_of_lt (by omega)]
    · simp only [if_neg hmid] at hwidth ⊢
      rw [if_neg (by omega), if_pos trivial, if_neg (by omega), frameBytes, lengthBytes, if_neg hsmall, if_neg hmid]
      rw [take_lengthBytes, beNat_beBytes, Nat.mod_eq_of_lt (by omega)]

/-! ## The frames of the program -/

theorem masked_masked (mask data : Bytes) : masked mask (masked mask data) = data := by
  refine List.ext_getElem ?_ ?_
  · rw [masked, masked, List.length_mapIdx, List.length_mapIdx]
  · intro i _ _
    simp only [masked, List.getElem_mapIdx]
    rw [UInt8.xor_assoc, UInt8.xor_self, UInt8.xor_zero]

theorem masked_byte : ∀ n < 126, (UInt8.ofNat (0x80 + n) &&& 0x7F).toNat = n ∧ UInt8.ofNat (0x80 + n) &&& 0x80 ≠ 0 := by
  decide

theorem first_byte : ∀ op < 16, (UInt8.ofNat (0x80 + op) &&& 0x0F).toNat = op ∧ UInt8.ofNat (0x80 + op) &&& 0x80 ≠ 0 := by
  decide

/-- Of any frame that goes out the one header says that it is the last, of this kind, masked and how long,
and the mask behind the length gives the payload back. -/
theorem wsFrame_read (mask data : Bytes) (op : Nat) (hmask : mask.length = 4) (hop : op < 16) (hlen : data.length + 14 < 2 ^ 32) :
    ((byteAt (wsFrame mask op data) 0 &&& 0x0F).toNat = op ∧ byteAt (wsFrame mask op data) 0 &&& 0x80 ≠ 0 ∧
      byteAt (wsFrame mask op data) 1 &&& 0x80 ≠ 0) ∧
      ∃ at_, frameLength (wsFrame mask op data) = some (data.length, at_) ∧
        ((wsFrame mask op data).drop at_).take 4 = mask ∧ masked mask ((wsFrame mask op data).drop (at_ + 4)) = data := by
  obtain ⟨hkind, hfin⟩ := first_byte op hop
  have hparts : ∀ head rest : Bytes, (rest = head ++ (mask ++ masked mask data)) →
      (rest.drop head.length).take 4 = mask ∧ masked mask (rest.drop (head.length + 4)) = data := by
    rintro head _ rfl
    refine ⟨by rw [List.drop_left, ← hmask, List.take_left], ?_⟩
    rw [← List.drop_drop, List.drop_left, ← hmask, List.drop_left, masked_masked]
  unfold wsFrame
  dsimp only
  by_cases hsmall : data.length < 126
  · obtain ⟨hval, hbit⟩ := masked_byte _ hsmall
    rw [if_pos hsmall, List.append_assoc]
    refine ⟨⟨hkind, hfin, hbit⟩, 2, ?_, hparts [_, _] _ rfl⟩
    unfold frameLength
    rw [show byteAt _ 1 = UInt8.ofNat (0x80 + data.length) from rfl, hval]
    dsimp only
    rw [if_neg (by omega), if_neg (by omega)]
  · rw [if_neg hsmall]
    by_cases hmid : data.length < 65536
    · rw [if_pos hmid, List.append_assoc]
      refine ⟨⟨hkind, hfin, show (0xFE : UInt8) &&& 0x80 ≠ 0 by decide⟩, 4, ?_, hparts [_, _, _, _] _ rfl⟩
      have hnum : beNat [UInt8.ofNat (data.length / 256), UInt8.ofNat data.length] = data.length := by
        simp [beNat]
        omega
      unfold frameLength
      rw [show byteAt _ 1 = 0xFE from rfl, show ((0xFE : UInt8) &&& 0x7F).toNat = 126 from rfl]
      dsimp only
      rw [if_pos rfl, if_neg (by simp)]
      exact congrArg (fun n => some (n, 4)) hnum
    · rw [if_neg hmid, List.append_assoc]
      have hback := hparts (UInt8.ofNat (0x80 + op) :: (0xFF :: [0, 0, 0, 0] ++ beBytes 4 data.length)) _ rfl
      rw [List.length_cons, List.length_append, beBytes_length] at hback
      refine ⟨⟨hkind, hfin, show (0xFF : UInt8) &&& 0x80 ≠ 0 by decide⟩, 10, ?_, hback⟩
      have hnum : beNat (0 :: 0 :: 0 :: 0 :: beBytes 4 data.length) = data.length := by
        simp only [beNat_cons, beNat_beBytes, UInt8.toNat_zero, Nat.zero_mul, Nat.zero_add]
        omega
      unfold frameLength
      rw [show byteAt _ 1 = 0xFF from rfl, show ((0xFF : UInt8) &&& 0x7F).toNat = 127 from rfl]
      dsimp only
      rw [if_neg (by decide), if_pos rfl, if_neg (by simp [beBytes])]
      exact congrArg (fun n => some (n, 10)) hnum

/-- Two bytes of text. -/
theorem wsFrame_read_sample : masked [1, 2, 3, 4] ((wsFrame [1, 2, 3, 4] 1 (ascii "hi")).drop 6) = ascii "hi" := by
  obtain ⟨-, at_, hlen, -, hback⟩ := wsFrame_read [1, 2, 3, 4] (ascii "hi") 1 rfl (by decide) (by decide)
  obtain rfl : at_ = 2 := (Prod.mk.inj (Option.some.inj (hlen.symm.trans (by decide +kernel :
    frameLength (wsFrame [1, 2, 3, 4] 1 (ascii "hi")) = some (2, 2))))).2
  exact hback

/-! ## One frame taken -/

section take
variable {host : Host} {w : Wsock} {fin : Bool} {op : Nat} {payload b c rest more : Bytes}

/-- What `ws_pump` asks of a frame before it looks at what kind it is. -/
structure Fits (fin : Bool) (op : Nat) (payload : Bytes) : Prop where
  nibble : op < 16
  len : payload.length ≤ WS_MESSAGE_MAX
  control : op ≥ 8 → fin = true ∧ payload.length ≤ 125

theorem Fits.passes (h : Fits fin op payload) : ¬ (op ≥ 8 ∧ ((!fin) = true ∨ payload.length > 125)) := by
  rintro ⟨hop, hbad⟩
  obtain ⟨hfin, hlen⟩ := h.control hop
  rw [hfin] at hbad
  rcases hbad with hbad | hbad
  · cases hbad
  · omega

theorem frame_bytes (hlen : 2 ≤ b.length) (hframe : b ++ c = frameBytes fin op payload ++ more) :
    byteAt b 0 = firstByte fin op ∧ byteAt b 1 &&& 0x80 = 0 := by
  obtain ⟨x, s, hbytes, hmask, -⟩ := lengthBytes_head payload.length
  have hzero := byteAt_append (c := c) (show 0 < b.length by omega)
  have hone := byteAt_append (c := c) (show 1 < b.length by omega)
  rw [hframe, frameBytes, hbytes] at hzero hone
  refine ⟨hzero.symm, ?_⟩
  rw [← hone]
  exact hmask

theorem oneFrame_whole (h : Fits fin op payload) (hin : w.inBuf = frameBytes fin op payload ++ rest) :
    oneFrame host w = takeFrame host w fin op payload rest := by
  have htotal := frameBytes_length fin op payload
  have hwidth := lengthBytes_length payload.length
  have hlen : 2 ≤ (frameBytes fin op payload).length := by
    split at hwidth
    · omega
    · split at hwidth <;> omega
  have hin2 : 2 ≤ w.inBuf.length := by
    rw [hin, List.length_append]
    omega
  obtain ⟨hfirst, hmask⟩ := frame_bytes (c := []) hin2 (by rw [List.append_nil, hin])
  obtain ⟨hop, hreserved, hfin⟩ := firstByte_op op h.nibble fin
  have hread : frameLength w.inBuf = some (payload.length, 1 + (lengthBytes payload.length).length) := by
    rw [hin]
    exact frameLength_append hlen (frameLength_frame fin op h.len)
  have hsplit : w.inBuf = firstByte fin op :: lengthBytes payload.length ++ payload ++ rest := by
    rw [hin, frameBytes]
  have hhead : (firstByte fin op :: lengthBytes payload.length).length = 1 + (lengthBytes payload.length).length := by
    rw [List.length_cons, Nat.add_comm]
  have hpay : (w.inBuf.drop (1 + (lengthBytes payload.length).length)).take payload.length = payload := by
    rw [hsplit, List.append_assoc, ← hhead, List.drop_left, List.take_left]
  have hrest : w.inBuf.drop (1 + (lengthBytes payload.length).length + payload.length) = rest := by
    rw [hin, ← htotal, List.drop_left]
  unfold oneFrame
  dsimp only
  rw [if_neg (by omega), hfirst, hreserved, if_neg (fun hne => hne rfl), hmask, if_neg (fun hne => hne rfl), hread, hop, hfin]
  dsimp only
  rw [if_neg h.passes, if_neg (by have hmax := h.len; omega), if_neg, hpay, hrest]
  rw [hin, List.length_append, htotal]
  omega

theorem oneFrame_part (h : Fits fin op payload) (hin : w.inBuf ++ c = frameBytes fin op payload) (hc : c ≠ []) :
    oneFrame host w = .wait := by
  have htotal := frameBytes_length fin op payload
  have hpos := List.length_pos_iff.mpr hc
  have hlen := congrArg List.length hin
  rw [List.length_append] at hlen
  unfold oneFrame
  split
  · rfl
  · rename_i hshort
    have hframe : w.inBuf ++ c = frameBytes fin op payload ++ [] := by rw [List.append_nil, hin]
    obtain ⟨hfirst, hmask⟩ := frame_bytes (by omega) hframe
    obtain ⟨hop, hreserved, hfin⟩ := firstByte_op op h.nibble fin
    dsimp only
    rw [hfirst, hreserved, if_neg (fun hne => hne rfl), hmask, if_neg (fun hne => hne rfl), hop, hfin]
    cases hread : frameLength w.inBuf with
    | none => rfl
    | some r =>
      have hwhole := frameLength_append (c := c) (by omega) hread
      rw [hin, frameLength_frame fin op h.len] at hwhole
      cases hwhole
      dsimp only
      rw [if_neg h.passes, if_neg (by have hmax := h.len; omega), if_pos (by omega)]

end take

end Zelr.Web
