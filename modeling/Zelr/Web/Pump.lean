import Zelr.Web.Frames

/-!
# What is received is what was sent

However the bytes of a conforming server are cut into reads, the messages that are reported are the server's, in
their order and of their kinds, and the pings are answered.
-/

namespace Zelr.Web

/-! ## UTF-8 -/

variable {n k : Nat} {x : UInt8}

theorem ofNat_toNat (h : n < 256) : (UInt8.ofNat n).toNat = n := by
  rw [UInt8.toNat_ofNat', Nat.mod_eq_of_lt h]

theorem le_ofNat (h : n < 256) : x ≤ UInt8.ofNat n ↔ x.toNat ≤ n := by
  rw [UInt8.le_iff_toNat_le, ofNat_toNat h]

theorem ofNat_le (h : n < 256) : UInt8.ofNat n ≤ x ↔ n ≤ x.toNat := by
  rw [UInt8.le_iff_toNat_le, ofNat_toNat h]

theorem ofNat_lt (h : n < 256) : UInt8.ofNat n < x ↔ n < x.toNat := by
  rw [UInt8.lt_iff_toNat_lt, ofNat_toNat h]

theorem ofNat_eq (h : n < 256) : UInt8.ofNat n = x ↔ n = x.toNat := by
  rw [← UInt8.toNat_inj, ofNat_toNat h]

theorem utf8Rest_cons {lo hi : UInt8} {s : Bytes} (h : n < 256) (hlo : lo.toNat ≤ n) (hhi : n ≤ hi.toNat) :
    utf8Rest (k + 1) lo hi (UInt8.ofNat n :: s) = utf8Rest k 0x80 0xBF s := by
  rw [utf8Rest, if_neg]
  rw [not_or]
  refine ⟨?_, ?_⟩
  · rw [ofNat_lt h]
    omega
  · rw [gt_iff_lt, UInt8.lt_iff_toNat_lt, ofNat_toNat h]
    omega

theorem wsUtf8Ok_lead {l u : UInt8} {s t : Bytes} (hlow : 0x80 ≤ n) (h : n < 256)
    (hlead : utf8Lead (UInt8.ofNat n) = some (k, l, u)) (hrest : utf8Rest k l u s = some t) :
    wsUtf8Ok (UInt8.ofNat n :: s) = wsUtf8Ok t := by
  have hnot : ¬ UInt8.ofNat n < 0x80 := by
    rw [ofNat_lt h]
    exact Nat.not_lt.mpr hlow
  rw [wsUtf8Ok, if_neg hnot, hlead]
  dsimp only
  split
  · rename_i hnone
    rw [hrest] at hnone
    cases hnone
  · rename_i heq
    rw [hrest] at heq
    cases heq
    rfl

theorem wsUtf8Ok_char (c : Char) (s : Bytes) : wsUtf8Ok (String.utf8EncodeChar c ++ s) = wsUtf8Ok s := by
  have hvalid : c.val.toNat < 0xD800 ∨ 0xDFFF < c.val.toNat ∧ c.val.toNat < 0x110000 := c.valid
  unfold String.utf8EncodeChar
  dsimp only
  generalize c.val.toNat = v at hvalid
  split
  · rename_i hv
    rw [List.cons_append, List.nil_append, wsUtf8Ok, if_pos]
    rw [ofNat_lt (by omega)]
    exact Nat.lt_succ_of_le hv
  · rename_i hv1
    split
    · rename_i hv
      rw [List.cons_append, List.cons_append, List.nil_append]
      refine wsUtf8Ok_lead (k := 1) (l := 0x80) (u := 0xBF) (by omega) (by omega) ?_ ?_
      · rw [utf8Lead, if_pos]
        rw [le_ofNat (by omega), ofNat_le (by omega)]
        change 194 ≤ _ ∧ _ ≤ 223
        omega
      · rw [utf8Rest_cons (by omega) (show 128 ≤ _ by omega) (show _ ≤ 191 by omega)]
        rfl
    · rename_i hv2
      split
      · rename_i hv
        rw [List.cons_append, List.cons_append, List.cons_append, List.nil_append]
        refine wsUtf8Ok_lead (k := 2) (l := if UInt8.ofNat (v / 4096 % 16 + 0xe0) = 0xE0 then 0xA0 else 0x80)
          (u := if UInt8.ofNat (v / 4096 % 16 + 0xe0) = 0xED then 0x9F else 0xBF) (by omega) (by omega) ?_ ?_
        · rw [utf8Lead, if_neg, if_pos]
          · rw [le_ofNat (by omega), ofNat_le (by omega)]
            change 224 ≤ _ ∧ _ ≤ 239
            omega
          · rw [le_ofNat (by omega), ofNat_le (by omega)]
            change ¬ (194 ≤ _ ∧ _ ≤ 223)
            omega
        · rw [utf8Rest_cons (by omega), utf8Rest_cons (by omega) (show 128 ≤ _ by omega) (show _ ≤ 191 by omega)]
          · rfl
          · split
            · rename_i heq
              rw [ofNat_eq (by omega)] at heq
              change _ = 224 at heq
              change 160 ≤ _
              omega
            · change 128 ≤ _
              omega
          · split
            · rename_i heq
              rw [ofNat_eq (by omega)] at heq
              change _ = 237 at heq
              change _ ≤ 159
              omega
            · change _ ≤ 191
              omega
      · rename_i hv3
        rw [List.cons_append, List.cons_append, List.cons_append, List.cons_append, List.nil_append]
        refine wsUtf8Ok_lead (k := 3) (l := if UInt8.ofNat (v / 262144 % 8 + 0xf0) = 0xF0 then 0x90 else 0x80)
          (u := if UInt8.ofNat (v / 262144 % 8 + 0xf0) = 0xF4 then 0x8F else 0xBF) (by omega) (by omega) ?_ ?_
        · rw [utf8Lead, if_neg, if_neg, if_pos]
          · rw [le_ofNat (by omega), ofNat_le (by omega)]
            change 240 ≤ _ ∧ _ ≤ 244
            omega
          · rw [le_ofNat (by omega), ofNat_le (by omega)]
            change ¬ (224 ≤ _ ∧ _ ≤ 239)
            omega
          · rw [le_ofNat (by omega), ofNat_le (by omega)]
            change ¬ (194 ≤ _ ∧ _ ≤ 223)
            omega
        · rw [utf8Rest_cons (by omega), utf8Rest_cons (by omega) (show 128 ≤ _ by omega) (show _ ≤ 191 by omega),
            utf8Rest_cons (by omega) (show 128 ≤ _ by omega) (show _ ≤ 191 by omega)]
          · rfl
          · split
            · rename_i heq
              rw [ofNat_eq (by omega)] at heq
              change _ = 240 at heq
              change 144 ≤ _
              omega
            · change 128 ≤ _
              omega
          · split
            · rename_i heq
              rw [ofNat_eq (by omega)] at heq
              change _ = 244 at heq
              change _ ≤ 143
              omega
            · change _ ≤ 191
              omega

theorem wsUtf8Ok_chars (chars : List Char) : wsUtf8Ok (chars.flatMap String.utf8EncodeChar) = true := by
  induction chars with
  | nil => rw [List.flatMap_nil, wsUtf8Ok]
  | cons c chars ih => rw [List.flatMap_cons, wsUtf8Ok_char, ih]

/-! ## Memory -/

def USER_HEAP : Nat := 0x28000000

theorem doubled_some {c need : Nat} (hneed : need ≤ 2 ^ 30) (hc : c ≤ 2 ^ 31) (henough : need ≤ c * 2 ^ k) :
    ∃ d, doubled (k + 1) c need = some d ∧ need ≤ d ∧ (d ≤ c ∨ d ≤ 2 * need) := by
  induction k generalizing c with
  | zero =>
    refine ⟨c, ?_, by omega, .inl le_rfl⟩
    rw [doubled, if_neg (by omega)]
  | succ k ih =>
    rw [doubled]
    by_cases hless : c < need
    · rw [if_pos hless, Nat.mod_eq_of_lt (by omega)]
      have hnext : need ≤ c * 2 * 2 ^ k := by rwa [Nat.mul_assoc, ← Nat.pow_succ']
      obtain ⟨d, hd, hle, hbound⟩ := ih (by omega) hnext
      exact ⟨d, hd, hle, .inr (by omega)⟩
    · exact ⟨c, if_neg hless, by omega, .inl le_rfl⟩

/-- A buffer was refused that is no more than twice what the largest message and `size` bytes more take. -/
def Refused (host : Host) (size : Nat) : Prop := ∃ c ≤ 2 * (2 ^ 24 + size), host.memory c = false

theorem Refused.mono {host : Host} {size size' : Nat} (h : Refused host size) (hle : size ≤ size') : Refused host size' := by
  obtain ⟨c, hc, hno⟩ := h
  exact ⟨c, by omega, hno⟩

theorem wsGrow_ends (need size : Nat) {host : Host} {cap : Nat} (hheap : ∀ c, host.memory c = true → c ≤ USER_HEAP)
    (hcap : cap ≤ USER_HEAP) (hneed : need ≤ 2 ^ 30) (hsize : need ≤ 2 ^ 24 + size) :
    (∃ c, wsGrow host cap need = .room c ∧ need ≤ c ∧ c ≤ USER_HEAP) ∨
      wsGrow host cap need = .full ∧ Refused host size := by
  have hheapSize : USER_HEAP ≤ 2 ^ 31 := by decide
  unfold wsGrow
  by_cases henough : need ≤ cap
  · exact .inl ⟨cap, if_pos henough, henough, hcap⟩
  · rw [if_neg henough]
    obtain ⟨d, hd, hle, hbound⟩ := doubled_some (k := 32) (c := if cap = 0 then 4096 else cap) hneed
      (by split <;> omega) (by split <;> omega)
    rw [hd]
    dsimp only
    cases hmem : host.memory d with
    | true => exact .inl ⟨d, if_pos rfl, hle, hheap d hmem⟩
    | false => exact .inr ⟨if_neg (by nofun), d, by split at hbound <;> omega, hmem⟩

/-! ## A turn of the pump -/

/-- The pongs for some pings, after `start` frames. -/
def pongs (host : Host) (start : Nat) (pings : List Bytes) : List Bytes :=
  pings.mapIdx fun i p => wsFrame (host.mask (start + i)) 10 p

/-- A connection between two turns, `w₀` when the run began, with what the server has begun and the pings that have
been answered. -/
structure Going (host : Host) (w₀ w : Wsock) (begun : Option (Kind × Bytes)) (done : List Bytes) : Prop where
  state : w.state = w₀.state
  sentClose : w.sentClose = w₀.sentClose
  sent : w.sent = w₀.sent ++ pongs host w₀.sent.length done
  begun : match begun with
    | none => w.msgOp = 0
    | some (kind, data) => w.msgOp = kind.op ∧ w.msg = data
  inCap : w.inCap ≤ USER_HEAP
  msgCap : w.msgCap ≤ USER_HEAP
  inLen : w.inBuf.length ≤ w.inCap

/-- What a close leaves: the pongs, and an answer unless a close had been sent. -/
structure Ended (host : Host) (w₀ w : Wsock) (done : List Bytes) : Prop where
  state : w.state = .closed
  sent : ∃ answer : List Bytes, answer.length ≤ (if w₀.sentClose then 0 else 1) ∧
    w.sent = w₀.sent ++ pongs host w₀.sent.length done ++ answer

/-- What a turn comes to, for a server that has `ms` and `ps` to go, with `more` to be read yet. -/
inductive Turns (host : Host) (w₀ w : Wsock) (done : List Bytes) (more : Bytes) (ms : List (Kind × Bytes))
    (ps : List Bytes) : Turn → Prop
  | wait : (more = [] → ms = [] ∧ ps = []) → Turns host w₀ w done more ms ps .wait
  | again {w' : Wsock} {begun : Option (Kind × Bytes)} {done' ps' : List Bytes} : w'.inBuf.length < w.inBuf.length →
      Going host w₀ w' begun done' → Sends begun (w'.inBuf ++ more) ms ps' → done ++ ps = done' ++ ps' →
      Turns host w₀ w done more ms ps (.again w')
  | message {w' : Wsock} {kind : Kind} {data : Bytes} {ms' : List (Kind × Bytes)} : ms = (kind, data) :: ms' →
      w'.inBuf.length < w.inBuf.length → Going host w₀ w' none done → Sends none (w'.inBuf ++ more) ms' ps →
      Turns host w₀ w done more ms ps (.happened (.message (kind = .binary) data) w')
  | close {w' : Wsock} {code : Nat} {reason : Bytes} : ms = [] → ps = [] → Ended host w₀ w' done →
      Turns host w₀ w done more ms ps (.happened (.close code true reason) w')
  | memory {w' : Wsock} : w'.state = .closed → Refused host 0 → Turns host w₀ w done more ms ps (.happened (.error outOfMemory) w')

section turn
variable {host : Host} {w₀ w : Wsock} {begun : Option (Kind × Bytes)} {done ps : List Bytes} {ms : List (Kind × Bytes)}
  {fin : Bool} {op : Nat} {payload rest more : Bytes} {kind : Kind} {data : Bytes}

theorem pongs_snoc (host : Host) (start : Nat) (done : List Bytes) (p : Bytes) :
    pongs host start (done ++ [p]) = pongs host start done ++ [wsFrame (host.mask (start + done.length)) 10 p] := by
  rw [pongs, pongs, List.mapIdx_append, List.mapIdx_cons, List.mapIdx_nil, Nat.zero_add]

theorem pongs_length (host : Host) (start : Nat) (done : List Bytes) : (pongs host start done).length = done.length :=
  List.length_mapIdx

theorem control_fits (hlt : op < 16) (hlen : payload.length ≤ 125) : Fits true op payload :=
  ⟨hlt, hlen.trans (by decide), fun _ => ⟨rfl, hlen⟩⟩

theorem data_fits (hop : op < 8) (hlen : payload.length ≤ WS_MESSAGE_MAX) : Fits fin op payload :=
  ⟨by omega, hlen, fun h => absurd h (by omega)⟩

theorem oneFrame_frame (h : Fits fin op payload) (hin : w.inBuf ++ more = frameBytes fin op payload ++ rest) :
    (oneFrame host w = .wait ∧ more ≠ []) ∨
      ∃ behind, w.inBuf = frameBytes fin op payload ++ behind ∧ behind ++ more = rest ∧
        oneFrame host w = takeFrame host w fin op payload behind := by
  rcases List.append_eq_append_iff.mp hin with ⟨c, hc, hmore⟩ | ⟨behind, hb, hmore⟩
  · by_cases hnil : c = []
    · subst hnil
      rw [List.append_nil] at hc
      refine .inr ⟨[], by rw [List.append_nil, hc], by rw [List.nil_append, hmore, List.nil_append], ?_⟩
      exact oneFrame_whole h (by rw [List.append_nil, hc])
    · refine .inl ⟨oneFrame_part h hc.symm hnil, ?_⟩
      rw [hmore]
      exact fun hboth => hnil (List.append_eq_nil_iff.mp hboth).1
  · exact .inr ⟨behind, hb, hmore.symm, oneFrame_whole h hb⟩

theorem dataFrame_piece (hgoing : Going host w₀ w begun done)
    (hop : op = 0 ∧ begun = some (kind, data) ∨ op = kind.op ∧ begun = none ∧ data = []) :
    dataFrame host w fin op payload rest = addPiece host { w with msgOp := kind.op, msg := data } fin payload rest := by
  have hkind : kind.op ≠ 0 := by cases kind <;> decide
  have hbegun := hgoing.begun
  unfold dataFrame
  rcases hop with ⟨rfl, rfl⟩ | ⟨rfl, rfl, rfl⟩
  · obtain ⟨hop, rfl⟩ := hbegun
    rw [if_neg (fun h => hkind (hop ▸ h.2)), if_neg (fun h => h.1 rfl), if_neg (not_not.mpr rfl), ← hop]
  · rw [if_neg (fun h => hkind h.1), if_neg (fun h => h.2 hbegun), if_pos hkind]

theorem wsFail_memory (host : Host) (w : Wsock) (code : Nat) :
    ∃ w', wsFail host w code outOfMemory = .happened (.error outOfMemory) w' ∧ w'.state = .closed := ⟨_, rfl, rfl⟩

theorem behind_length (hin : w.inBuf = frameBytes fin op payload ++ rest) : rest.length < w.inBuf.length := by
  have htotal := frameBytes_length fin op payload
  rw [hin, List.length_append]
  omega

theorem Kind.op_lt (kind : Kind) : kind.op < 8 := by cases kind <;> decide

theorem Sendable.utf8 (h : Sendable kind data) (hop : kind.op ≠ 2) : wsUtf8Ok data = true := by
  cases kind with
  | binary => exact absurd rfl hop
  | text =>
    obtain ⟨chars, rfl⟩ := h.2 rfl
    exact wsUtf8Ok_chars chars

/-- Part of a frame is waited for, and of a whole one it is enough to say what taking it comes to. -/
theorem turns_frame (h : Fits fin op payload) (hwire : w.inBuf ++ more = frameBytes fin op payload ++ rest)
    (htake : ∀ behind, w.inBuf = frameBytes fin op payload ++ behind → behind ++ more = rest →
      Turns host w₀ w done more ms ps (takeFrame host w fin op payload behind)) :
    Turns host w₀ w done more ms ps (oneFrame host w) := by
  rcases oneFrame_frame h hwire with ⟨hwait, hmore⟩ | ⟨behind, hin, hrest, heq⟩
  · rw [hwait]
    exact .wait fun hnil => absurd hnil hmore
  · rw [heq]
    exact htake behind hin hrest

variable (hheap : ∀ c, host.memory c = true → c ≤ USER_HEAP)
include hheap

theorem addPiece_turn (hcap : w.msgCap ≤ USER_HEAP)
    (hlen : (w.msg ++ payload).length ≤ WS_MESSAGE_MAX)
    (hdata : fin = true → w.msgOp ≠ 2 → wsUtf8Ok (w.msg ++ payload) = true) :
    ((∃ w', addPiece host w fin payload rest = .happened (.error outOfMemory) w' ∧ w'.state = .closed) ∧ Refused host 0) ∨
      ∃ cap ≤ USER_HEAP, addPiece host w fin payload rest =
        if fin then .happened (.message (w.msgOp = 2) (w.msg ++ payload))
          { w with msg := w.msg ++ payload, msgCap := cap, msgOp := 0, inBuf := rest }
        else .again { w with msg := w.msg ++ payload, msgCap := cap, inBuf := rest } := by
  have hmax : WS_MESSAGE_MAX + 1 ≤ 2 ^ 24 := by decide
  rw [List.length_append] at hlen
  unfold addPiece
  rw [if_neg (by omega)]
  have hneed : w.msg.length + payload.length + 1 ≤ 2 ^ 30 := by omega
  rcases wsGrow_ends _ 0 hheap hcap hneed (by omega) with ⟨cap, hgrow, -, hle⟩ | ⟨hgrow, hrefused⟩
  · refine .inr ⟨cap, hle, ?_⟩
    rw [hgrow]
    dsimp only
    cases fin with
    | false => rfl
    | true =>
      rw [if_pos rfl, if_pos rfl, if_neg]
      rw [Bool.and_eq_true, Bool.not_eq_true', Bool.not_eq_true']
      rintro ⟨hkind, hbad⟩
      rw [hdata rfl (of_decide_eq_false hkind)] at hbad
      cases hbad
  · rw [hgrow]
    exact .inl ⟨wsFail_memory host w 1009, hrefused⟩

theorem piece_turns (hgoing : Going host w₀ w begun done)
    (hop : op = 0 ∧ begun = some (kind, data) ∨ op = kind.op ∧ begun = none ∧ data = [])
    (hlen : (data ++ payload).length ≤ WS_MESSAGE_MAX) (hdata : fin = true → Sendable kind (data ++ payload))
    (hin : w.inBuf = frameBytes fin op payload ++ rest)
    (hlast : fin = true → ∃ ms', ms = (kind, data ++ payload) :: ms' ∧ Sends none (rest ++ more) ms' ps)
    (hpart : fin = false → Sends (some (kind, data ++ payload)) (rest ++ more) ms ps) :
    Turns host w₀ w done more ms ps (takeFrame host w fin op payload rest) := by
  have hkind : (decide (kind.op = 2)) = decide (kind = .binary) := by cases kind <;> rfl
  have hcases : op = 0 ∨ op = 1 ∨ op = 2 := by
    rcases hop with ⟨h, -⟩ | ⟨h, -⟩
    · exact .inl h
    · cases kind with
      | text => exact .inr (.inl h)
      | binary => exact .inr (.inr h)
  have hshort := behind_length hin
  have hcap := hshort.le.trans hgoing.inLen
  have htake : takeFrame host w fin op payload rest =
      addPiece host { w with msgOp := kind.op, msg := data } fin payload rest := by
    unfold takeFrame
    rw [if_neg (by omega), if_neg (by omega), if_neg (by omega), if_pos hcases, dataFrame_piece hgoing hop]
  rw [htake]
  rcases addPiece_turn (w := { w with msgOp := kind.op, msg := data }) hheap hgoing.msgCap hlen
    (fun hfin hne => (hdata hfin).utf8 hne) with ⟨⟨w', hmemory, hclosed⟩, hrefused⟩ | ⟨cap, hle, hadd⟩
  · rw [hmemory]
    exact .memory hclosed hrefused
  · rw [hadd]
    dsimp only
    cases fin with
    | true =>
      obtain ⟨ms', rfl, hnext⟩ := hlast rfl
      rw [if_pos rfl, hkind]
      exact .message rfl hshort ⟨hgoing.state, hgoing.sentClose, hgoing.sent, rfl, hgoing.inCap, hle, hcap⟩ hnext
    | false =>
      rw [if_neg (by decide)]
      refine .again hshort ?_ (hpart rfl) rfl
      exact ⟨hgoing.state, hgoing.sentClose, hgoing.sent, ⟨rfl, rfl⟩, hgoing.inCap, hle, hcap⟩

theorem oneFrame_turns (hgoing : Going host w₀ w begun done)
    (hsends : Sends begun (w.inBuf ++ more) ms ps) : Turns host w₀ w done more ms ps (oneFrame host w) := by
  generalize hwire : w.inBuf ++ more = wire at hsends
  cases hsends with
  | stop =>
    obtain ⟨hin, hmore⟩ := List.append_eq_nil_iff.mp hwire
    have hwait : oneFrame host w = .wait := by
      unfold oneFrame
      rw [hin, if_pos (by decide)]
    rw [hwait]
    exact .wait fun _ => ⟨rfl, rfl⟩
  | close hlen =>
    refine turns_frame (control_fits (by decide) hlen.2) hwire fun behind _ _ => ?_
    rw [takeFrame, if_neg (by decide), if_pos rfl, closeFrame, if_neg hlen.1]
    dsimp only
    refine .close rfl rfl ?_
    by_cases hsent : w.sentClose = true
    · rw [if_pos hsent]
      exact ⟨rfl, [], Nat.zero_le _, by rw [List.append_nil]; exact hgoing.sent⟩
    · rw [if_neg hsent]
      rw [hgoing.sentClose] at hsent
      exact ⟨rfl, [_], by rw [if_neg hsent]; rfl, congrArg (· ++ [_]) hgoing.sent⟩
  | ping hlen hnext =>
    rename_i payload _ _
    refine turns_frame (control_fits (by decide) hlen) hwire fun behind hin hrest => ?_
    rw [takeFrame, if_pos rfl]
    have hshort := behind_length hin
    have hgo : Going host w₀ { w.frame host 10 payload with inBuf := behind } begun (done ++ [payload]) := by
      refine ⟨hgoing.state, hgoing.sentClose, ?_, hgoing.begun, hgoing.inCap, hgoing.msgCap, hshort.le.trans hgoing.inLen⟩
      rw [pongs_snoc, ← pongs_length host w₀.sent.length done, ← List.length_append, ← List.append_assoc, ← hgoing.sent]
      rfl
    exact .again hshort hgo (hrest ▸ hnext) (by rw [List.append_assoc]; rfl)
  | pong hlen hnext =>
    refine turns_frame (control_fits (by decide) hlen) hwire fun behind hin hrest => ?_
    rw [takeFrame, if_neg (by decide), if_neg (by decide), if_pos rfl]
    have hshort := behind_length hin
    refine .again hshort ?_ (hrest ▸ hnext) rfl
    exact ⟨hgoing.state, hgoing.sentClose, hgoing.sent, hgoing.begun, hgoing.inCap, hgoing.msgCap,
      hshort.le.trans hgoing.inLen⟩
  | whole hdata hnext =>
    refine turns_frame (data_fits (Kind.op_lt _) hdata.1) hwire fun behind hin hrest => ?_
    exact piece_turns hheap hgoing (.inr ⟨rfl, rfl, rfl⟩) hdata.1 (fun _ => hdata) hin
      (fun _ => ⟨_, rfl, hrest ▸ hnext⟩) (fun hfin => by cases hfin)
  | begin hlen hnext =>
    refine turns_frame (data_fits (Kind.op_lt _) hlen) hwire fun behind hin hrest => ?_
    exact piece_turns hheap hgoing (.inr ⟨rfl, rfl, rfl⟩) hlen (fun hfin => by cases hfin) hin
      (fun hfin => by cases hfin) (fun _ => hrest ▸ hnext)
  | more hlen hnext =>
    have hpiece := List.length_append ▸ hlen
    refine turns_frame (data_fits (by decide) (by omega)) hwire fun behind hin hrest => ?_
    exact piece_turns hheap hgoing (.inl ⟨rfl, rfl⟩) hlen (fun hfin => by cases hfin) hin
      (fun hfin => by cases hfin) (fun _ => hrest ▸ hnext)
  | last hdata hnext =>
    have hpiece := List.length_append ▸ hdata.1
    refine turns_frame (data_fits (by decide) (by omega)) hwire fun behind hin hrest => ?_
    exact piece_turns hheap hgoing (.inl ⟨rfl, rfl⟩) hdata.1 (fun _ => hdata) hin
      (fun _ => ⟨_, rfl, hrest ▸ hnext⟩) (fun hfin => by cases hfin)

end turn

/-! ## A call -/

/-- What a call comes to, with `ms` and `ps` to go before it. -/
inductive Called (host : Host) (w₀ w : Wsock) (done : List Bytes) (more : Bytes) (ms : List (Kind × Bytes))
    (ps : List Bytes) : Event → Wsock → Prop
  | none {w' : Wsock} {begun : Option (Kind × Bytes)} {done' ps' : List Bytes} : w'.inBuf.length ≤ w.inBuf.length →
      Going host w₀ w' begun done' → Sends begun (w'.inBuf ++ more) ms ps' → done ++ ps = done' ++ ps' →
      (more = [] → ms = [] ∧ ps' = []) → Called host w₀ w done more ms ps .none w'
  | message {w' : Wsock} {kind : Kind} {data : Bytes} {ms' : List (Kind × Bytes)} {done' ps' : List Bytes} :
      w'.inBuf.length ≤ w.inBuf.length → ms = (kind, data) :: ms' → Going host w₀ w' none done' →
      Sends none (w'.inBuf ++ more) ms' ps' → done ++ ps = done' ++ ps' →
      Called host w₀ w done more ms ps (.message (kind = .binary) data) w'
  | close {w' : Wsock} {code : Nat} {clean : Bool} {reason : Bytes} : ms = [] → Ended host w₀ w' (done ++ ps) →
      Called host w₀ w done more ms ps (.close code clean reason) w'
  | memory {size : Nat} {w' : Wsock} : w'.state = .closed → size ≤ w.inBuf.length → Refused host size →
      Called host w₀ w done more ms ps (.error outOfMemory) w'

section call
variable {host : Host} {w₀ w w' : Wsock} {begun : Option (Kind × Bytes)} {done done' ps ps' : List Bytes}
  {ms : List (Kind × Bytes)} {more : Bytes} {e : Event}

theorem Called.after (h : Called host w₀ w' done' more ms ps' e w) {v : Wsock}
    (hlen : w'.inBuf.length ≤ v.inBuf.length) (hpings : done ++ ps = done' ++ ps') :
    Called host w₀ v done more ms ps e w := by
  cases h with
  | none hle hgoing hsends hsame hdone => exact .none (hle.trans hlen) hgoing hsends (hpings.trans hsame) hdone
  | message hle hms hgoing hsends hsame => exact .message (hle.trans hlen) hms hgoing hsends (hpings.trans hsame)
  | close hms hended => exact .close hms (hpings ▸ hended)
  | memory hclosed hle hrefused => exact .memory hclosed (hle.trans hlen) hrefused

theorem frameBytes_ne_nil {fin : Bool} {op : Nat} {payload rest : Bytes} : [] ≠ frameBytes fin op payload ++ rest := nofun

theorem Sends.nothing (h : Sends begun [] ms ps) : ms = [] ∧ ps = [] := by
  generalize hwire : ([] : Bytes) = wire at h
  cases h with
  | stop => exact ⟨rfl, rfl⟩
  | _ => exact absurd hwire frameBytes_ne_nil

variable (hheap : ∀ c, host.memory c = true → c ≤ USER_HEAP)
include hheap

theorem frames_called {k : Nat} (hfuel : w.inBuf.length < k) (hgoing : Going host w₀ w begun done)
    (hsends : Sends begun (w.inBuf ++ more) ms ps) :
    ∃ e w', frames host k w = some (e, w') ∧ Called host w₀ w done more ms ps e w' := by
  induction k generalizing w begun done ps with
  | zero => exact absurd hfuel (Nat.not_lt_zero _)
  | succ k ih =>
    have hturn := oneFrame_turns hheap hgoing hsends
    rw [frames]
    generalize oneFrame host w = turn at hturn
    cases hturn with
    | wait hdone => exact ⟨_, _, rfl, .none le_rfl hgoing hsends rfl hdone⟩
    | again hshort hnext hrest hpings =>
      obtain ⟨e, w', hframes, hcalled⟩ := ih (by omega) hnext hrest
      exact ⟨e, w', hframes, hcalled.after hshort.le hpings⟩
    | message hms hshort hnext hrest => exact ⟨_, _, rfl, .message hshort.le hms hnext hrest rfl⟩
    | close hms hps hended =>
      subst hps
      exact ⟨_, _, rfl, .close hms (by rw [List.append_nil]; exact hended)⟩
    | memory hclosed hrefused => exact ⟨_, _, rfl, .memory hclosed (Nat.zero_le _) hrefused⟩

theorem receive_called {eof : Bool} {rounds : Nat} {chunks : List Bytes} (hrounds : chunks.length ≤ rounds)
    (hchunks : ∀ c ∈ chunks, c.length ≤ 16384) (hgoing : Going host w₀ w begun done)
    (hsends : Sends begun (w.inBuf ++ (chunks.flatten ++ more)) ms ps)
    (heof : eof = true → more = []) :
    (∃ w', receive host eof rounds chunks w = .again w' ∧ Going host w₀ w' begun done ∧
        w'.inBuf = w.inBuf ++ chunks.flatten) ∨
      ∃ e w', receive host eof rounds chunks w = .happened e w' ∧
        ∀ v : Wsock, v.inBuf = w.inBuf ++ chunks.flatten → Called host w₀ v done more ms ps e w' := by
  have hheapSize : USER_HEAP + 16384 ≤ 2 ^ 30 := by decide
  induction rounds generalizing w chunks with
  | zero =>
    cases List.length_eq_zero_iff.mp (Nat.le_zero.mp hrounds)
    exact .inl ⟨w, rfl, hgoing, (List.append_nil _).symm⟩
  | succ rounds ih =>
    have hin := hgoing.inLen
    have hcap := hgoing.inCap
    have hbound : w.inBuf.length + 16384 ≤ 2 ^ 30 := by omega
    have hneed : readRoom w.inBuf.length = w.inBuf.length + 16384 := by
      unfold readRoom
      exact Nat.mod_eq_of_lt (by omega)
    rw [receive]
    rcases wsGrow_ends (readRoom w.inBuf.length) w.inBuf.length hheap hcap (by omega) (by omega) with
      ⟨cap, hgrow, hroom, hle⟩ | ⟨hgrow, hrefused⟩
    · rw [hgrow]
      dsimp only
      cases chunks with
      | nil =>
        dsimp only
        by_cases hend : eof = true ∧ w.inBuf = []
        · rw [if_pos hend]
          refine .inr ⟨_, _, rfl, fun v _ => ?_⟩
          rw [heof hend.1, hend.2] at hsends
          obtain ⟨rfl, rfl⟩ := hsends.nothing
          refine .close rfl ⟨rfl, [], Nat.zero_le _, ?_⟩
          rw [List.append_nil, List.append_nil]
          exact hgoing.sent
        · rw [if_neg hend]
          have hlen : w.inBuf.length ≤ cap := by omega
          exact .inl ⟨_, rfl, ⟨hgoing.state, hgoing.sentClose, hgoing.sent, hgoing.begun, hle, hgoing.msgCap, hlen⟩,
            (List.append_nil _).symm⟩
      | cons c chunks =>
        have hc := hchunks c List.mem_cons_self
        have hrest := fun c hc => hchunks c (List.mem_cons_of_mem _ hc)
        have hlen : (w.inBuf ++ c).length ≤ cap := by
          rw [List.length_append]
          omega
        rw [List.flatten_cons, List.append_assoc, ← List.append_assoc] at hsends
        have hnext := ih (w := { w with inBuf := w.inBuf ++ c, inCap := cap }) (Nat.le_of_succ_le_succ hrounds) hrest
          ⟨hgoing.state, hgoing.sentClose, hgoing.sent, hgoing.begun, hle, hgoing.msgCap, hlen⟩ hsends
        rw [List.flatten_cons, ← List.append_assoc]
        exact hnext
    · rw [hgrow]
      dsimp only
      refine .inr ⟨_, _, rfl, fun v hv => .memory rfl ?_ hrefused⟩
      rw [hv, List.length_append]
      omega

theorem wsPump_called {poll : Poll} (hopen : w₀.state ≠ .closed) (hlate : w₀.state = .closing → poll.late = false)
    (hrounds : poll.chunks.length ≤ 64) (hchunks : ∀ c ∈ poll.chunks, c.length ≤ 16384)
    (hgoing : Going host w₀ w begun done)
    (hsends : Sends begun (w.inBuf ++ (poll.chunks.flatten ++ more)) ms ps) (heof : poll.eof = true → more = []) :
    ∃ e w', wsPump host poll w = some (e, w') ∧
      Called host w₀ { w with inBuf := w.inBuf ++ poll.chunks.flatten } done more ms ps e w' := by
  have hnotLate : ¬ (w.state = .closing ∧ poll.late = true) := by
    rw [hgoing.state]
    rintro ⟨hclosing, hlater⟩
    rw [hlate hclosing] at hlater
    cases hlater
  unfold wsPump
  rw [if_neg (hgoing.state ▸ hopen), if_neg hnotLate]
  rcases receive_called hheap hrounds hchunks hgoing hsends heof with ⟨v, hreceive, hnext, hin⟩ | ⟨e, w', hreceive, hcalled⟩
  · rw [hreceive]
    dsimp only
    obtain ⟨e, w', hframes, hcalled⟩ := frames_called hheap (Nat.lt_succ_self _) hnext
      (show Sends begun (v.inBuf ++ more) ms ps by rw [hin, List.append_assoc]; exact hsends)
    exact ⟨e, w', hframes, hcalled.after (congrArg List.length hin).le rfl⟩
  · rw [hreceive]
    exact ⟨e, w', rfl, hcalled _ rfl⟩

end call

end Zelr.Web
