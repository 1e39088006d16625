import Zelr.Tls.Auth
import Zelr.Tls.Reader

/-!
# When the bytes come

What `tls_recv` hands over is what the server's stream says, however the transport cuts the stream
and however long it waits in between.
-/

namespace Zelr.Tls

open Act

variable {buf data : Bytes} {off left : Nat} {z z1 z' : Session} {α : Type} {spec : Option Reader}
  {K : Prims} {type : UInt8}

/-! ## What the transport brings -/

def bytesOf : List Arrival → Bytes
  | [] => []
  | .bytes b :: net => b ++ bytesOf net
  | .timeout :: net => bytesOf net
  | .gone :: _ => []

def closes : List Arrival → Bool
  | [] => false
  | .gone :: _ => true
  | _ :: net => closes net

variable {b : Bytes} {net net' : List Arrival} {want : Nat}

theorem takeSome_bytes (hwant : 0 < want)
    (h : takeSome want net = (.bytes b, net')) :
    bytesOf net = b ++ bytesOf net' ∧ closes net' = closes net ∧ b.length ≤ want ∧
      netSize net' < netSize net ∧ (.timeout ∉ net → .timeout ∉ net') := by
  rcases net with _ | ⟨_ | _ | _, net⟩
  · cases h
  · next b' =>
    unfold takeSome at h
    dsimp only at h
    split_ifs at h with hfits
    · cases h
      refine ⟨rfl, rfl, hfits, ?_, ?_⟩
      · simp only [netSize]
        omega
      · simp
    · cases h
      refine ⟨?_, rfl, by simp, ?_, ?_⟩
      · simp only [bytesOf]
        rw [← List.append_assoc, List.take_append_drop]
      · simp only [netSize, List.length_drop]
        omega
      · simp
  · cases h
  · cases h

theorem takeSome_late (h : takeSome want net = (.late, net')) :
    bytesOf net' = bytesOf net ∧ closes net' = closes net ∧ (net' = net ∨ netSize net' < netSize net) ∧
      (.timeout ∉ net → net' = []) := by
  rcases net with _ | ⟨_ | _ | _, net⟩
  · cases h
    exact ⟨rfl, rfl, .inl rfl, fun _ => rfl⟩
  · unfold takeSome at h
    dsimp only at h
    split_ifs at h <;> cases h
  · cases h
    refine ⟨rfl, rfl, .inr ?_, by simp⟩
    simp only [netSize]
    omega
  · cases h

theorem takeSome_gone (h : takeSome want net = (.gone, net')) :
    net' = net ∧ bytesOf net = [] ∧ closes net = true := by
  rcases net with _ | ⟨_ | _ | _, net⟩
  · cases h
  · unfold takeSome at h
    dsimp only at h
    split_ifs at h <;> cases h
  · cases h
  · cases h
    exact ⟨rfl, rfl, rfl⟩

/-! ## A record that is under way -/

def parked (z : Session) : Bytes := z.head.take z.haveLen ++ z.record.take (z.haveLen - 5)

def pending (z : Session) : Bytes := parked z ++ bytesOf z.net

/-- The record under way fits its buffers and its header. -/
structure Filling (z : Session) : Prop where
  head : z.head.length = 5
  room : z.haveLen - 5 ≤ z.record.length
  fits : 5 < z.haveLen → z.haveLen - 5 ≤ recLen z.head ∧ recLen z.head ≤ REC_MAX

/-- It is not whole yet, and its size is a possible one. -/
structure Parked (z : Session) : Prop extends Filling z where
  short : 5 ≤ z.haveLen → z.haveLen - 5 < recLen z.head ∧ recLen z.head ≤ REC_MAX

theorem parked_of_zero (hhead : z.head.length = 5) (h : z.haveLen = 0) : Parked z := by
  refine ⟨⟨hhead, ?_, ?_⟩, ?_⟩
  · rw [h]
    exact Nat.zero_le _
  · rw [h]
    omega
  · rw [h]
    omega

/-- Reading moves bytes from the transport to where they are parked. -/
structure Filled (z z' : Session) : Prop where
  rest : ∃ net head record haveLen, z' = { z with net, head, record, haveLen }
  filling : Filling z'
  pending : pending z' = pending z
  closes : closes z'.net = closes z.net
  moved : z' = z ∨ netSize z'.net < netSize z.net
  prompt : .timeout ∉ z.net → .timeout ∉ z'.net

theorem Filled.refl (h : Filling z) : Filled z z :=
  ⟨⟨_, _, _, _, rfl⟩, h, rfl, rfl, .inl rfl, id⟩

theorem Filled.trans (h : Filled z z1) (h1 : Filled z1 z') : Filled z z' := by
  obtain ⟨net, head, record, haveLen, rfl⟩ := h.rest
  obtain ⟨net', head', record', haveLen', rfl⟩ := h1.rest
  refine ⟨⟨net', head', record', haveLen', rfl⟩, h1.filling, h1.pending.trans h.pending,
    h1.closes.trans h.closes, ?_, fun hp => h1.prompt (h.prompt hp)⟩
  rcases h.moved with hz | hz
  · rw [hz] at h1
    exact h1.moved
  · rcases h1.moved with hz1 | hz1
    · rw [hz1]
      exact .inr hz
    · exact .inr (lt_trans hz1 hz)

theorem filled_head (h : Filling z) (hlen : z.haveLen < 5)
    (htake : takeSome (5 - z.haveLen) z.net = (.bytes b, net)) :
    Filled z { z with net, head := put z.head z.haveLen b, haveLen := z.haveLen + b.length } := by
  obtain ⟨hbytes, hcloses, hb, hsize, hprompt⟩ := takeSome_bytes (by omega) htake
  have hoff : z.haveLen ≤ z.head.length := by rw [h.head]; omega
  have hlen' : z.haveLen + b.length - 5 = 0 := by omega
  refine ⟨⟨_, _, _, _, rfl⟩, ⟨?_, ?_, ?_⟩, ?_, hcloses, .inr hsize, hprompt⟩
  · exact (put_length_eq (by rw [h.head]; omega)).trans h.head
  · dsimp only
    rw [hlen']
    exact Nat.zero_le _
  · dsimp only
    omega
  · simp only [pending, parked, hlen', take_put _ _ hoff, hbytes,
      Nat.sub_eq_zero_of_le hlen.le, List.take_zero, List.append_nil, List.append_assoc]

theorem filled_body (h : Filling z) (hlen : 5 ≤ z.haveLen)
    (hmax : recLen z.head ≤ REC_MAX) (hmore : z.haveLen - 5 < recLen z.head)
    (htake : takeSome (recLen z.head - (z.haveLen - 5)) z.net = (.bytes b, net)) :
    Filled z { z with
      net, record := put z.record (z.haveLen - 5) b, haveLen := z.haveLen + b.length } := by
  obtain ⟨hbytes, hcloses, hb, hsize, hprompt⟩ := takeSome_bytes (by omega) htake
  have hlen' : z.haveLen + b.length - 5 = z.haveLen - 5 + b.length := by omega
  refine ⟨⟨_, _, _, _, rfl⟩, ⟨h.head, ?_, ?_⟩, ?_, hcloses, .inr hsize, hprompt⟩
  · dsimp only
    rw [hlen']
    exact put_length _ _ h.room
  · dsimp only
    omega
  · have hhead : ∀ n, 5 ≤ n → z.head.take n = z.head :=
      fun n hn => List.take_of_length_le (by rw [h.head]; exact hn)
    simp only [pending, parked, hlen', take_put _ _ h.room, hbytes, List.append_assoc, hhead _ hlen,
      hhead (z.haveLen + b.length) (by omega)]

/-- What each way `fill_record` can end says. -/
def FillSays (z z' : Session) : Fill → Prop
  | .whole => 5 ≤ z'.haveLen ∧
    ((recLen z'.head = 0 ∨ REC_MAX < recLen z'.head) ∨ z'.haveLen - 5 = recLen z'.head)
  | .late => Parked z' ∧ (.timeout ∉ z.net → z'.net = [])
  | .stopped => Parked z' ∧ bytesOf z'.net = [] ∧ closes z'.net = true

theorem filled_late (h : Parked z)
    (htake : takeSome want z.net = (.late, net)) :
    Filled z { z with net } ∧ FillSays z { z with net } .late := by
  obtain ⟨hbytes, hcloses, hmoved, hprompt⟩ := takeSome_late htake
  refine ⟨⟨⟨_, _, _, _, rfl⟩, ⟨h.head, h.room, h.fits⟩, ?_, hcloses, ?_, fun hp => ?_⟩,
    ⟨⟨h.head, h.room, h.fits⟩, h.short⟩, hprompt⟩
  · simp only [pending, parked, hbytes]
  · rcases hmoved with rfl | hless
    · exact .inl rfl
    · exact .inr hless
  · simp [hprompt hp]

theorem filled_gone (h : Parked z)
    (htake : takeSome want z.net = (.gone, net)) :
    Filled z { z with net } ∧ FillSays z { z with net } .stopped := by
  obtain ⟨rfl, hbytes, hcloses⟩ := takeSome_gone htake
  exact ⟨Filled.refl h.toFilling, h, hbytes, hcloses⟩

theorem FillSays.after {f : Fill} (h : Filled z z1) (hfills : FillSays z1 z' f) :
    FillSays z z' f := by
  cases f with
  | whole => exact hfills
  | late => exact ⟨hfills.1, fun hp => hfills.2 (h.prompt hp)⟩
  | stopped => exact hfills

theorem fillLoop_spec (h : Filling z) (hleft : netSize z.net < left) :
    Filled z (fillLoop left z).2 ∧ FillSays z (fillLoop left z).2 (fillLoop left z).1 := by
  induction left generalizing z with
  | zero => omega
  | succ left ih =>
    have hnext : ∀ z1, Filled z z1 → netSize z1.net < netSize z.net →
        Filled z (fillLoop left z1).2 ∧ FillSays z (fillLoop left z1).2 (fillLoop left z1).1 := by
      intro z1 h1 hless
      obtain ⟨hfilled, hfills⟩ := ih h1.filling (by omega)
      exact ⟨h1.trans hfilled, hfills.after h1⟩
    unfold fillLoop
    dsimp only
    split_ifs with hhead hbad hwhole
    · have hparked : Parked z := ⟨h, fun hlen => by omega⟩
      split
      · next htake => exact filled_gone hparked htake
      · next htake => exact filled_late hparked htake
      · next htake =>
        refine hnext _ (filled_head h hhead htake) ?_
        exact (takeSome_bytes (by omega) htake).2.2.2.1
    · exact ⟨Filled.refl h, Nat.le_of_not_lt hhead, .inl hbad⟩
    · refine ⟨Filled.refl h, Nat.le_of_not_lt hhead, .inr ?_⟩
      by_cases hlen : 5 < z.haveLen
      · exact le_antisymm (h.fits hlen).1 hwhole
      · omega
    · have hparked : Parked z := ⟨h, fun _ => by omega⟩
      split
      · next htake => exact filled_gone hparked htake
      · next htake => exact filled_late hparked htake
      · next htake =>
        refine hnext _ (filled_body h (by omega) (by omega) (by omega) htake) ?_
        exact (takeSome_bytes (by omega) htake).2.2.2.1

/-! ## A record that is whole -/

section Whole

variable {K : Prims} {z : Session}

/-- What a step between two records leaves alone. -/
structure Resting (z z' : Session) : Prop where
  opened : z'.opened = z.opened
  ended : z'.ended = z.ended
  app : z'.app = z.app
  appPos : z'.appPos = z.appPos
  net : z'.net = z.net
  answers : z'.answers = z.answers
  head : z'.head = z.head
  haveLen : z'.haveLen = z.haveLen

theorem Resting.refl (z : Session) : Resting z z := ⟨rfl, rfl, rfl, rfl, rfl, rfl, rfl, rfl⟩

theorem Resting.trans (h : Resting z z1) (h1 : Resting z1 z') : Resting z z' :=
  ⟨h1.opened.trans h.opened, h1.ended.trans h.ended, h1.app.trans h.app, h1.appPos.trans h.appPos,
    h1.net.trans h.net, h1.answers.trans h.answers, h1.head.trans h.head, h1.haveLen.trans h.haveLen⟩

def Opens (z : Session) (res : Option Rec × Session) : Option (UInt8 × Bytes × Reader) → Prop
  | none => res.1 = none ∨ res.2.ended = true
  | some (type, data, r) => ∃ len z', res = (some (type, len), z') ∧ len = data.length ∧
    z'.record.take len = data ∧ z'.reader = r ∧ Resting z z'

variable {desc : Alert} {why : String} {n : Nat}

theorem refuseIf_true : (refuseIf K true why desc z).1 = none := by
  have := refuse_eq (K := K) (α := Unit) z why desc
  unfold refuseIf
  simp only [if_true]
  rw [this]

theorem bind_none_of_fst {β : Type} {m : Act Session α} {f : α → Act Session β} (h : (m z).1 = none) :
    ((m >>= f) z).1 = none := by
  rw [bind_apply]
  split
  · next hm =>
    rw [hm] at h
    cases h
  · rfl

theorem sealedAlert_over (len : Nat) :
    (sealedAlert len z).1 = none ∨ (sealedAlert len z).2.ended = true := by
  unfold sealedAlert
  rw [bind_get]
  split_ifs
  · exact .inr rfl
  · exact .inl rfl

theorem slice_take {len : Nat} (h : off + len ≤ n) :
    ((buf.take n).drop off).take len = (buf.drop off).take len := by
  rw [List.drop_take, List.take_take, min_eq_left (by omega)]

theorem refuseIf_false {bad : Bool} (hbad : bad = false) :
    refuseIf K bad why desc z = (some (), z) := by
  rw [hbad]
  rfl

theorem forged_none (off body : Nat) : ((forged K off body : Act Session α) z).1 = none := by
  unfold forged
  rw [bind_apply]
  simp only [modify_apply]
  rw [refuse_eq]

theorem open12_opens (hn : n ≤ z.record.length) :
    Opens z (open12 K n z) (z.reader.open12 K (byteAt z.head 0) (z.record.take n)) := by
  have hlen : (z.record.take n).length = n := by simp [hn]
  unfold open12 Reader.open12
  simp only [hlen]
  by_cases hshort : n < 8 + GCM_TAG
  · rw [if_pos hshort]
    refine .inl (bind_none_of_fst ?_)
    simp only [hshort, decide_true]
    exact refuseIf_true
  · rw [if_neg hshort, bind_of_some (refuseIf_false (by simpa using hshort)), bind_get,
      List.take_take, min_eq_left (by omega), slice_take (by omega), slice_take (by omega)]
    dsimp only [Session.reader]
    cases hopen : K.gcmOpen z.sGcm (z.sIv.take 4 ++ z.record.take 8)
      (aad12 z.sSeq (byteAt z.head 0) (n - 8 - GCM_TAG)) ((z.record.drop 8).take (n - 8 - GCM_TAG))
      ((z.record.drop (8 + (n - 8 - GCM_TAG))).take GCM_TAG) with
    | none => exact .inl (forged_none _ _)
    | some plain =>
      dsimp only
      rw [bind_modify]
      by_cases halert : byteAt z.head 0 = REC_ALERT
      · rw [if_pos halert, if_pos halert]
        exact sealedAlert_over _
      · rw [if_neg halert, if_neg halert]
        have hplain : plain.length = n - 8 - GCM_TAG := by
          rw [K.open_length hopen, List.length_take, List.length_drop]
          omega
        refine ⟨_, _, rfl, hplain.symm, ?_, rfl, ⟨rfl, rfl, rfl, rfl, rfl, rfl, rfl, rfl⟩⟩
        dsimp only
        rw [← hplain, take_put_zero _ _ le_rfl, List.take_length]

theorem open13_opens (hn : n ≤ z.record.length) :
    Opens z (open13 K n z) (z.reader.open13 K z.head (z.record.take n)) := by
  have hlen : (z.record.take n).length = n := by simp [hn]
  unfold open13 Reader.open13
  simp only [hlen]
  by_cases hshort : n < GCM_TAG + 1
  · rw [if_pos hshort]
    refine .inl (bind_none_of_fst ?_)
    simp only [hshort, decide_true]
    exact refuseIf_true
  · rw [if_neg hshort, bind_of_some (refuseIf_false (by simpa using hshort)), bind_get,
      List.take_take, min_eq_left (by omega), slice_take (by omega)]
    dsimp only [Session.reader]
    cases hopen : K.gcmOpen z.sGcm (nonceFor z.sIv z.sSeq) z.head (z.record.take (n - GCM_TAG))
      ((z.record.drop (n - GCM_TAG)).take GCM_TAG) with
    | none => exact .inl (forged_none _ _)
    | some plain =>
      dsimp only
      rw [bind_modify]
      by_cases hempty : unpad plain = []
      · have hstop : unpad plain = [] ∨ (unpad plain).getLastD 0 = REC_ALERT := .inl hempty
        rw [if_pos hstop, hempty]
        exact .inl (bind_none_of_fst refuseIf_true)
      · rw [bind_of_some (refuseIf_false (by simpa using hempty))]
        by_cases halert : (unpad plain).getLastD 0 = REC_ALERT
        · have hstop : unpad plain = [] ∨ (unpad plain).getLastD 0 = REC_ALERT := .inr halert
          rw [if_pos hstop, if_pos halert]
          exact sealedAlert_over _
        · have hgo : ¬ (unpad plain = [] ∨ (unpad plain).getLastD 0 = REC_ALERT) :=
            not_or.mpr ⟨hempty, halert⟩
          rw [if_neg hgo, if_neg halert]
          have hle := unpad_length plain
          have hdata : (plain.take ((unpad plain).length - 1)).length = (unpad plain).length - 1 := by
            rw [List.length_take]
            omega
          refine ⟨_, _, rfl, hdata.symm, ?_, rfl, ⟨rfl, rfl, rfl, rfl, rfl, rfl, rfl, rfl⟩⟩
          exact take_put_zero _ _ (by omega)

theorem changeCipher_opens (hn : n ≤ z.record.length) (htype : byteAt z.head 0 = REC_CHANGE_CIPHER) :
    Opens z (changeCipher K n z) (z.reader.openRecord K z.head (z.record.take n)) := by
  have hlen : (z.record.take n).length = n := by simp [hn]
  have hsame : (!z.reader.ccsOk || z.reader.sSealed || n != 1 || byteAt (z.record.take n) 0 != 1) =
      (!z.ccsOk || z.sSealed || n != 1 || byteAt z.record 0 != 1) := by
    by_cases hone : n = 1
    · rw [hone, byteAt_take Nat.one_pos]
      rfl
    · have hbad : (n != 1) = true := bne_iff_ne.mpr hone
      rw [hbad]
      simp
  unfold changeCipher Reader.openRecord
  rw [bind_get, if_pos htype, hlen]
  by_cases hv12 : z.v12 = true
  · have hr : z.reader.v12 = true := hv12
    rw [if_pos hv12, if_pos hr, hsame]
    cases !z.ccsOk || z.sSealed || n != 1 || byteAt z.record 0 != 1 with
    | true => exact .inl (bind_none_of_fst refuseIf_true)
    | false => exact ⟨_, _, rfl, rfl, rfl, rfl, ⟨rfl, rfl, rfl, rfl, rfl, rfl, rfl, rfl⟩⟩
  · have hr : ¬ z.reader.v12 = true := hv12
    rw [if_neg hv12, if_neg hr]
    exact ⟨_, z, rfl, rfl, rfl, rfl, Resting.refl z⟩

theorem takeRecord_bad (hsize : recLen z.head = 0 ∨ REC_MAX < recLen z.head) :
    (takeRecord K true z).1 = none := by
  have hbad : (recLen z.head == 0 || decide (REC_MAX < recLen z.head)) = true := by simpa using hsize
  unfold takeRecord
  rw [bind_get, hbad]
  exact bind_none_of_fst refuseIf_true

theorem takeRecord_opens (hsize : ¬ (recLen z.head = 0 ∨ REC_MAX < recLen z.head))
    (hroom : recLen z.head ≤ z.record.length) :
    Opens { z with haveLen := 0 } (takeRecord K true z)
      (z.reader.openRecord K z.head (z.record.take (recLen z.head))) := by
  have hbad : (recLen z.head == 0 || decide (REC_MAX < recLen z.head)) = false := by
    simpa [not_or] using hsize
  unfold takeRecord
  rw [bind_get, bind_of_some (refuseIf_false hbad), bind_modify]
  have hlen : (z.record.take (recLen z.head)).length = recLen z.head := by simp [hroom]
  obtain ⟨z1, hz1⟩ : ∃ z1 : Session, z1 = { z with haveLen := 0 } := ⟨_, rfl⟩
  have hreader : z1.reader = z.reader := by rw [hz1]; rfl
  have hhead : z1.head = z.head := by rw [hz1]
  have hrecord : z1.record = z.record := by rw [hz1]
  have hroom1 : recLen z.head ≤ z1.record.length := by rw [hrecord]; exact hroom
  rw [← hz1, ← hreader, ← hrecord]
  by_cases htype : byteAt z.head 0 = REC_CHANGE_CIPHER
  · rw [if_pos htype, ← hhead]
    exact changeCipher_opens (by rw [hhead]; exact hroom1) (by rw [hhead]; exact htype)
  · rw [if_neg htype]
    unfold Reader.openRecord
    rw [if_neg htype, hreader]
    rcases Bool.eq_false_or_eq_true z.v12 with hv12 | hv12
    · have hr : z.reader.v12 = true := hv12
      rcases Bool.eq_false_or_eq_true z.sSealed with hsealed | hsealed
      · have hr' : z.reader.sSealed = true := hsealed
        simp only [hv12, hr, hsealed, hr', Bool.not_true, Bool.true_and, Bool.false_eq_true,
          Bool.true_eq_false, and_false, if_false, if_true]
        rw [← hreader, ← hhead]
        exact open12_opens (by rw [hhead]; exact hroom1)
      · have hr' : z.reader.sSealed = false := hsealed
        simp only [hv12, hr, hsealed, hr', Bool.not_false, Bool.true_and, if_true, and_true]
        by_cases halert : byteAt z.head 0 = REC_ALERT
        · rw [if_pos halert, if_pos halert]
          exact .inl rfl
        · rw [if_neg halert, if_neg halert]
          exact ⟨_, _, rfl, by rw [hrecord, hlen], rfl, hreader, Resting.refl _⟩
    · have hr : z.reader.v12 = false := hv12
      simp only [hv12, hr, Bool.false_and, Bool.false_eq_true, Bool.true_eq_false, and_false, if_false]
      rw [← hreader, ← hhead]
      exact open13_opens (by rw [hhead]; exact hroom1)

/-! ## Messages after the handshake -/

def Posts (z : Session) (res : Option Unit × Session) : Option Reader → Prop
  | none => res.1 = none
  | some r => ∃ z', res = (some (), z') ∧ z'.reader = r ∧ Resting z z'

theorem Posts.of_resting {res : Option Unit × Session}
    (h : Resting z z1) (hposts : Posts z1 res spec) : Posts z res spec := by
  rcases spec with _ | r
  · exact hposts
  · obtain ⟨z', hres, hreader, hrest⟩ := hposts
    exact ⟨z', hres, hreader, h.trans hrest⟩

theorem setTheirKeys_eq (secret : Bytes) :
    setTheirKeys K secret z = match Reader.keysFrom K secret with
      | none => (none, z)
      | some (key, iv) => (some (), { z with sGcm := key, sIv := iv, sSeq := 0 }) := by
  unfold setTheirKeys Reader.keysFrom
  cases K.hkdfExpandLabel secret "key" [] 16 with
  | none => rfl
  | some key => cases K.hkdfExpandLabel secret "iv" [] 12 <;> rfl

theorem setOurKeys_eq (secret : Bytes) :
    setOurKeys K secret z = match Reader.keysFrom K secret with
      | none => (none, z)
      | some (key, iv) => (some (), { z with
          cGcm := key, cIv := iv, cSeq := 0, canSeal := true, stage := z.stage + 1 }) := by
  unfold setOurKeys Reader.keysFrom
  cases K.hkdfExpandLabel secret "key" [] 16 with
  | none => rfl
  | some key => cases K.hkdfExpandLabel secret "iv" [] 12 <;> rfl

theorem writeAll_ok (h : z.answers = []) :
    writeAll data z = (some (), { z with answers := [], wire := z.wire ++ [data] }) := by
  unfold writeAll
  rw [bind_apply]
  simp [ask, h]

theorem sealOurs_eq (nonce aad data : Bytes) :
    ∃ body, sealOurs K nonce aad data z = (some body, { z with
      seals := z.seals ++ [⟨z.stage, z.cGcm, nonce⟩], cSeq := z.cSeq + 1 }) := ⟨_, rfl⟩

theorem sendUpdate_eq (hv12 : z.v12 = false) (hanswers : z.answers = []) :
    ∃ z', sendEncrypted K REC_HANDSHAKE [HS_KEY_UPDATE, 0, 0, 1, 0] z = (some (), z') ∧
      z'.reader = z.reader ∧ Resting z z' := by
  unfold sendEncrypted
  rw [bind_get, if_neg (by simp [hv12])]
  unfold sendSealed13
  rw [if_neg (by decide), bind_get]
  obtain ⟨body, hseal⟩ := sealOurs_eq (K := K) (z := z) (nonceFor z.cIv z.cSeq)
    (header REC_APPDATA ([HS_KEY_UPDATE, 0, 0, 1, 0].length + 1 + GCM_TAG))
    ([HS_KEY_UPDATE, 0, 0, 1, 0] ++ [REC_HANDSHAKE])
  rw [bind_of_some hseal, bind_modify]
  exact ⟨_, writeAll_ok hanswers, rfl, ⟨rfl, rfl, rfl, rfl, rfl, hanswers.symm, rfl, rfl⟩⟩

theorem answerUpdate_posts (hv12 : z.v12 = false) (hanswers : z.answers = []) :
    Posts z (answerUpdate K z) (do
      let cApp ← K.hkdfExpandLabel z.cApp "traffic upd" [] 32
      let _ ← Reader.keysFrom K cApp
      return { z.reader with cApp }) := by
  obtain ⟨z1, hsend, hreader, hrest⟩ := sendUpdate_eq (K := K) hv12 hanswers
  have hcApp : z1.cApp = z.cApp := congrArg Reader.cApp hreader
  unfold answerUpdate
  rw [bind_of_some hsend, bind_get, hcApp]
  cases K.hkdfExpandLabel z.cApp "traffic upd" [] 32 with
  | none => exact bind_none_of_fst rfl
  | some next =>
    rw [bind_of_some (ofOption_apply _ _), bind_modify, setOurKeys_eq]
    rcases hkeys : Reader.keysFrom K next with _ | ⟨key, iv⟩
    · simp [hkeys, Posts]
    · simp only [hkeys, Option.bind_eq_bind, Option.bind_some]
      refine ⟨_, rfl, ?_, { hrest with }⟩
      rw [← hreader]
      rfl

theorem keyUpdate_posts (requested : Bool) (hv12 : z.v12 = false) (hanswers : z.answers = []) :
    Posts z (keyUpdate K requested z) (z.reader.update K requested) := by
  unfold keyUpdate Reader.update
  rw [bind_get]
  have hsApp : z.reader.sApp = z.sApp := rfl
  rw [hsApp]
  cases K.hkdfExpandLabel z.sApp "traffic upd" [] 32 with
  | none => exact bind_none_of_fst rfl
  | some next =>
    rw [bind_of_some (ofOption_apply _ _), bind_modify]
    simp only [Option.bind_eq_bind, Option.bind_some]
    rcases hkeys : Reader.keysFrom K next with _ | ⟨key, iv⟩
    · refine bind_none_of_fst ?_
      rw [setTheirKeys_eq, hkeys]
    · rw [bind_of_some (by rw [setTheirKeys_eq, hkeys])]
      cases requested with
      | false => exact ⟨_, rfl, rfl, ⟨rfl, rfl, rfl, rfl, rfl, rfl, rfl, rfl⟩⟩
      | true =>
        refine Posts.of_resting ?_ (answerUpdate_posts (z := { z with
          sApp := next, sGcm := key, sIv := iv, sSeq := 0 }) hv12 hanswers)
        exact ⟨rfl, rfl, rfl, rfl, rfl, rfl, rfl, rfl⟩

theorem orRefuse_posts {m : Act Session Unit}
    (h : Posts z (m z) spec) : Posts z (orRefuse K m why desc z) spec := by
  unfold orRefuse
  rw [bind_of_some (attempt_apply m z)]
  rcases spec with _ | r
  · have hnone : (m z).1 = none := h
    rw [hnone]
    dsimp only
    rw [refuse_eq]
    rfl
  · obtain ⟨z', hres, hreader, hrest⟩ := h
    rw [hres]
    exact ⟨z', rfl, hreader, hrest⟩

theorem postMessage_posts (m : Msg) (hanswers : z.answers = []) :
    Posts z (postMessage K m z) (z.reader.message K m) := by
  unfold postMessage Reader.message
  rw [bind_get]
  by_cases hupdate : m.type = HS_KEY_UPDATE ∧ z.v12 = false
  · have hr : m.type = HS_KEY_UPDATE ∧ z.reader.v12 = false := hupdate
    rw [if_pos hupdate, if_pos hr]
    by_cases hlen : (m.body.length != 1) = true
    · rw [hlen, Bool.true_or, if_pos rfl]
      exact bind_none_of_fst refuseIf_true
    · rw [Bool.not_eq_true] at hlen
      rw [bind_of_some (refuseIf_false hlen), hlen, Bool.false_or]
      by_cases hask : 1 < byteAt m.body 0
      · simp only [hask, decide_true, if_true]
        exact bind_none_of_fst refuseIf_true
      · rw [bind_of_some (refuseIf_false (by simpa using hask)), if_neg (by simpa using hask)]
        exact orRefuse_posts (keyUpdate_posts _ hupdate.2 hanswers)
  · have hr : ¬ (m.type = HS_KEY_UPDATE ∧ z.reader.v12 = false) := hupdate
    rw [if_neg hupdate, if_neg hr]
    exact ⟨z, rfl, rfl, Resting.refl z⟩

theorem postLoop_posts (left : Nat) (hanswers : z.answers = []) :
    Posts z (postLoop K left z) (z.reader.messages K left) := by
  induction left generalizing z with
  | zero => exact ⟨z, rfl, rfl, Resting.refl z⟩
  | succ left ih =>
    unfold postLoop Reader.messages
    rw [bind_get]
    have havail : z.reader.hs.drop z.reader.hsPos = z.hs.drop z.hsPos := rfl
    rw [havail]
    by_cases hbig : 4 ≤ (z.hs.drop z.hsPos).length ∧ HS_MAX < be24 (z.hs.drop z.hsPos) 1
    · rw [if_pos hbig, if_pos hbig, refuse_eq]
      rfl
    · rw [if_neg hbig, if_neg hbig]
      cases hsWhole (z.hs.drop z.hsPos) with
      | none => exact ⟨z, rfl, rfl, Resting.refl z⟩
      | some m =>
        have hmessage := postMessage_posts (K := K) m hanswers
        dsimp only
        rcases hspec : z.reader.message K m with _ | r
        · rw [hspec] at hmessage
          exact bind_none_of_fst hmessage
        · rw [hspec] at hmessage
          obtain ⟨z1, hres, hreader, hrest⟩ := hmessage
          dsimp only
          rw [bind_of_some hres, bind_modify, ← hreader]
          have hrest' : Resting z { z1 with hsPos := z1.hsPos + m.whole.length } := { hrest with }
          exact (ih (hrest'.answers.trans hanswers)).of_resting hrest'

theorem postHandshake_posts (data : Bytes) (hanswers : z.answers = []) :
    Posts z (postHandshake K data z) (z.reader.post K data) := by
  unfold postHandshake Reader.post
  rw [bind_get]
  have hhs : z.reader.hs = z.hs := rfl
  rw [hhs]
  by_cases hbig : HS_MAX < z.hs.length + data.length
  · rw [if_pos hbig]
    simp only [hbig, decide_true]
    exact bind_none_of_fst refuseIf_true
  · rw [if_neg hbig, bind_of_some (refuseIf_false (by simpa using hbig)), bind_modify]
    have hloop := postLoop_posts (K := K) (z := { z with hs := z.hs ++ data })
      (z.hs.length + data.length) hanswers
    rcases hspec : ({ z with hs := z.hs ++ data } : Session).reader.messages K (z.hs.length + data.length)
      with _ | r
    · rw [hspec] at hloop
      have hr : ({ z.reader with hs := z.hs ++ data } : Reader).messages K (z.hs.length + data.length) = none :=
        hspec
      rw [hr]
      exact bind_none_of_fst hloop
    · rw [hspec] at hloop
      have hr : ({ z.reader with hs := z.hs ++ data } : Reader).messages K (z.hs.length + data.length) = some r :=
        hspec
      rw [hr]
      obtain ⟨z1, hres, hreader, hrest⟩ := hloop
      rw [bind_of_some hres]
      refine ⟨_, rfl, ?_, { hrest with }⟩
      rw [← hreader]
      rfl

end Whole

/-! ## What there is still to hand over -/

theorem Parked.all_eq (h : Parked z) (hnet : bytesOf z.net = []) (closed : Bool)
    (r : Reader) : Reader.all K closed r (pending z) = ([], closed) := by
  rw [pending, hnet, List.append_nil, parked]
  by_cases hlen : z.haveLen < 5
  · refine Reader.all_short ?_
    rw [Nat.sub_eq_zero_of_le hlen.le, List.take_zero, List.append_nil, List.length_take]
    omega
  · obtain ⟨hshort, hmax⟩ := h.short (by omega)
    rw [List.take_of_length_le (by rw [h.head]; omega)]
    refine Reader.all_partial h.head (by omega) ?_
    rw [List.length_take]
    omega

def total (K : Prims) (z : Session) : Bytes × Bool :=
  let later := if z.ended then ([], true) else Reader.all K (closes z.net) z.reader (pending z)
  (z.app.drop z.appPos ++ later.1, later.2)

structure Live (z : Session) : Prop where
  opened : z.opened = true
  quiet : z.ended = false → z.answers = [] ∧ Parked z

structure Shown (z z' : Session) : Prop where
  opened : z'.opened = z.opened
  app : z'.app = z.app
  appPos : z'.appPos = z.appPos

theorem shown_rolls (K : Prims) (z : Session) : Rolls K (Shown z) where
  reading := fun _ _ _ _ _ _ _ _ _ _ _ _ _ h => { h with }
  changed := fun _ _ _ _ h => { h with }
  alert := sendAlert_keeps fun _ _ _ _ _ _ _ h => { h with }
  sent := sendEncrypted_keeps fun _ _ _ _ _ _ h => { h with }
  ours := fun _ => Preserves.bind (Preserves.ofOption _) fun _ =>
    Preserves.bind (Preserves.ofOption _) fun _ => Preserves.modify fun _ h => { h with }
  theirs := fun _ => Preserves.bind (Preserves.ofOption _) fun _ =>
    Preserves.bind (Preserves.ofOption _) fun _ => Preserves.modify fun _ h => { h with }
  secrets := fun _ _ _ h => { h with }

/-- A record that was read, with what it leaves to read. -/
structure Came (K : Prims) (z : Session) (type : UInt8) (data : Bytes) (z' : Session) : Prop where
  shown : Shown z z'
  ended : z'.ended = false
  answers : z'.answers = []
  haveLen : z'.haveLen = 0
  head : z'.head.length = 5
  front : z'.record.take data.length = data
  closed : closes z'.net = closes z.net
  less : netSize z'.net < netSize z.net
  prompt : .timeout ∉ z.net → .timeout ∉ z'.net
  all : Reader.all K (closes z.net) z.reader (pending z) =
    match z'.reader.take K type data with
    | (.over, _) => ([], true)
    | (.nothing, r) => Reader.all K (closes z.net) r (bytesOf z'.net)
    | (.data b, r) => (b ++ (Reader.all K (closes z.net) r (bytesOf z'.net)).1,
        (Reader.all K (closes z.net) r (bytesOf z'.net)).2)

/-- How reading a record can go: not in time, or the conversation is over, or a record came. -/
inductive ReadSays (K : Prims) (z : Session) : Option (Option Rec) × Session → Prop
  | late {z' : Session} : Filled z z' → Parked z' → (.timeout ∉ z.net → z'.net = []) →
    ReadSays K z (some none, z')
  | done {res : Option (Option Rec)} {z' : Session} : Shown z z' →
    (res = none ∨ ∃ r, res = some (some r) ∧ z'.ended = true) →
    Reader.all K (closes z.net) z.reader (pending z) = ([], true) → ReadSays K z (res, z')
  | came {type : UInt8} {data : Bytes} {z' : Session} : Came K z type data z' →
    ReadSays K z (some (some (type, data.length)), z')

theorem readRecord_says (hended : z.ended = false) (hanswers : z.answers = [])
    (hparked : Parked z) : ReadSays K z (readRecord K true z) := by
  have hleft : netSize z.net < netSize z.net + 1 := Nat.lt_succ_self _
  obtain ⟨hfilled, hfills⟩ := fillLoop_spec hparked.toFilling hleft
  have hshown : Shown z (readRecord K true z).2 :=
    readRecord_preserves (shown_rolls K z).toBlind.quiet true z ⟨rfl, rfl, rfl⟩
  have hfill : fillRecord z = (some (fillLoop (netSize z.net + 1) z).1, (fillLoop (netSize z.net + 1) z).2) := rfl
  unfold readRecord at hshown ⊢
  rw [bind_of_some hfill, bind_get] at hshown ⊢
  clear hfill hleft
  generalize fillLoop (netSize z.net + 1) z = filled at *
  obtain ⟨f, z1⟩ := filled
  dsimp only at hfilled hfills hshown ⊢
  obtain ⟨net, head, record, haveLen, hz1⟩ := hfilled.rest
  have hreader : z1.reader = z.reader := by rw [hz1]; rfl
  have hkept : z1.ended = z.ended ∧ z1.answers = z.answers := by rw [hz1]; exact ⟨rfl, rfl⟩
  cases f with
  | late => exact .late hfilled hfills.1 hfills.2
  | stopped =>
    refine .done hshown (.inl rfl) ?_
    rw [← hfilled.pending, ← hfilled.closes, hfills.2.2]
    exact hfills.1.all_eq hfills.2.1 _ _
  | whole =>
    obtain ⟨hlen, hsize⟩ := hfills
    have hhead : z1.head.take z1.haveLen = z1.head :=
      List.take_of_length_le (by rw [hfilled.filling.head]; exact hlen)
    have hpending : pending z = z1.head ++ z1.record.take (z1.haveLen - 5) ++ bytesOf z1.net := by
      rw [← hfilled.pending, pending, parked, hhead]
    dsimp only at hshown ⊢
    by_cases hbad : recLen z1.head = 0 ∨ REC_MAX < recLen z1.head
    · refine .done hshown (.inl (bind_none_of_fst (takeRecord_bad hbad))) ?_
      · rw [hpending, List.append_assoc]
        exact Reader.all_bad hfilled.filling.head hbad
    · have hwhole := hsize.resolve_left hbad
      have hroom : recLen z1.head ≤ z1.record.length := hwhole ▸ hfilled.filling.room
      have hopens := takeRecord_opens (K := K) hbad hroom
      have hbody : (z1.record.take (recLen z1.head)).length = recLen z1.head := by simp [hroom]
      have hall := Reader.all_record (K := K) (closes z.net) z.reader (bytesOf z1.net)
        hfilled.filling.head hbad hbody
      rw [← hwhole, ← hpending, hwhole, Reader.feed, ← hreader] at hall
      rcases hspec : z1.reader.openRecord K z1.head (z1.record.take (recLen z1.head))
        with _ | ⟨type, data, r⟩
      · rw [hspec] at hopens hall
        rw [hreader] at hall
        refine .done hshown ?_ hall
        rcases htake : takeRecord K true z1 with ⟨_ | r, z2⟩
        · exact .inl rfl
        · rw [htake] at hopens
          exact .inr ⟨r, rfl, hopens.resolve_left (by simp)⟩
      · rw [hspec] at hopens hall
        rw [hreader] at hall
        obtain ⟨len, z2, htake, rfl, hfront, hreader2, hrest⟩ := hopens
        rw [bind_of_some htake]
        rw [bind_of_some htake] at hshown
        have hnet : z2.net = z1.net := hrest.net
        refine .came ⟨hshown, ?_, ?_, hrest.haveLen, ?_, hfront, ?_, ?_, ?_, ?_⟩
        · exact hrest.ended.trans (hkept.1.trans hended)
        · exact hrest.answers.trans (hkept.2.trans hanswers)
        · exact (congrArg List.length hrest.head).trans hfilled.filling.head
        · rw [hnet, hfilled.closes]
        · rw [hnet]
          rcases hfilled.moved with hsame | hless
          · rw [hsame] at hlen hwhole
            have := (hparked.short hlen).1
            omega
          · exact hless
        · rw [hnet]
          exact hfilled.prompt
        · rw [hreader2, hnet]
          exact hall

/-! ## A call of `tls_recv` -/

/-- What a call hands over is the front of what there was to hand over. -/
structure Reads (K : Prims) (cap : Nat) (z : Session) (out : Bytes) (z' : Session) : Prop where
  live : Live z'
  front : out ++ (total K z').1 = (total K z).1
  ended : (total K z').2 = (total K z).2
  stays : z.ended = true → z'.ended = true
  prompt : z'.ended = false → .timeout ∉ z.net → .timeout ∉ z'.net
  quiet : 0 < cap → out = [] → z'.app.length ≤ z'.appPos ∧
    (z'.ended = true ∨ (.timeout ∉ z.net → z'.net = []))

section Recv

variable {K : Prims} {z z' : Session} {cap : Nat}

theorem total_of_live (hended : z.ended = false) (happ : z.app.length ≤ z.appPos) :
    total K z = Reader.all K (closes z.net) z.reader (pending z) := by
  simp [total, hended, List.drop_eq_nil_of_le happ]

theorem total_of_ended (hended : z.ended = true) (happ : z.app.length ≤ z.appPos) :
    total K z = ([], true) := by
  simp [total, hended, List.drop_eq_nil_of_le happ]

theorem reads_over (hlive : Live z) (hended : z.ended = false) (happ : z.app.length ≤ z.appPos)
    (hshown : Shown z z') (hended' : z'.ended = true)
    (hall : Reader.all K (closes z.net) z.reader (pending z) = ([], true)) : Reads K cap z [] z' := by
  have happ' : z'.app.length ≤ z'.appPos := by rw [hshown.app, hshown.appPos]; exact happ
  refine ⟨⟨hshown.opened.trans hlive.opened, fun h => ?_⟩, ?_, ?_, fun _ => hended', fun h => ?_,
    fun _ _ => ⟨happ', .inl hended'⟩⟩
  · rw [hended'] at h
    cases h
  · rw [total_of_ended hended' happ', total_of_live hended happ, hall]
    rfl
  · rw [total_of_ended hended' happ', total_of_live hended happ, hall]
  · rw [hended'] at h
    cases h

theorem reads_late (hlive : Live z) (hended : z.ended = false) (hfilled : Filled z z') (hparked : Parked z')
    (hprompt : .timeout ∉ z.net → z'.net = []) (happ : z.app.length ≤ z.appPos) : Reads K cap z [] z' := by
  obtain ⟨net, head, record, haveLen, hz'⟩ := hfilled.rest
  have hended' : z'.ended = false := by rw [hz']; exact hended
  have happ' : z'.app.length ≤ z'.appPos := by rw [hz']; exact happ
  have hreader : z'.reader = z.reader := by rw [hz']; rfl
  have htotal : total K z' = total K z := by
    rw [total_of_live hended' happ', total_of_live hended happ, hfilled.pending, hfilled.closes, hreader]
  refine ⟨⟨?_, fun _ => ⟨?_, hparked⟩⟩, ?_, ?_, fun h => ?_, fun _ => hfilled.prompt,
    fun _ _ => ⟨happ', .inr hprompt⟩⟩
  · rw [hz']
    exact hlive.opened
  · rw [hz']
    exact (hlive.quiet hended).1
  · rw [htotal]
    rfl
  · rw [htotal]
  · rw [hended] at h
    cases h

variable {data : Bytes} {z1 : Session}

theorem Came.live (h : Came K z type data z') (hlive : Live z) : Live z' := by
  exact ⟨h.shown.opened.trans hlive.opened, fun _ => ⟨h.answers, parked_of_zero h.head h.haveLen⟩⟩

theorem pending_of_zero (h : z.haveLen = 0) : pending z = bytesOf z.net := by
  simp [pending, parked, h]

theorem Reads.after {out : Bytes} (hended : z.ended = false) (happ : z.app.length ≤ z.appPos)
    (hended1 : z1.ended = false) (happ1 : z1.app.length ≤ z1.appPos) (hlen1 : z1.haveLen = 0)
    (hclosed : closes z1.net = closes z.net) (hprompt : .timeout ∉ z.net → .timeout ∉ z1.net)
    (hall : Reader.all K (closes z.net) z.reader (pending z) =
      Reader.all K (closes z.net) z1.reader (bytesOf z1.net))
    (h : Reads K cap z1 out z') : Reads K cap z out z' := by
  have htotal : total K z1 = total K z := by
    rw [total_of_live hended1 happ1, total_of_live hended happ, hall, pending_of_zero hlen1, hclosed]
  refine ⟨h.live, htotal ▸ h.front, htotal ▸ h.ended, fun he => absurd he (by simp [hended]), fun he hp => h.prompt he (hprompt hp), fun hcap hout => ?_⟩
  obtain ⟨hdrained, hquiet⟩ := h.quiet hcap hout
  exact ⟨hdrained, hquiet.imp_right fun hq hp => hq (hprompt hp)⟩

theorem handOver_reads (hlive : Live z) (hended : z.ended = false)
    (happ : z.app.length ≤ z.appPos) (hdata : data ≠ []) (h : Came K z REC_APPDATA data z1) :
    ∃ out z', handOver cap data.length z1 = (some out, z') ∧ Reads K cap z out z' := by
  have htake : z1.reader.take K REC_APPDATA data = (.data data, z1.reader) := by
    unfold Reader.take
    rw [if_neg (by decide), if_neg (by decide), if_neg (by simpa using hdata)]
  have hall := h.all
  rw [htake] at hall
  have hlive1 := h.live hlive
  have hnew : total K { z1 with app := data, appPos := min data.length cap } =
      (data.drop (min data.length cap) ++ (Reader.all K (closes z.net) z1.reader (bytesOf z1.net)).1,
        (Reader.all K (closes z.net) z1.reader (bytesOf z1.net)).2) := by
    have hpending : pending { z1 with app := data, appPos := min data.length cap } = bytesOf z1.net :=
      pending_of_zero (z := { z1 with app := data, appPos := min data.length cap }) h.haveLen
    rw [total, hpending, if_neg (by simp [h.ended]), h.closed]
    rfl
  have hsplit : data.take cap ++ data.drop (min data.length cap) = data := by
    rw [List.take_eq_take_min, min_comm, List.take_append_drop]
  unfold handOver
  rw [bind_get, h.front, bind_modify]
  refine ⟨_, _, rfl, ⟨hlive1.opened, fun he => ?_⟩, ?_, ?_, fun he => absurd he (by simp [hended]),
    fun _ => h.prompt, fun hcap hout => ?_⟩
  · obtain ⟨hanswers, hparked⟩ := hlive1.quiet he
    exact ⟨hanswers, ⟨hparked.head, hparked.room, hparked.fits⟩, hparked.short⟩
  · rw [hnew, total_of_live hended happ, hall, ← List.append_assoc, hsplit]
  · rw [hnew, total_of_live hended happ, hall]
  · exfalso
    refine hdata (List.length_eq_zero_iff.mp ?_)
    have := congrArg List.length hout
    rw [List.length_take, List.length_nil] at this
    omega

theorem post_reads (hlive : Live z)
    (hended : z.ended = false) (happ : z.app.length ≤ z.appPos) (hchange : type ≠ REC_CHANGE_CIPHER)
    (hhand : type = REC_HANDSHAKE) (hcame : Came K z type data z1) (hless : netSize z1.net < left)
    (ih : ∀ z2, Live z2 → z2.ended = false → z2.app.length ≤ z2.appPos → netSize z2.net < left →
      ∃ out z', recvLoop K cap left z2 = (some out, z') ∧ Reads K cap z2 out z') :
    ∃ out z', (match (postHandshake K data z1).1 with
      | none => do
        modify fun z => { z with ended := true }
        return []
      | some () => recvLoop K cap left : Act Session Bytes) (postHandshake K data z1).2 = (some out, z') ∧
        Reads K cap z out z' := by
  have hall := hcame.all
  rw [Reader.take, if_neg hchange, if_pos hhand] at hall
  have hposts := postHandshake_posts (K := K) data hcame.answers
  rcases hpost : z1.reader.post K data with _ | r
  · rw [hpost] at hposts hall
    have hnone : (postHandshake K data z1).1 = none := hposts
    have hshown : Shown z (postHandshake K data z1).2 :=
      postHandshake_preserves (shown_rolls K z) data z1 hcame.shown
    rw [hnone]
    exact ⟨[], _, rfl, reads_over hlive hended happ { hshown with } rfl hall⟩
  · rw [hpost] at hposts hall
    obtain ⟨z2, hres, hreader, hrest⟩ := hposts
    have happ2 : z2.app.length ≤ z2.appPos := by
      rw [hrest.app, hrest.appPos, hcame.shown.app, hcame.shown.appPos]
      exact happ
    have hlive1 := hcame.live hlive
    have hlen2 : z2.haveLen = 0 := hrest.haveLen.trans hcame.haveLen
    have hhead2 : z2.head.length = 5 := (congrArg List.length hrest.head).trans hcame.head
    have hlive2 : Live z2 := ⟨hrest.opened.trans hlive1.opened,
      fun _ => ⟨hrest.answers.trans hcame.answers, parked_of_zero hhead2 hlen2⟩⟩
    rw [hres]
    obtain ⟨out, z', hloop, hreads⟩ := ih z2 hlive2 (hrest.ended.trans hcame.ended) happ2
      (by rw [hrest.net]; exact hless)
    refine ⟨out, z', hloop, hreads.after hended happ (hrest.ended.trans hcame.ended) happ2 hlen2 ?_ ?_ ?_⟩
    · rw [hrest.net, hcame.closed]
    · rw [hrest.net]
      exact hcame.prompt
    · rw [hreader, hrest.net]
      exact hall

theorem recvLoop_reads (hlive : Live z) (hended : z.ended = false)
    (happ : z.app.length ≤ z.appPos) (hleft : netSize z.net < left) :
    ∃ out z', recvLoop K cap left z = (some out, z') ∧ Reads K cap z out z' := by
  induction left generalizing z with
  | zero => omega
  | succ left ih =>
    obtain ⟨hanswers, hparked⟩ := hlive.quiet hended
    have hfills := readRecord_says (K := K) hended hanswers hparked
    unfold recvLoop
    rw [bind_of_some (attempt_apply _ _), bind_get]
    generalize readRecord K true z = res at hfills ⊢
    cases hfills with
    | late hfilled hparked' hprompt =>
      exact ⟨[], _, rfl, reads_late hlive hended hfilled hparked' hprompt happ⟩
    | done hshown hres hall =>
      rcases hres with rfl | ⟨r, rfl, hended'⟩
      · exact ⟨[], _, rfl, reads_over hlive hended happ { hshown with } rfl hall⟩
      · refine ⟨[], _, ?_, reads_over hlive hended happ hshown hended' hall⟩
        dsimp only
        rw [if_pos hended']
        rfl
    | @came type data z1 hcame =>
      have happ1 : z1.app.length ≤ z1.appPos := by
        rw [hcame.shown.app, hcame.shown.appPos]
        exact happ
      -- a record that says nothing
      have hnext : z1.reader.take K type data = (.nothing, z1.reader) →
          ∃ out z', recvLoop K cap left z1 = (some out, z') ∧ Reads K cap z out z' := by
        intro hnothing
        have hall := hcame.all
        rw [hnothing] at hall
        obtain ⟨out, z', hloop, hreads⟩ := ih (hcame.live hlive) hcame.ended happ1
          (by have := hcame.less; omega)
        exact ⟨out, z', hloop, hreads.after hended happ hcame.ended happ1 hcame.haveLen hcame.closed
          hcame.prompt hall⟩
      dsimp only
      rw [if_neg (by simp [hcame.ended])]
      by_cases hchange : type = REC_CHANGE_CIPHER
      · rw [if_pos hchange]
        exact hnext (by rw [Reader.take, if_pos hchange])
      · rw [if_neg hchange]
        by_cases hhand : type = REC_HANDSHAKE
        · rw [if_pos hhand, hcame.front, bind_of_some (attempt_apply _ _)]
          exact post_reads hlive hended happ hchange hhand hcame (by have := hcame.less; omega)
            fun z2 => ih
        · rw [if_neg hhand]
          by_cases hskip : type ≠ REC_APPDATA ∨ data.length = 0
          · rw [if_pos hskip]
            refine hnext ?_
            rw [Reader.take, if_neg hchange, if_neg hhand, if_pos (by simpa using hskip)]
          · rw [if_neg hskip]
            obtain ⟨rfl, hdata⟩ : type = REC_APPDATA ∧ data.length ≠ 0 := by
              simpa [not_or] using hskip
            refine handOver_reads hlive hended happ ?_ hcame
            exact fun h => hdata (by simp [h])

theorem tlsRecv_reads (cap : Nat) (hlive : Live z) :
    ∃ out z', tlsRecv K cap z = (some out, z') ∧ Reads K cap z out z' := by
  unfold tlsRecv
  rw [bind_get, if_neg (by simp [hlive.opened])]
  by_cases hmore : z.appPos < z.app.length
  · rw [if_pos hmore, bind_modify]
    have hrest : (z.app.drop z.appPos).take cap ++
        z.app.drop (z.appPos + ((z.app.drop z.appPos).take cap).length) = z.app.drop z.appPos := by
      rw [← List.drop_drop, List.length_take, List.take_eq_take_min, List.take_append_drop]
    have hlater : ∀ appPos, total K { z with appPos } =
        (z.app.drop appPos ++ (if z.ended then ([], true) else
          Reader.all K (closes z.net) z.reader (pending z)).1, (total K z).2) := fun _ => rfl
    refine ⟨_, _, rfl, ⟨hlive.opened, fun h => ?_⟩, ?_, ?_, id, fun _ => id, fun hcap hout => ?_⟩
    · obtain ⟨hanswers, hparked⟩ := hlive.quiet h
      exact ⟨hanswers, ⟨hparked.head, hparked.room, hparked.fits⟩, hparked.short⟩
    · rw [hlater, ← List.append_assoc, hrest]
      rfl
    · rw [hlater]
    · exfalso
      have := congrArg List.length hout
      rw [List.length_take, List.length_drop, List.length_nil] at this
      omega
  · have happ : z.app.length ≤ z.appPos := Nat.le_of_not_lt hmore
    rw [if_neg hmore]
    by_cases hended : z.ended = true
    · rw [if_pos hended]
      exact ⟨[], z, rfl, hlive, rfl, rfl, id, fun _ => id, fun _ _ => ⟨happ, .inl hended⟩⟩
    · rw [if_neg hended]
      exact recvLoop_reads hlive (by simpa using hended) happ (Nat.lt_succ_self _)

/-! ## A call of `tls_send` -/

/-- Everything a reader looks at but the record's buffer. -/
structure Unread (z z' : Session) : Prop where
  reader : z'.reader = z.reader
  opened : z'.opened = z.opened
  ended : z'.ended = z.ended
  app : z'.app = z.app
  appPos : z'.appPos = z.appPos
  net : z'.net = z.net
  head : z'.head = z.head
  haveLen : z'.haveLen = z.haveLen

theorem sendLoop_unread (left : Nat) (data : Bytes) : Preserves (Unread z) (sendLoop K left data) := by
  induction left generalizing data with
  | zero => exact Preserves.pure _
  | succ left ih =>
    refine Preserves.ite (Preserves.pure _) (Preserves.bind ?_ fun _ => ih _)
    exact sendEncrypted_keeps (fun _ _ _ _ _ _ h => { h with }) _ _

theorem tlsSend_unread (data : Bytes) : Preserves (Unread z) (tlsSend K data) :=
  Preserves.bind Preserves.get fun _ => Preserves.ite (sendLoop_unread _ _) Preserves.stop

/-- Nothing of a body is parked, or nothing is sent. -/
def Unharmed (z : Session) (data : Bytes) : Prop := z.haveLen ≤ 5 ∨ data = []

theorem total_congr (hreader : z'.reader = z.reader) (hpending : pending z' = pending z)
    (hnet : closes z'.net = closes z.net) (hended : z'.ended = z.ended) (happ : z'.app = z.app)
    (hpos : z'.appPos = z.appPos) : total K z' = total K z := by
  unfold total
  rw [hreader, hpending, hnet, hended, happ, hpos]

def sendOver (K : Prims) (data : Bytes) (answers : List Bool) (z : Session) : Session :=
  { (tlsSend K data { z with answers }).2 with answers := [] }

theorem sendOver_total {answers : List Bool} (hlive : Live z) (hsafe : Unharmed z data) :
    Live (sendOver K data answers z) ∧ total K (sendOver K data answers z) = total K z := by
  unfold sendOver
  rcases hsafe with hlen | rfl
  · have hstart : Unread z { z with answers } := ⟨rfl, rfl, rfl, rfl, rfl, rfl, rfl, rfl⟩
    have hkept := tlsSend_unread (K := K) data _ hstart
    generalize (tlsSend K data { z with answers }).2 = z1 at hkept ⊢
    have hlen1 : z1.haveLen - 5 = 0 := by rw [hkept.haveLen]; omega
    have hpending : pending { z1 with answers := [] } = pending z := by
      simp only [pending, parked, hkept.head, hkept.haveLen, hkept.net, Nat.sub_eq_zero_of_le hlen,
        List.take_zero]
    refine ⟨⟨hkept.opened.trans hlive.opened, fun he => ⟨rfl, ⟨?_, ?_, ?_⟩, ?_⟩⟩, ?_⟩
    · exact (congrArg List.length hkept.head).trans (hlive.quiet (hkept.ended.symm.trans he)).2.head
    · dsimp only
      rw [hlen1]
      exact Nat.zero_le _
    · dsimp only
      rw [hkept.haveLen]
      omega
    · dsimp only
      rw [hkept.haveLen, hkept.head]
      exact (hlive.quiet (hkept.ended.symm.trans he)).2.short
    · refine total_congr ?_ hpending (congrArg closes hkept.net) hkept.ended hkept.app hkept.appPos
      exact hkept.reader
  · have hnothing : (tlsSend K [] { z with answers }).2 = { z with answers } := by
      unfold tlsSend
      rw [bind_get]
      split_ifs <;> rfl
    rw [hnothing]
    refine ⟨⟨hlive.opened, fun he => ⟨rfl, ?_⟩⟩, total_congr rfl rfl rfl rfl rfl rfl⟩
    have hparked := (hlive.quiet he).2
    exact ⟨⟨hparked.head, hparked.room, hparked.fits⟩, hparked.short⟩

end Recv

/-! ## Whole runs -/

/-- The calls made on a connection, with what `tls_recv` has handed over. Our answers to key updates
go out; what is sent may not. -/
inductive Talk (K : Prims) (ok : Session → Bytes → Prop) (start : Session) : Session → Bytes → Prop
  | start : Talk K ok start start []
  | recv {z : Session} {given : Bytes} (cap : Nat) : Talk K ok start z given →
    Talk K ok start (tlsRecv K cap z).2 (given ++ (tlsRecv K cap z).1.getD [])
  | send {z : Session} {given : Bytes} (data : Bytes) (answers : List Bool) : Talk K ok start z given →
    ok z data → Talk K ok start (sendOver K data answers z) given

/-- Nothing is left to hand over, and nothing more comes. -/
def Done (z : Session) : Prop := z.app.length ≤ z.appPos ∧ (z.ended = true ∨ z.net = [])

def atOnce (net : List Arrival) : List Arrival :=
  .bytes (bytesOf net) :: if closes net then [.gone] else []

def readAll (K : Prims) (cap : Nat) : Nat → Session → Bytes × Session
  | 0, z => ([], z)
  | n + 1, z =>
    let r := tlsRecv K cap z
    let later := readAll K cap n r.2
    (r.1.getD [] ++ later.1, later.2)

section Runs

variable {K : Prims} {z : Session}

theorem Done.total_eq (h : Done z) (hlive : Live z) : total K z = ([], z.ended) := by
  obtain ⟨happ, hend⟩ := h
  rcases Bool.eq_false_or_eq_true z.ended with hended | hended
  · rw [total_of_ended hended happ, hended]
  · have hnet := hend.resolve_left (by simp [hended])
    rw [total_of_live hended happ, (hlive.quiet hended).2.all_eq (by rw [hnet]; rfl), hnet, hended]
    rfl

theorem Talk.keeps {start : Session} {given : Bytes} (h : Talk K Unharmed start z given)
    (hlive : Live start) :
    Live z ∧ given ++ (total K z).1 = (total K start).1 ∧ (total K z).2 = (total K start).2 := by
  induction h with
  | start => exact ⟨hlive, rfl, rfl⟩
  | recv cap _ ih =>
    obtain ⟨hz, hgiven, hended⟩ := ih
    obtain ⟨out, z', hres, hreads⟩ := tlsRecv_reads (K := K) cap hz
    rw [hres]
    refine ⟨hreads.live, ?_, hreads.ended.trans hended⟩
    rw [Option.getD_some, List.append_assoc, hreads.front, hgiven]
  | send data answers _ hok ih =>
    obtain ⟨hz, hgiven, hended⟩ := ih
    obtain ⟨hlive', htotal⟩ := sendOver_total (K := K) hz hok
    rw [htotal]
    exact ⟨hlive', hgiven, hended⟩

theorem readAll_spec {cap n : Nat} (hcap : 0 < cap) (hlive : Live z)
    (hprompt : z.ended = false → .timeout ∉ z.net) (hn : (total K z).1.length < n) :
    (readAll K cap n z).1 = (total K z).1 ∧ (readAll K cap n z).2.ended = (total K z).2 ∧
      Done (readAll K cap n z).2 := by
  induction n generalizing z with
  | zero => omega
  | succ n ih =>
    obtain ⟨out, z', hres, hreads⟩ := tlsRecv_reads (K := K) cap hlive
    unfold readAll
    rw [hres]
    dsimp only [Option.getD_some]
    have hopen : z'.ended = false → z.ended = false := by
      intro he
      by_contra hz
      rw [hreads.stays (by simpa using hz)] at he
      cases he
    have hprompt' : z'.ended = false → .timeout ∉ z'.net := fun he => hreads.prompt he (hprompt (hopen he))
    have hlen := congrArg List.length hreads.front
    rw [List.length_append] at hlen
    rw [← hreads.front, ← hreads.ended]
    by_cases hout : out = []
    · -- nothing came, so nothing is left
      obtain ⟨happ, hquiet⟩ := hreads.quiet hcap hout
      have hdone : Done z' := by
        refine ⟨happ, ?_⟩
        by_cases he : z'.ended = true
        · exact .inl he
        · rw [Bool.not_eq_true] at he
          exact .inr (hquiet.resolve_left (by simp [he]) (hprompt (hopen he)))
      have htotal := hdone.total_eq (K := K) hreads.live
      cases n with
      | zero =>
        rw [htotal, hout]
        exact ⟨rfl, rfl, hdone⟩
      | succ n =>
        obtain ⟨hread, hended, hlast⟩ := ih hreads.live hprompt' (by rw [htotal]; exact Nat.succ_pos n)
        exact ⟨by rw [hread], hended, hlast⟩
    · have hpos := List.length_pos_iff.mpr hout
      obtain ⟨hread, hended, hlast⟩ := ih hreads.live hprompt' (by omega)
      exact ⟨by rw [hread], hended, hlast⟩

theorem bytesOf_atOnce (net : List Arrival) : bytesOf (atOnce net) = bytesOf net := by
  unfold atOnce
  split_ifs <;> simp [bytesOf]

theorem closes_atOnce (net : List Arrival) : closes (atOnce net) = closes net := by
  unfold atOnce
  split_ifs with h <;> simp [closes, h]

/-- However the stream is cut, as long as nothing is sent while part of a record's body is parked, what is handed over is
the front of what is read when all of it is there at once, and all of that when nothing more comes. -/
theorem talk_timing (K : Prims) (start z : Session) (given : Bytes) (hlive : Live start)
    (hrun : Talk K Unharmed start z given) :
    ∃ calls, ∀ cap n, 0 < cap → calls ≤ n →
      let once := readAll K cap n { start with net := atOnce start.net }
      Done once.2 ∧ given <+: once.1 ∧ (Done z → once.1 = given ∧ once.2.ended = z.ended) := by
  obtain ⟨hz, hgiven, hended⟩ := hrun.keeps hlive
  have hlive' : Live { start with net := atOnce start.net } := by
    refine ⟨hlive.opened, fun he => ⟨(hlive.quiet he).1, ?_⟩⟩
    have hparked := (hlive.quiet he).2
    exact ⟨⟨hparked.head, hparked.room, hparked.fits⟩, hparked.short⟩
  have htotal : total K { start with net := atOnce start.net } = total K start := by
    refine total_congr rfl ?_ (closes_atOnce _) rfl rfl rfl
    simp only [pending, bytesOf_atOnce]
    rfl
  have hprompt : Arrival.timeout ∉ atOnce start.net := by
    unfold atOnce
    split_ifs <;> simp
  refine ⟨(total K start).1.length + 1, fun cap n hcap hn => ?_⟩
  obtain ⟨hread, hover, hdone⟩ := readAll_spec hcap hlive' (fun _ => hprompt) (by rw [htotal]; exact hn)
  rw [htotal] at hread hover
  refine ⟨hdone, ⟨(total K z).1, by rw [hread, hgiven]⟩, fun hlast => ?_⟩
  rw [hlast.total_eq hz, List.append_nil] at hgiven
  rw [hlast.total_eq hz] at hended
  exact ⟨by rw [hread, hgiven], by rw [hover, ← hended]⟩

end Runs

/-! ### A record in two pieces -/

def sampleRecord : Bytes := sealedRecord13 REC_APPDATA (ascii "hi")

/-- The header and some of the body come, and later the rest. -/
def sampleCut : Session :=
  { sampleConnected sampleNet13 with
    net := [.bytes (sampleRecord.take 12), .timeout, .bytes (sampleRecord.drop 12)] }

theorem sampleCut_live : Live sampleCut := by
  have hstate : sampleCut.opened = true ∧ sampleCut.answers = [] ∧ sampleCut.head.length = 5 ∧
      sampleCut.haveLen = 0 := by decide +kernel
  obtain ⟨hopened, hanswers, hhead, hlen⟩ := hstate
  exact ⟨hopened, fun _ => ⟨hanswers, parked_of_zero hhead hlen⟩⟩

def sampleHalf : Session := (tlsRecv samplePrims 8 sampleCut).2

def sampleSent : Session := sendOver samplePrims [0] [] sampleHalf

theorem talk_timing_sample : ∃ calls, ∀ cap n, 0 < cap → calls ≤ n →
    (readAll samplePrims cap n { sampleCut with net := atOnce sampleCut.net }).1 = ascii "hi" := by
  have hgiven : [] ++ (tlsRecv samplePrims 8 sampleCut).1.getD [] ++
      (tlsRecv samplePrims 8 sampleHalf).1.getD [] = ascii "hi" := by decide +kernel
  have hdone : Done (tlsRecv samplePrims 8 sampleHalf).2 := by
    unfold Done
    decide +kernel
  obtain ⟨calls, hcalls⟩ := talk_timing samplePrims sampleCut _ _ sampleCut_live
    (.recv 8 (.recv 8 .start))
  refine ⟨calls, fun cap n hcap hn => ?_⟩
  rw [((hcalls cap n hcap hn).2.2 hdone).1]
  exact hgiven

/-- All at once the record is read; a byte sent between its pieces goes out where it is parked, and that is the end. -/
theorem parked_record_lost :
    (readAll samplePrims 8 3 { sampleCut with net := atOnce sampleCut.net }).1 = ascii "hi" ∧
      Done (readAll samplePrims 8 3 { sampleCut with net := atOnce sampleCut.net }).2 ∧
      Live sampleCut ∧
      ∃ z, Talk samplePrims (fun _ _ => True) sampleCut z [] ∧ Done z ∧ z.ended = true := by
  have hlost : [] ++ (tlsRecv samplePrims 8 sampleCut).1.getD [] ++
      (tlsRecv samplePrims 8 sampleSent).1.getD [] = [] := by decide +kernel
  have hhalf : Talk samplePrims (fun _ _ => True) sampleCut sampleHalf _ := .recv 8 .start
  have hsent : Talk samplePrims (fun _ _ => True) sampleCut sampleSent _ := .send [0] [] hhalf trivial
  refine ⟨by decide +kernel, ?_, sampleCut_live, (tlsRecv samplePrims 8 sampleSent).2, ?_, ?_, ?_⟩
  · unfold Done
    decide +kernel
  · rw [← hlost]
    exact .recv 8 hsent
  · unfold Done
    decide +kernel
  · decide +kernel

end Zelr.Tls
