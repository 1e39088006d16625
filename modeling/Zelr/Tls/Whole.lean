import Zelr.Tls.Timing

/-!
# A record read whole

When all of a record is on its way, `read_record` takes it and nothing else, and comes to what the reader
makes of it.
-/

namespace Zelr.Tls

open Act

variable {K : Prims} {z z' : Session} {head body s : Bytes} {encrypted : Bool}

/-- A record on the wire: a header, and a body as long as it says, of a size that is possible. -/
structure IsRecord (head body : Bytes) : Prop where
  five : head.length = 5
  size : body.length = recLen head
  pos : 0 < body.length
  fits : body.length ≤ REC_MAX

theorem IsRecord.possible (h : IsRecord head body) : ¬ (recLen head = 0 ∨ REC_MAX < recLen head) := by
  have hpos := h.pos
  have hfits := h.fits
  rw [h.size] at hpos hfits
  omega

theorem Parked.ne_record (h : Parked z) (hnet : bytesOf z.net = []) (hrec : IsRecord head body) :
    pending z ≠ head ++ body ++ s := by
  intro heq
  rw [pending, hnet, List.append_nil, parked] at heq
  have hlen := congrArg List.length heq
  simp only [List.length_append, List.length_take, hrec.five] at hlen
  have hroom := h.room
  have hhead := h.head
  by_cases hshort : z.haveLen < 5
  · omega
  · have hmore := (h.short (by omega)).1
    rw [List.take_of_length_le (by omega), List.append_assoc] at heq
    have hsame := (List.append_inj heq (hhead.trans hrec.five.symm)).1
    rw [hsame, ← hrec.size] at hmore
    omega

theorem fillRecord_whole (hparked : Parked z) (hprompt : .timeout ∉ z.net) (hrec : IsRecord head body)
    (hpending : pending z = head ++ body ++ s) :
    ∃ net record, fillRecord z = (some .whole, { z with net, head, record, haveLen := 5 + body.length }) ∧
      record.take body.length = body ∧ body.length ≤ record.length ∧ bytesOf net = s ∧ .timeout ∉ net ∧
      netSize net < netSize z.net := by
  obtain ⟨hfilled, hfills⟩ := fillLoop_spec hparked.toFilling (Nat.lt_succ_self (netSize z.net))
  have hfill : fillRecord z = (some (fillLoop (netSize z.net + 1) z).1, (fillLoop (netSize z.net + 1) z).2) := rfl
  rw [hfill]
  generalize fillLoop (netSize z.net + 1) z = filled at *
  obtain ⟨f, z1⟩ := filled
  dsimp only at hfilled hfills ⊢
  have hpending1 := hfilled.pending.trans hpending
  cases f with
  | late => exact absurd hpending1 (hfills.1.ne_record (by rw [hfills.2 hprompt]; rfl) hrec)
  | stopped => exact absurd hpending1 (hfills.1.ne_record hfills.2.1 hrec)
  | whole =>
    obtain ⟨hlen, hsize⟩ := hfills
    have hhead := hfilled.filling.head
    have hroom := hfilled.filling.room
    rw [pending, parked, List.take_of_length_le (by omega), List.append_assoc, List.append_assoc] at hpending1
    obtain ⟨hsame, hrest⟩ := List.append_inj hpending1 (hhead.trans hrec.five.symm)
    rw [hsame, ← hrec.size] at hsize
    have hlen1 : z1.haveLen - 5 = body.length := by
      rcases hsize with hbad | hwhole
      · have := hrec.possible
        rw [← hrec.size] at this
        exact absurd hbad this
      · exact hwhole
    rw [hlen1] at hrest hroom
    obtain ⟨hbody, hs⟩ := List.append_inj hrest (by rw [List.length_take, Nat.min_eq_left hroom])
    refine ⟨z1.net, z1.record, ?_, hbody, hroom, hs, hfilled.prompt hprompt, ?_⟩
    · obtain ⟨net, head', record, haveLen, hz1⟩ := hfilled.rest
      have hhave : z1.haveLen = 5 + body.length := by omega
      rw [← hsame, ← hhave, hz1]
    · refine hfilled.moved.resolve_left ?_
      rintro rfl
      have hmore := (hparked.short hlen).1
      rw [hsame, ← hrec.size] at hmore
      omega

/-! ## What it comes to -/

/-- `openRecord` where 1.3 has no keys yet: records but a change of cipher come as they are. -/
def Reader.openAs (K : Prims) (encrypted : Bool) (r : Reader) (head body : Bytes) :
    Option (UInt8 × Bytes × Reader) :=
  if r.v12 = false ∧ encrypted = false ∧ byteAt head 0 ≠ REC_CHANGE_CIPHER then
    if byteAt head 0 = REC_ALERT then none else some (byteAt head 0, body, r)
  else r.openRecord K head body

theorem takeRecord_sealed (h : z.v12 = true ∨ encrypted = true ∨ byteAt z.head 0 = REC_CHANGE_CIPHER) :
    takeRecord K encrypted z = takeRecord K true z := by
  unfold takeRecord
  rw [bind_get, bind_get]
  rcases h with h | h | h
  · simp only [h, if_true]
  · rw [h]
  · simp only [h, if_true]

theorem takeRecord_clear (hv12 : z.v12 = false) (htype : byteAt z.head 0 ≠ REC_CHANGE_CIPHER)
    (hsize : ¬ (recLen z.head = 0 ∨ REC_MAX < recLen z.head)) (hroom : recLen z.head ≤ z.record.length) :
    Opens { z with haveLen := 0 } (takeRecord K false z)
      (if byteAt z.head 0 = REC_ALERT then none
        else some (byteAt z.head 0, z.record.take (recLen z.head), z.reader)) := by
  have hbad : (recLen z.head == 0 || decide (REC_MAX < recLen z.head)) = false := by
    simpa [not_or] using hsize
  have henc : (if z.v12 = true then z.sSealed else false) = false := by rw [hv12]; rfl
  unfold takeRecord
  rw [bind_get, bind_of_some (refuseIf_false hbad), bind_modify, if_neg htype, henc]
  by_cases halert : byteAt z.head 0 = REC_ALERT
  · rw [if_pos ⟨halert, rfl⟩, if_pos halert]
    exact .inl rfl
  · rw [if_neg (fun h => halert h.1), if_pos rfl, if_neg halert]
    exact ⟨_, _, rfl, by rw [List.length_take, Nat.min_eq_left hroom], rfl, rfl, Resting.refl _⟩

theorem takeRecord_openAs (hsize : ¬ (recLen z.head = 0 ∨ REC_MAX < recLen z.head))
    (hroom : recLen z.head ≤ z.record.length) :
    Opens { z with haveLen := 0 } (takeRecord K encrypted z)
      (z.reader.openAs K encrypted z.head (z.record.take (recLen z.head))) := by
  unfold Reader.openAs
  by_cases hclear : z.reader.v12 = false ∧ encrypted = false ∧ byteAt z.head 0 ≠ REC_CHANGE_CIPHER
  · obtain ⟨hv12, rfl, htype⟩ := hclear
    rw [if_pos ⟨hv12, rfl, htype⟩]
    exact takeRecord_clear hv12 htype hsize hroom
  · rw [if_neg hclear, takeRecord_sealed]
    · exact takeRecord_opens hsize hroom
    · by_contra hnot
      simp only [not_or, Bool.not_eq_true] at hnot
      exact hclear hnot

/-- A record that came: its data, and what is left to read after it. -/
structure Gave (z z' : Session) (head s data : Bytes) (r : Reader) : Prop where
  front : z'.record.take data.length = data
  reader : z'.reader = r
  head : z'.head = head
  haveLen : z'.haveLen = 0
  bytes : bytesOf z'.net = s
  prompt : .timeout ∉ z'.net
  less : netSize z'.net < netSize z.net
  ended : z'.ended = z.ended
  answers : z'.answers = z.answers

theorem readRecord_openAs (hparked : Parked z) (hprompt : .timeout ∉ z.net) (hrec : IsRecord head body)
    (hpending : pending z = head ++ body ++ s) :
    match z.reader.openAs K encrypted head body with
    | none => (readRecord K encrypted z).1 = none ∨ (readRecord K encrypted z).2.ended = true
    | some (type, data, r) => ∃ z', readRecord K encrypted z = (some (some (type, data.length)), z') ∧
        Gave z z' head s data r := by
  obtain ⟨net, record, hfill, hbody, hroom, hs, hprompt', hless⟩ := fillRecord_whole hparked hprompt hrec hpending
  have hopens := @takeRecord_openAs K { z with net, head, record, haveLen := 5 + body.length } encrypted hrec.possible
    (hrec.size ▸ hroom)
  dsimp only at hopens
  rw [← hrec.size, hbody] at hopens
  have hreader : ({ z with net, head, record, haveLen := 5 + body.length } : Session).reader = z.reader := rfl
  rw [hreader] at hopens
  unfold readRecord
  rw [bind_of_some hfill, bind_get]
  dsimp only
  generalize z.reader.openAs K encrypted head body = spec at hopens ⊢
  rcases spec with _ | ⟨type, data, r⟩
  · rcases htake : takeRecord K encrypted { z with net, head, record, haveLen := 5 + body.length } with ⟨_ | r, z2⟩
    · exact .inl (bind_none_of_fst (by rw [htake]))
    · rw [htake] at hopens
      rw [bind_of_some htake]
      exact .inr (hopens.resolve_left (by simp))
  · obtain ⟨len, z', htake, rfl, hdata, hr, hrest⟩ := hopens
    rw [bind_of_some htake]
    refine ⟨z', rfl, hdata, hr, hrest.head, hrest.haveLen, ?_, ?_, ?_, hrest.ended, hrest.answers⟩
    · rw [hrest.net]
      exact hs
    · rw [hrest.net]
      exact hprompt'
    · rw [hrest.net]
      exact hless

theorem Gave.parked {data : Bytes} {r : Reader} (h : Gave z z' head s data r) (hhead : head.length = 5) : Parked z' :=
  parked_of_zero (h.head ▸ hhead) h.haveLen

theorem Gave.pending {data : Bytes} {r : Reader} (h : Gave z z' head s data r) : pending z' = s :=
  (pending_of_zero h.haveLen).trans h.bytes

end Zelr.Tls
