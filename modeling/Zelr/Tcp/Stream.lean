import Mathlib.Data.List.Infix
import Zelr.Tcp.Model

/-!
# The receive side of a connection hands over the peer's stream

Positions in the peer's stream are natural numbers. `Right` says where the bytes of the stream are:
some were given to the reader, some wait at the front of the buffer, and some sit past a hole.
-/

namespace Zelr.Tcp

/-! ## Runs -/

/-- The segment is the stretch of the peer's stream that starts at `off`. -/
structure TrueSlice (isn : U32) (stream : Bytes) (off : Nat) (s : Segment) : Prop where
  seq : s.seq = seqAt isn off
  inside : off + s.data.length ≤ stream.length
  data : s.data <+: stream.drop off
  no_rst : s.flags &&& TH_RST = 0
  fin : s.flags &&& TH_FIN ≠ 0 → off + s.data.length = stream.length

/-- A connection as the handshake leaves it, with `isn` the number of the peer's first byte. -/
structure Fresh (isn : U32) (c : Conn) : Prop where
  opened : c.state = .opened
  next : c.rcvNxt = isn
  no_fin : c.gotFin = false
  no_finHeld : c.finHeld = false
  acked : c.rtPending = false
  cap : c.rxbuf.length = RXCAP
  empty : c.rxlen = 0
  none_held : c.held = []

/-- Two positions whose numbers compare as they do. -/
def Near (next off : Nat) : Prop := next < off + 2 ^ 31 ∧ off < next + 2 ^ 31

/-- What a connection and its reader come to, by any order of arrivals, of the timer and of reads.
`ok` says which segments may arrive, by the next position expected and the one they start at. -/
inductive Run (ok : Nat → Nat → Prop) (isn : U32) (stream : Bytes) : Conn → Bytes → Prop
  | start {c} : Fresh isn c → Run ok isn stream c []
  | segment {c c' given s off} : Run ok isn stream c given → TrueSlice isn stream off s →
      ok (given.length + c.rxlen) off → tcpInput c s = some c' → Run ok isn stream c' given
  | pump {c given} (now : Nat) : Run ok isn stream c given →
      Run ok isn stream (pumpOne { c with clock := now }) given
  | recv {c c' given out} (cap : Nat) : Run ok isn stream c given → tcpRecv c cap = some (out, c') →
      Run ok isn stream c' (given ++ out)

/-! ## The invariant -/

/-- The buffer, whose first byte is at position `base`, holds positions `p` up to `q` right. -/
def Holds (stream buf : Bytes) (base p q : Nat) : Prop :=
  ∀ k, p ≤ k → k < q → buf[k - base]? = stream[k]?

/-- A stretch past a hole: from position `low` or later, inside the window, and right. -/
def Stretch (isn : U32) (stream buf : Bytes) (base low : Nat) (e : U32 × U32) : Prop :=
  ∃ p q, e = (seqAt isn p, seqAt isn q) ∧ low ≤ p ∧ p ≤ q ∧ q ≤ stream.length ∧
    q ≤ base + RXCAP ∧ Holds stream buf base p q

/-- `base` bytes were given to the reader, the buffer has the ones after them ready, and what is
kept past a hole starts at position `low` or later. -/
structure Right (isn : U32) (stream : Bytes) (base low : Nat) (c : Conn) : Prop where
  cap : c.rxbuf.length = RXCAP
  fits : c.rxlen ≤ RXCAP
  inside : base + c.rxlen ≤ stream.length
  next : c.rcvNxt = seqAt isn (base + c.rxlen)
  ready : Holds stream c.rxbuf base base (base + c.rxlen)
  ahead : ∀ e ∈ c.held, Stretch isn stream c.rxbuf base low e
  slots : c.held.length ≤ TCP_HELD

/-! ## The stretches past a hole -/

theorem unhold_length (held : List (U32 × U32)) (i : Nat) : (unhold held i).length = held.length - 1 := by
  simp [unhold]

theorem mem_of_mem_unhold {held : List (U32 × U32)} {i : Nat} {e : U32 × U32}
    (h : e ∈ unhold held i) : e ∈ held := by
  have hset := List.dropLast_subset _ h
  rcases List.mem_or_eq_of_mem_set hset with he | he
  · exact he
  · have hne : held ≠ [] := by
      rintro rfl
      simp [unhold] at h
    rw [he, List.getLastD_eq_getLast?, List.getLast?_eq_some_getLast hne]
    exact List.getLast_mem hne

theorem Holds.union {stream buf : Bytes} {base p q p' q' : Nat} (h : Holds stream buf base p q)
    (h' : Holds stream buf base p' q') (hle : p ≤ q') (hle' : p' ≤ q) :
    Holds stream buf base (min p p') (max q q') := by
  intro k hlo hhi
  by_cases hin : p ≤ k ∧ k < q
  · exact h k hin.1 hin.2
  · exact h' k (by omega) (by omega)

theorem Holds.extend {stream buf : Bytes} {base p q r : Nat} (h : Holds stream buf base p q)
    (h' : Holds stream buf base q r) : Holds stream buf base p r := by
  intro k hlo hhi
  rcases Nat.lt_or_ge k q with hlt | hge
  · exact h k hlo hlt
  · exact h' k hge hhi

section Stretches

variable {isn : U32} {stream buf : Bytes} {base low : Nat}

theorem window_diff (base : Nat) {p q : Nat} (hp : base ≤ p) (hp' : p ≤ base + RXCAP) (hq : base ≤ q)
    (hq' : q ≤ base + RXCAP) : (seqAt isn p - seqAt isn q).toInt = (p : Int) - q := by
  unfold RXCAP at hp' hq'
  exact seqAt_diff isn p q (by omega) (by omega)

theorem Stretch.merge (hbase : base ≤ low) {lo hi l h : U32}
    (hnew : Stretch isn stream buf base low (lo, hi)) (hold : Stretch isn stream buf base low (l, h))
    (htouch : (lo - h).toInt ≤ 0 ∧ (l - hi).toInt ≤ 0) :
    Stretch isn stream buf base low
      (if (l - lo).toInt < 0 then l else lo, if 0 < (h - hi).toInt then h else hi) := by
  obtain ⟨p, q, hpq, hp, hle, hq, hwin, hright⟩ := hnew
  obtain ⟨p', q', hpq', hp', hle', hq', hwin', hright'⟩ := hold
  obtain ⟨rfl, rfl⟩ := Prod.mk.inj hpq
  obtain ⟨rfl, rfl⟩ := Prod.mk.inj hpq'
  rw [window_diff base (by omega) (by omega) (by omega) hwin',
    window_diff base (by omega) (by omega) (by omega) hwin] at htouch
  rw [window_diff base (by omega) (by omega) (by omega) (by omega),
    window_diff base (by omega) hwin' (by omega) hwin]
  refine ⟨min p p', max q q', ?_, by omega, by omega, by omega, by omega,
    hright.union hright' (by omega) (by omega)⟩
  have hlo : (if (p' : Int) - p < 0 then seqAt isn p' else seqAt isn p) = seqAt isn (min p p') := by
    split_ifs <;> congr 1 <;> omega
  have hhi : (if 0 < (q' : Int) - q then seqAt isn q' else seqAt isn q) = seqAt isn (max q q') := by
    split_ifs <;> congr 1 <;> omega
  rw [hlo, hhi]

theorem holdLoop_spec (hbase : base ≤ low) (left i : Nat) (held : List (U32 × U32)) (lo hi : U32)
    (hheld : ∀ e ∈ held, Stretch isn stream buf base low e)
    (hnew : Stretch isn stream buf base low (lo, hi)) :
    (∀ e ∈ (holdLoop left i held lo hi).1, Stretch isn stream buf base low e) ∧
      (holdLoop left i held lo hi).1.length ≤ held.length ∧
      Stretch isn stream buf base low (holdLoop left i held lo hi).2 := by
  induction left generalizing i held lo hi with
  | zero => exact ⟨hheld, le_refl _, hnew⟩
  | succ left ih =>
    unfold holdLoop
    split
    · exact ⟨hheld, le_refl _, hnew⟩
    · next l h hat =>
      split
      · next htouch =>
        have hin : Stretch isn stream buf base low (l, h) := hheld _ (List.mem_of_getElem? hat)
        obtain ⟨hall, hlen, hlast⟩ := ih i (unhold held i) _ _
          (fun e he => hheld e (mem_of_mem_unhold he)) (hnew.merge hbase hin htouch)
        refine ⟨hall, ?_, hlast⟩
        rw [unhold_length] at hlen
        omega
      · exact ih (i + 1) held lo hi hheld hnew

end Stretches

/-! ## Taking bytes in -/

section Taking

variable {isn : U32} {stream : Bytes} {base low : Nat} {c : Conn}

theorem Stretch.low_le {buf : Bytes} {low' : Nat} {e : U32 × U32} (hlow : low' ≤ low)
    (h : Stretch isn stream buf base low e) : Stretch isn stream buf base low' e := by
  obtain ⟨p, q, hpq, hp, hrest⟩ := h
  exact ⟨p, q, hpq, by omega, hrest⟩

theorem hold_spec (hbase : base ≤ low) (hc : Right isn stream base low c) {lo hi : U32}
    (hnew : Stretch isn stream c.rxbuf base low (lo, hi)) : Right isn stream base low (hold c lo hi) := by
  obtain ⟨hall, hlen, hlast⟩ := holdLoop_spec hbase c.held.length 0 c.held lo hi hc.ahead hnew
  have hslots := hc.slots
  refine { hc with ahead := ?_, slots := ?_ }
  · intro e he
    simp only [hold] at he
    split at he
    · rcases List.mem_append.mp he with he | he
      · exact hall e he
      · rw [List.mem_singleton.mp he]
        exact hlast
    · exact hall e he
  · simp only [hold]
    split
    · rw [List.length_append, List.length_singleton]
      omega
    · omega

def SameEnds (c c' : Conn) : Prop :=
  c'.state = c.state ∧ c'.gotFin = c.gotFin ∧ c'.finHeld = c.finHeld ∧ c'.finAt = c.finAt ∧
    c'.rtPending = c.rtPending

theorem SameEnds.trans {c c' c'' : Conn} (h : SameEnds c c') (h' : SameEnds c' c'') :
    SameEnds c c'' := by
  obtain ⟨h1, h2, h3, h4, h5⟩ := h
  obtain ⟨h1', h2', h3', h4', h5'⟩ := h'
  exact ⟨h1'.trans h1, h2'.trans h2, h3'.trans h3, h4'.trans h4, h5'.trans h5⟩

theorem reach_held (c : Conn) (hi : U32) : (reach c hi).held = c.held := by
  unfold reach
  dsimp only
  split <;> rfl

theorem reach_same (c : Conn) (hi : U32) : c.rxlen ≤ (reach c hi).rxlen ∧ SameEnds c (reach c hi) := by
  unfold reach
  dsimp only
  split
  · exact ⟨Nat.le_add_right _ _, rfl, rfl, rfl, rfl, rfl⟩
  · exact ⟨le_refl _, rfl, rfl, rfl, rfl, rfl⟩

theorem reach_spec (hc : Right isn stream base base c) {e : U32 × U32} (he : e ∈ c.held)
    (hle : (e.1 - c.rcvNxt).toInt ≤ 0) : Right isn stream base base (reach c e.2) := by
  obtain ⟨p, q, rfl, hp, hpq, hq, hwin, hright⟩ := hc.ahead e he
  have hfits := hc.fits
  have hp' : p ≤ base + c.rxlen := by
    rw [hc.next, window_diff base hp (by omega) (by omega) (by omega)] at hle
    omega
  have hdiff : (seqAt isn q - c.rcvNxt).toInt = (q : Int) - (base + c.rxlen : Nat) := by
    rw [hc.next, window_diff base (by omega) hwin (by omega) (by omega)]
  unfold reach
  dsimp only
  rw [hdiff]
  split_ifs with hpos
  · have hnat : (seqAt isn q - c.rcvNxt).toNat = q - (base + c.rxlen) := by
      rw [hc.next]
      exact seqAt_ahead isn q (base + c.rxlen) (by omega) (by unfold RXCAP at hwin; omega)
    have hend : base + (c.rxlen + (seqAt isn q - c.rcvNxt).toNat) = q := by omega
    refine ⟨hc.cap, by dsimp only; omega, by dsimp only; omega, ?_, ?_, hc.ahead, hc.slots⟩
    · dsimp only
      rw [hend, BitVec.add_comm]
      exact BitVec.sub_add_cancel _ _
    · dsimp only
      rw [hend]
      intro k hlo hhi
      rcases Nat.lt_or_ge k (base + c.rxlen) with hlt | hge
      · exact hc.ready k hlo hlt
      · exact hright k (by omega) hhi
  · exact hc

theorem Right.unhold (hc : Right isn stream base low c) (i : Nat) :
    Right isn stream base low { c with held := unhold c.held i } := by
  refine { hc with ahead := fun e he => hc.ahead e (mem_of_mem_unhold he), slots := ?_ }
  rw [unhold_length]
  exact le_trans (Nat.sub_le _ _) hc.slots

theorem absorbLoop_spec (left : Nat) (hc : Right isn stream base base c) (hleft : c.held.length ≤ left) :
    Right isn stream base (base + (absorbLoop left c).rxlen + 1) (absorbLoop left c) ∧
      c.rxlen ≤ (absorbLoop left c).rxlen ∧ SameEnds c (absorbLoop left c) := by
  induction left generalizing c with
  | zero =>
    have hnil : c.held = [] := List.eq_nil_of_length_eq_zero (by omega)
    refine ⟨{ hc with ahead := ?_ }, le_refl _, rfl, rfl, rfl, rfl, rfl⟩
    intro e he
    simp [absorbLoop, hnil] at he
  | succ left ih =>
    unfold absorbLoop
    split
    · next hnone =>
      refine ⟨{ hc with ahead := ?_ }, le_refl _, rfl, rfl, rfl, rfl, rfl⟩
      intro e he
      obtain ⟨p, q, rfl, hp, hrest⟩ := hc.ahead e he
      refine ⟨p, q, rfl, ?_, hrest⟩
      have hfits := hc.fits
      have hnot := List.findIdx?_eq_none_iff.mp hnone _ he
      rw [hc.next, window_diff base hp (by omega) (by omega) (by omega)] at hnot
      simp only [decide_eq_false_iff_not] at hnot
      omega
    · next i hi =>
      obtain ⟨hlt, hle, -⟩ := List.findIdx?_eq_some_iff_getElem.mp hi
      have hget : c.held.getD i (0, 0) = c.held[i] := by simp [List.getD, hlt]
      rw [← hget] at hle
      have hmem : c.held.getD i (0, 0) ∈ c.held := hget ▸ List.getElem_mem hlt
      have hstep := (reach_spec hc hmem (of_decide_eq_true hle)).unhold i
      obtain ⟨hmore, hends⟩ := reach_same c (c.held.getD i (0, 0)).2
      obtain ⟨hright, hgrow, hsame⟩ := ih hstep (by
        rw [unhold_length, reach_held]
        omega)
      exact ⟨hright, le_trans hmore hgrow, hends.trans hsame⟩

/-- What `c` and `c'` have to agree on for the same bytes to be right in both. -/
def SameBytes (c c' : Conn) : Prop :=
  c'.rxbuf = c.rxbuf ∧ c'.rxlen = c.rxlen ∧ c'.rcvNxt = c.rcvNxt ∧ c'.held = c.held

theorem Right.of_sameBytes {c' : Conn} (hc : Right isn stream base low c) (h : SameBytes c c') :
    Right isn stream base low c' := by
  obtain ⟨hbuf, hlen, hnext, hheld⟩ := h
  obtain ⟨h1, h2, h3, h4, h5, h6, h7⟩ := hc
  exact ⟨by rwa [hbuf], by rwa [hlen], by rwa [hlen], by rwa [hnext, hlen], by rwa [hbuf, hlen],
    by rwa [hbuf, hheld], by rwa [hheld]⟩

variable {data out : Bytes} {pos : Nat}

theorem Holds.of_blit {buf : Bytes} (hpos : base ≤ pos)
    (hdata : data <+: stream.drop pos) (hout : blit buf (pos - base) data = some out) :
    Holds stream out base pos (pos + data.length) := by
  intro k hlo hhi
  rw [blit_inside hout (by omega) (by omega)]
  have hk : k - base - (pos - base) < data.length := by omega
  have hget := List.prefix_iff_getElem?.mp hdata _ hk
  rw [List.getElem?_eq_getElem hk, ← hget, List.getElem?_drop]
  congr 1
  omega

theorem Holds.after_blit {buf : Bytes} {p q : Nat} (h : Holds stream buf base p q)
    (hp : base ≤ p) (hpos : base ≤ pos) (hdata : data <+: stream.drop pos)
    (hout : blit buf (pos - base) data = some out) : Holds stream out base p q := by
  intro k hlo hhi
  by_cases hin : pos ≤ k ∧ k < pos + data.length
  · exact Holds.of_blit hpos hdata hout k hin.1 hin.2
  · rw [blit_outside hout (by omega)]
    exact h k hlo hhi

theorem Right.after_blit (hc : Right isn stream base low c)
    (hlow : base ≤ low) (hpos : base ≤ pos) (hdata : data <+: stream.drop pos)
    (hout : blit c.rxbuf (pos - base) data = some out) :
    Right isn stream base low { c with rxbuf := out } := by
  refine { hc with cap := ?_, ready := ?_, ahead := ?_ }
  · rw [← hc.cap]
    exact blit_length hout
  · exact hc.ready.after_blit (le_refl _) hpos hdata hout
  · intro e he
    obtain ⟨p, q, hpq, hp, hle, hq, hwin, hright⟩ := hc.ahead e he
    exact ⟨p, q, hpq, hp, hle, hq, hwin, hright.after_blit (by omega) hpos hdata hout⟩

theorem takeAt_spec {off : Nat} (hc : Right isn stream base (base + c.rxlen + 1) c)
    (hdata : data <+: stream.drop (base + c.rxlen + off))
    (hin : base + c.rxlen + off + data.length ≤ stream.length) :
    ∃ c', takeAt c off data = some c' ∧ Right isn stream base (base + c'.rxlen + 1) c' ∧
      c.rxlen ≤ c'.rxlen ∧ SameEnds c c' := by
  have hfits := hc.fits
  have hcap := hc.cap
  unfold takeAt
  dsimp only
  by_cases hroom : off < RXCAP - c.rxlen
  · rw [if_pos hroom]
    set n := min data.length (RXCAP - c.rxlen - off) with hn
    have hlen : (data.take n).length = n := by simp; omega
    have hpart : data.take n <+: stream.drop (base + c.rxlen + off) := (List.take_prefix n data).trans hdata
    obtain ⟨out, hout⟩ : ∃ out, blit c.rxbuf (c.rxlen + off) (data.take n) = some out :=
      ⟨_, blit_eq_some (by rw [hlen, hcap]; omega)⟩
    have hout' : blit c.rxbuf (base + c.rxlen + off - base) (data.take n) = some out := by
      rw [show base + c.rxlen + off - base = c.rxlen + off by omega]
      exact hout
    have hright := hc.after_blit (by omega) (by omega) hpart hout'
    have hnew : Holds stream out base (base + c.rxlen + off) (base + c.rxlen + off + n) := by
      have h := Holds.of_blit (by omega) hpart hout'
      rwa [hlen] at h
    simp only [hout, Option.bind_eq_bind, Option.bind_some]
    by_cases hzero : off = 0
    · rw [if_pos hzero]
      subst hzero
      have hgrown : Right isn stream base base
          { c with rxbuf := out, rxlen := c.rxlen + n, rcvNxt := c.rcvNxt + BitVec.ofNat 32 n } := by
        refine ⟨hright.cap, by simp only; omega, by simp only; omega, ?_, ?_, ?_, hright.slots⟩
        · simp only [hc.next, seqAt_add, Nat.add_assoc]
        · simp only [← Nat.add_assoc]
          exact hright.ready.extend hnew
        · exact fun e he => (hright.ahead e he).low_le (by omega)
      obtain ⟨habs, hgrow, hsame⟩ := absorbLoop_spec _ hgrown (le_refl _)
      exact ⟨_, rfl, habs, le_trans (Nat.le_add_right _ n) hgrow, hsame⟩
    · rw [if_neg hzero]
      refine ⟨_, rfl, hold_spec (by omega) hright ?_, le_refl _, rfl, rfl, rfl, rfl, rfl⟩
      refine ⟨base + c.rxlen + off, base + c.rxlen + off + n, ?_, by omega, by omega,
        by omega, by omega, hnew⟩
      simp only [hc.next, seqAt_add]
  · rw [if_neg hroom]
    exact ⟨c, rfl, hc, le_refl _, rfl, rfl, rfl, rfl, rfl⟩

/-! ## What answering the peer leaves alone -/

def SameRx (c c' : Conn) : Prop := SameBytes c c' ∧ SameEnds c c'

theorem emit_same (c : Conn) (seq : U32) (flags : UInt8) (data : Bytes) : SameRx c (emit c seq flags data) := by
  unfold emit
  extract_lets opts
  split_ifs <;> exact ⟨⟨rfl, rfl, rfl, rfl⟩, rfl, rfl, rfl, rfl, rfl⟩

theorem take_spec {off : Nat} {seq : U32}
    (hc : Right isn stream base (base + c.rxlen + 1) c) (hnear : Near (base + c.rxlen) off)
    (hseq : seq = seqAt isn off) (hdata : data <+: stream.drop off)
    (hin : off + data.length ≤ stream.length) :
    ∃ c', take c seq data = some c' ∧ Right isn stream base (base + c'.rxlen + 1) c' ∧
      c.rxlen ≤ c'.rxlen ∧ SameEnds c c' := by
  obtain ⟨hlo, hhi⟩ := hnear
  have hdiff : (seq - c.rcvNxt).toInt = (off : Int) - (base + c.rxlen : Nat) := by
    rw [hseq, hc.next]
    exact seqAt_diff isn _ _ (by omega) (by omega)
  -- Whatever was taken, the answer to it changes nothing.
  have hack : ∀ {r : Option Conn}, (∃ c', r = some c' ∧ Right isn stream base (base + c'.rxlen + 1) c' ∧
      c.rxlen ≤ c'.rxlen ∧ SameEnds c c') →
      ∃ c', r.map sendAck = some c' ∧ Right isn stream base (base + c'.rxlen + 1) c' ∧
        c.rxlen ≤ c'.rxlen ∧ SameEnds c c' := by
    rintro r ⟨c', rfl, hright, hgrow, hsame⟩
    obtain ⟨hbytes, hends⟩ := emit_same c' c'.sndNxt TH_ACK []
    have hlen : (sendAck c').rxlen = c'.rxlen := hbytes.2.1
    exact ⟨sendAck c', rfl, by rw [hlen]; exact hright.of_sameBytes hbytes, by omega, hsame.trans hends⟩
  unfold take
  dsimp only
  rw [hdiff]
  split_ifs with hneg hold
  · exact hack (r := some c) ⟨c, rfl, hc, le_refl _, rfl, rfl, rfl, rfl, rfl⟩
  · apply hack
    set k := ((off : Int) - (base + c.rxlen : Nat)).natAbs with hk
    have hpos : off + k = base + c.rxlen := by omega
    apply takeAt_spec hc
    · rw [Nat.add_zero, ← hpos, ← List.drop_drop]
      exact hdata.drop k
    · rw [List.length_drop]
      omega
  · apply hack
    have hpos : base + c.rxlen + ((off : Int) - (base + c.rxlen : Nat)).toNat = off := by omega
    apply takeAt_spec hc
    · rwa [hpos]
    · rwa [hpos]

end Taking

/-! ## The invariant of a run -/

/-- The peer has more to send, or its FIN is not taken yet. -/
structure Receiving (isn : U32) (stream : Bytes) (base : Nat) (c : Conn) : Prop where
  right : Right isn stream base (base + c.rxlen + 1) c
  opened : c.state = .opened
  no_fin : c.gotFin = false
  acked : c.rtPending = false
  finHeld : c.finHeld = true →
    c.finAt = seqAt isn stream.length ∧ stream.length ≤ base + c.rxlen + RXCAP

/-- The FIN is taken, and every byte before it is given or ready. -/
structure Ended (isn : U32) (stream : Bytes) (base : Nat) (c : Conn) : Prop where
  cap : c.rxbuf.length = RXCAP
  fits : c.rxlen ≤ RXCAP
  whole : base + c.rxlen = stream.length
  next : c.rcvNxt = seqAt isn (stream.length + 1)
  ready : Holds stream c.rxbuf base base (base + c.rxlen)
  none_held : c.held = []
  fin : c.gotFin = true
  closed : c.state = .closing ∨ c.state = .done

def Sound (isn : U32) (stream : Bytes) (base : Nat) (c : Conn) : Prop :=
  Receiving isn stream base c ∨ Ended isn stream base c

section Steps

variable {isn : U32} {stream : Bytes} {base off : Nat} {c c' : Conn} {s : Segment}

theorem Fresh.receiving (h : Fresh isn c) : Receiving isn stream 0 c := by
  obtain ⟨hopened, hnext, hfin, hheld, hacked, hcap, hempty, hnone⟩ := h
  refine ⟨⟨hcap, by omega, by omega, by simp [hnext, hempty], ?_, by simp [hnone], by simp [hnone]⟩,
    hopened, hfin, hacked, by simp [hheld]⟩
  intro k hlo hhi
  omega

theorem Receiving.congr (hc : Receiving isn stream base c) (h : SameRx c c') :
    Receiving isn stream base c' := by
  obtain ⟨hbytes, hstate, hfin, hheld, hat, hpending⟩ := h
  have hlen := hbytes.2.1
  refine ⟨?_, by rw [hstate, hc.opened], by rw [hfin, hc.no_fin], by rw [hpending, hc.acked], ?_⟩
  · rw [hlen]
    exact hc.right.of_sameBytes hbytes
  · rw [hheld, hat, hlen]
    exact hc.finHeld

theorem Ended.congr (hc : Ended isn stream base c) (hbytes : SameBytes c c')
    (hfin : c'.gotFin = c.gotFin) (hstate : c'.state = c.state ∨ c'.state = .done) :
    Ended isn stream base c' := by
  obtain ⟨hbuf, hlen, hnext, hheld⟩ := hbytes
  refine ⟨by rw [hbuf, hc.cap], by rw [hlen]; exact hc.fits, by rw [hlen, hc.whole],
    by rw [hnext, hc.next], by rw [hbuf, hlen]; exact hc.ready, by rw [hheld, hc.none_held],
    by rw [hfin, hc.fin], ?_⟩
  rcases hstate with h | h
  · rw [h]
    exact hc.closed
  · exact .inr h

theorem ackArrived_same (c : Conn) (ack : U32) :
    SameBytes c (ackArrived c ack) ∧ (ackArrived c ack).state = c.state ∧
      (ackArrived c ack).gotFin = c.gotFin ∧ (ackArrived c ack).finHeld = c.finHeld ∧
      (ackArrived c ack).finAt = c.finAt ∧
      (c.rtPending = false → (ackArrived c ack).rtPending = false) := by
  unfold ackArrived
  extract_lets una covers
  have huna : SameRx c una := by
    unfold una
    split_ifs <;> exact ⟨⟨rfl, rfl, rfl, rfl⟩, rfl, rfl, rfl, rfl, rfl⟩
  obtain ⟨hbytes, hstate, hfin, hheld, hat, hpending⟩ := huna
  split_ifs
  · exact ⟨hbytes, hstate, hfin, hheld, hat, fun _ => rfl⟩
  all_goals exact ⟨hbytes, hstate, hfin, hheld, hat, fun h => hpending.trans h⟩

/-! ## One step -/

theorem sendReliable_same (c : Conn) (seq : U32) (flags : UInt8) (data : Bytes) :
    SameBytes c (sendReliable c seq flags data) ∧ (sendReliable c seq flags data).state = c.state ∧
      (sendReliable c seq flags data).gotFin = c.gotFin := by
  unfold sendReliable
  split
  · exact ⟨⟨rfl, rfl, rfl, rfl⟩, rfl, rfl⟩
  · obtain ⟨hbytes, hstate, hfin, -⟩ := emit_same { c with
      rtSeq := seq, rtFlags := flags, rtData := data, rtPending := true, rtTries := 0,
      rtTimeoutMs := RTO_MIN_MS, rtSentAt := c.clock } seq flags data
    exact ⟨hbytes, hstate, hfin⟩

theorem finArrived_ended (hc : Receiving isn stream base c) (hwhole : base + c.rxlen = stream.length) :
    Ended isn stream base (finArrived c) := by
  have hright := hc.right
  unfold finArrived
  extract_lets told ours
  obtain ⟨⟨hbuf, hlen, hnext, hheld⟩, hstate, hfin, -⟩ : SameRx _ told := emit_same _ _ _ _
  have htold : told.state = .opened := hstate.trans hc.opened
  rw [if_pos htold]
  obtain ⟨⟨hbuf', hlen', hnext', hheld'⟩, hstate', hfin'⟩ :=
    sendReliable_same { told with sndNxt := ours + 1, state := .closing } ours (TH_FIN ||| TH_ACK) []
  have hnone : c.held = [] := by
    refine List.eq_nil_iff_forall_not_mem.mpr fun e he => ?_
    obtain ⟨p, q, -, hp, hle, hq, -⟩ := hright.ahead e he
    omega
  refine ⟨?_, ?_, ?_, ?_, ?_, ?_, hfin'.trans hfin, .inl hstate'⟩
  · rw [hbuf', hbuf]
    exact hright.cap
  · rw [hlen', hlen]
    exact hright.fits
  · rw [hlen', hlen]
    exact hwhole
  · rw [hnext', hnext]
    dsimp only
    rw [hright.next, hwhole]
    exact seqAt_add isn stream.length 1
  · rw [hbuf', hlen', hbuf, hlen]
    exact hright.ready
  · rw [hheld', hheld]
    exact hnone

theorem finIn_sound (hc : Receiving isn stream base c) (hs : TrueSlice isn stream off s)
    (hnear : off < base + c.rxlen + 2 ^ 31) : Sound isn stream base (finIn c s) := by
  have hshort := s.short
  have hright := hc.right
  have hin := hright.inside
  unfold finIn
  extract_lets at_ kept
  have hkept : Receiving isn stream base kept := by
    unfold kept
    split_ifs with hfin hwin
    · refine { hc with right := hright.of_sameBytes ⟨rfl, rfl, rfl, rfl⟩, finHeld := ?_ }
      intro _
      have hend := hs.fin hfin.1
      have hat : at_ = seqAt isn stream.length := by
        rw [← hend, ← seqAt_add, ← hs.seq]
      refine ⟨hat, ?_⟩
      rw [hat, hright.next, seqAt_ahead isn _ _ hin (by omega)] at hwin
      exact (by omega : stream.length ≤ base + c.rxlen + RXCAP)
    · exact hc
    · exact hc
  split_ifs with hnow
  · refine .inr (finArrived_ended hkept ?_)
    obtain ⟨hat, hwin⟩ := hkept.finHeld hnow.1
    have hzero := seqAt_ahead isn stream.length (base + kept.rxlen) hkept.right.inside
      (by unfold RXCAP at hwin; omega)
    rw [← hat, ← hkept.right.next, hnow.2.2, BitVec.sub_self] at hzero
    have hinside := hkept.right.inside
    simp only [BitVec.toNat_ofNat, Nat.zero_mod] at hzero
    omega
  · exact .inl hkept

theorem tcpInput_receiving (hc : Receiving isn stream base c) (hs : TrueSlice isn stream off s)
    (hnear : Near (base + c.rxlen) off) :
    ∃ c', tcpInput c s = some c' ∧ Sound isn stream base c' := by
  unfold tcpInput
  rw [if_neg (by simp [hs.no_rst]), if_neg (by simp [hc.opened])]
  extract_lets told taken
  have htold : Receiving isn stream base told ∧ told.rxlen = c.rxlen := by
    unfold told
    split_ifs
    · obtain ⟨hbytes, hstate, hfin, hheld, hat, hpending⟩ := ackArrived_same c s.ack
      refine ⟨hc.congr ⟨hbytes, hstate, hfin, hheld, hat, ?_⟩, hbytes.2.1⟩
      rw [hc.acked, hpending hc.acked]
    · exact ⟨hc, rfl⟩
  obtain ⟨htold, hlen⟩ := htold
  rw [← hlen] at hnear
  obtain ⟨c', htake, hc', hgrow⟩ : ∃ c', taken = some c' ∧
      Receiving isn stream base c' ∧ told.rxlen ≤ c'.rxlen := by
    unfold taken
    split_ifs
    · obtain ⟨c', htake, hright, hgrow, hstate, hfin, hheld, hat, hpending⟩ :=
        take_spec htold.right hnear hs.seq hs.data hs.inside
      refine ⟨c', htake, ⟨hright, hstate.trans htold.opened, hfin.trans htold.no_fin,
        hpending.trans htold.acked, ?_⟩, hgrow⟩
      intro h
      obtain ⟨h1, h2⟩ := htold.finHeld (hheld ▸ h)
      exact ⟨hat.trans h1, by omega⟩
    · exact ⟨told, rfl, htold, le_refl _⟩
  rw [htake]
  exact ⟨_, rfl, finIn_sound hc' hs (lt_of_lt_of_le hnear.2 (by omega))⟩

theorem tcpInput_ended (hc : Ended isn stream base c) (hs : TrueSlice isn stream off s)
    (hnear : Near (base + c.rxlen) off) :
    ∃ c', tcpInput c s = some c' ∧ Ended isn stream base c' := by
  unfold tcpInput
  have hstate : c.state ≠ .synSent := by
    rcases hc.closed with h | h <;> simp [h]
  rw [if_neg (by simp [hs.no_rst]), if_neg hstate]
  extract_lets told taken
  have htold : Ended isn stream base told ∧ told.rxlen = c.rxlen := by
    unfold told
    split_ifs
    · obtain ⟨hbytes, hstate, hfin, -⟩ := ackArrived_same c s.ack
      exact ⟨hc.congr hbytes hfin (.inl hstate), hbytes.2.1⟩
    · exact ⟨hc, rfl⟩
  obtain ⟨htold, hlen⟩ := htold
  rw [← hlen] at hnear
  obtain ⟨c', htake, hc'⟩ : ∃ c', taken = some c' ∧ Ended isn stream base c' := by
    unfold taken
    split_ifs
    · have hin := hs.inside
      have hwhole := htold.whole
      obtain ⟨hlo, hhi⟩ := hnear
      have hdiff : (s.seq - told.rcvNxt).toInt = (off : Int) - (stream.length + 1 : Nat) := by
        rw [hs.seq, htold.next]
        exact seqAt_diff isn _ _ (by omega) (by omega)
      have hold : take told s.seq s.data = some (sendAck told) := by
        unfold take
        dsimp only
        rw [hdiff, if_pos (by omega), if_pos (by omega)]
      obtain ⟨hbytes, hstate, hfin, -⟩ := emit_same told told.sndNxt TH_ACK []
      exact ⟨_, hold, htold.congr hbytes hfin (.inl hstate)⟩
    · exact ⟨told, rfl, htold⟩
  rw [htake]
  have hdone : finIn c' s = c' := by
    unfold finIn
    simp [hc'.fin]
  exact ⟨c', congrArg some hdone, hc'⟩

theorem pumpOne_sound (now : Nat) (hc : Sound isn stream base c) :
    Sound isn stream base (pumpOne { c with clock := now }) := by
  rcases hc with hc | hc
  · have hidle : pumpOne { c with clock := now } = { c with clock := now } := by
      unfold pumpOne
      rw [if_pos (.inl (by simp [hc.acked]))]
    rw [hidle]
    exact .inl (hc.congr ⟨⟨rfl, rfl, rfl, rfl⟩, rfl, rfl, rfl, rfl, rfl⟩)
  · refine .inr ?_
    unfold pumpOne
    split_ifs
    · exact hc.congr ⟨rfl, rfl, rfl, rfl⟩ rfl (.inl rfl)
    · exact hc.congr ⟨rfl, rfl, rfl, rfl⟩ rfl (.inl rfl)
    · exact hc.congr ⟨rfl, rfl, rfl, rfl⟩ rfl (.inr rfl)
    · obtain ⟨⟨hbuf, hlen, hnext, hheld⟩, hstate, hfin, -⟩ := emit_same _ _ _ _
      exact hc.congr ⟨hbuf, hlen, hnext, hheld⟩ hfin (.inl hstate)

/-! ## Reads -/

theorem foldl_max_le {α : Type} (f : α → Nat) (xs : List α) (start bound : Nat) :
    xs.foldl (fun far x => max far (f x)) start ≤ bound ↔ start ≤ bound ∧ ∀ x ∈ xs, f x ≤ bound := by
  induction xs generalizing start with
  | nil => simp
  | cons x xs ih =>
    rw [List.foldl_cons, ih, List.forall_mem_cons, Nat.max_le, and_assoc]

theorem heldReach_le (c : Conn) (bound : Nat) :
    heldReach c ≤ bound ↔ ∀ e ∈ c.held, (e.2 - c.rcvNxt).toNat ≤ bound := by
  unfold heldReach
  rw [foldl_max_le]
  simp

variable {n : Nat}

theorem shift_spec {buf : Bytes} {stop : Nat} (hstop : stop ≤ buf.length) :
    ∃ out, (if n < stop then blit buf 0 ((buf.drop n).take (stop - n)) else some buf) = some out ∧
      out.length = buf.length ∧ ∀ i, i + n < stop → out[i]? = buf[i + n]? := by
  split_ifs with hlt
  · have hlen : ((buf.drop n).take (stop - n)).length = stop - n := by
      rw [List.length_take, List.length_drop]
      omega
    obtain ⟨out, hout⟩ : ∃ out, blit buf 0 ((buf.drop n).take (stop - n)) = some out :=
      ⟨_, blit_eq_some (by omega)⟩
    refine ⟨out, hout, blit_length hout, fun i hi => ?_⟩
    rw [blit_inside hout (Nat.zero_le _) (by omega), Nat.sub_zero,
      List.getElem?_take_of_lt (by omega), List.getElem?_drop, Nat.add_comm]
  · exact ⟨buf, rfl, rfl, fun i hi => by omega⟩

theorem Holds.shift {buf out : Bytes} {stop p q : Nat} (h : Holds stream buf base p q)
    (hmoved : ∀ i, i + n < stop → out[i]? = buf[i + n]?) (hp : base + n ≤ p) (hq : q ≤ base + stop) :
    Holds stream out (base + n) p q := by
  intro k hlo hhi
  rw [hmoved _ (by omega), ← h k hlo hhi]
  congr 1
  omega

theorem Holds.take_eq {buf : Bytes} (h : Holds stream buf base base (base + n)) :
    buf.take n = (stream.drop base).take n := by
  apply List.ext_getElem?
  intro i
  rw [List.getElem?_take, List.getElem?_take]
  split_ifs with hi
  · rw [List.getElem?_drop, ← h (base + i) (by omega) (by omega)]
    congr 1
    omega
  · rfl

theorem IsPrefix.append_take {given : Bytes} (h : given <+: stream) (n : Nat) :
    given ++ (stream.drop given.length).take n <+: stream := by
  obtain ⟨rest, rfl⟩ := h
  rw [List.drop_left, List.prefix_append_right_inj]
  exact List.take_prefix n rest

theorem tcpRecv_eq (cap : Nat) (hstop : c.rxlen + heldReach c ≤ c.rxbuf.length) :
    ∃ buf c', tcpRecv c cap = some (c.rxbuf.take (min c.rxlen cap), c') ∧
      SameRx { c with rxlen := c.rxlen - min c.rxlen cap, rxbuf := buf } c' ∧
      buf.length = c.rxbuf.length ∧
      ∀ i, i + min c.rxlen cap < c.rxlen + heldReach c → buf[i]? = c.rxbuf[i + min c.rxlen cap]? := by
  unfold tcpRecv
  extract_lets n stop out moved
  by_cases hn : n = 0
  · rw [if_pos hn]
    refine ⟨c.rxbuf, c, ?_, ⟨⟨rfl, ?_, rfl, rfl⟩, rfl, rfl, rfl, rfl, rfl⟩, rfl, fun i _ => ?_⟩
    · rw [show min c.rxlen cap = 0 from hn, List.take_zero]
    · exact (Nat.sub_eq_of_eq_add (by omega)).symm
    · rw [show min c.rxlen cap = 0 from hn, Nat.add_zero]
  · obtain ⟨buf, hmoved, hlen, hbuf⟩ : ∃ buf, moved = some buf ∧ buf.length = c.rxbuf.length ∧
        ∀ i, i + n < stop → buf[i]? = c.rxbuf[i + n]? := shift_spec hstop
    rw [if_neg hn, if_neg (by omega), hmoved]
    refine ⟨buf, _, rfl, ?_, hlen, hbuf⟩
    dsimp only
    split_ifs
    · exact emit_same _ _ _ _
    · exact ⟨⟨rfl, rfl, rfl, rfl⟩, rfl, rfl, rfl, rfl, rfl⟩

theorem Receiving.after_read {buf : Bytes} (hc : Receiving isn stream base c)
    (hn : n ≤ c.rxlen) (hlen : buf.length = c.rxbuf.length)
    (hmoved : ∀ i, i + n < c.rxlen + heldReach c → buf[i]? = c.rxbuf[i + n]?) :
    Receiving isn stream (base + n) { c with rxlen := c.rxlen - n, rxbuf := buf } := by
  have hright := hc.right
  have hfits := hright.fits
  have hnext : base + n + (c.rxlen - n) = base + c.rxlen := by omega
  refine ⟨⟨hlen.trans hright.cap, by dsimp only; omega, ?_, ?_, ?_, ?_, hright.slots⟩, hc.opened,
    hc.no_fin, hc.acked, ?_⟩ <;> dsimp only
  · rw [hnext]
    exact hright.inside
  · rw [hnext]
    exact hright.next
  · rw [hnext]
    exact Holds.shift (fun k hlo hhi => hright.ready k (by omega) hhi) hmoved (le_refl _) (by omega)
  · intro e he
    have hreach := (heldReach_le c _).mp (le_refl _) e he
    obtain ⟨p, q, rfl, hp, hle, hq, hwin, hbytes⟩ := hright.ahead e he
    rw [hright.next, seqAt_ahead isn _ _ (by omega) (by unfold RXCAP at hwin; omega)] at hreach
    exact ⟨p, q, rfl, by omega, hle, hq, by omega, hbytes.shift hmoved (by omega) (by omega)⟩
  · rw [hnext]
    exact hc.finHeld

theorem Ended.after_read {buf : Bytes} (hc : Ended isn stream base c)
    (hn : n ≤ c.rxlen) (hlen : buf.length = c.rxbuf.length)
    (hmoved : ∀ i, i + n < c.rxlen + heldReach c → buf[i]? = c.rxbuf[i + n]?) :
    Ended isn stream (base + n) { c with rxlen := c.rxlen - n, rxbuf := buf } := by
  have hfits := hc.fits
  have hnext : base + n + (c.rxlen - n) = base + c.rxlen := by omega
  refine ⟨hlen.trans hc.cap, by dsimp only; omega, ?_, hc.next, ?_, hc.none_held, hc.fin, hc.closed⟩
  · exact hnext.trans hc.whole
  · dsimp only
    rw [hnext]
    exact Holds.shift (fun k hlo hhi => hc.ready k (by omega) hhi) hmoved (le_refl _) (by omega)

theorem Sound.reach_le (hc : Sound isn stream base c) : c.rxlen + heldReach c ≤ c.rxbuf.length := by
  rcases hc with hc | hc
  · have hright := hc.right
    have hfits := hright.fits
    have hreach : heldReach c ≤ RXCAP - c.rxlen := by
      rw [heldReach_le]
      intro e he
      obtain ⟨p, q, rfl, hp, hle, hq, hwin, -⟩ := hright.ahead e he
      rw [hright.next, seqAt_ahead isn _ _ (by omega) (by unfold RXCAP at hwin; omega)]
      omega
    rw [hright.cap]
    omega
  · have hfits := hc.fits
    have hreach : heldReach c = 0 := by simp [heldReach, hc.none_held]
    rw [hc.cap, hreach]
    exact hfits

theorem Sound.ready (hc : Sound isn stream base c) : Holds stream c.rxbuf base base (base + c.rxlen) := by
  rcases hc with hc | hc
  · exact hc.right.ready
  · exact hc.ready

theorem tcpRecv_sound {given : Bytes} (cap : Nat) (hgiven : given <+: stream)
    (hc : Sound isn stream given.length c) :
    ∃ out c', tcpRecv c cap = some (out, c') ∧ given ++ out <+: stream ∧
      Sound isn stream (given ++ out).length c' := by
  obtain ⟨buf, c', hrecv, hsame, hlen, hmoved⟩ := tcpRecv_eq cap hc.reach_le
  have hn : min c.rxlen cap ≤ c.rxlen := Nat.min_le_left _ _
  have hout : c.rxbuf.take (min c.rxlen cap) = (stream.drop given.length).take (min c.rxlen cap) :=
    Holds.take_eq fun k hlo hhi => hc.ready k hlo (by omega)
  have hcap : c.rxlen ≤ c.rxbuf.length := le_trans (Nat.le_add_right _ _) hc.reach_le
  refine ⟨_, c', hrecv, ?_, ?_⟩
  · rw [hout]
    exact IsPrefix.append_take hgiven _
  · rw [List.length_append, List.length_take, Nat.min_eq_left (by omega : min c.rxlen cap ≤ c.rxbuf.length)]
    rcases hc with hc | hc
    · exact .inl ((hc.after_read hn hlen hmoved).congr hsame)
    · exact .inr ((hc.after_read hn hlen hmoved).congr hsame.1 hsame.2.2.1 (.inl hsame.2.1))

end Steps

/-! ## Every run -/

section Runs

variable {isn : U32} {stream given : Bytes} {off : Nat} {c : Conn} {s : Segment}

theorem tcpInput_sound {base : Nat} (hc : Sound isn stream base c) (hs : TrueSlice isn stream off s)
    (hnear : Near (base + c.rxlen) off) : ∃ c', tcpInput c s = some c' ∧ Sound isn stream base c' := by
  rcases hc with hc | hc
  · exact tcpInput_receiving hc hs hnear
  · obtain ⟨c', hin, hc'⟩ := tcpInput_ended hc hs hnear
    exact ⟨c', hin, .inr hc'⟩

theorem Run.sound (h : Run Near isn stream c given) : given <+: stream ∧ Sound isn stream given.length c := by
  induction h with
  | start hfresh => exact ⟨List.nil_prefix, .inl hfresh.receiving⟩
  | segment _ hs hnear hin ih =>
    obtain ⟨c', hc', hsound⟩ := tcpInput_sound ih.2 hs hnear
    rw [hin] at hc'
    cases hc'
    exact ⟨ih.1, hsound⟩
  | pump now _ ih => exact ⟨ih.1, pumpOne_sound now ih.2⟩
  | recv cap _ hrecv ih =>
    obtain ⟨out, c', hc', hgiven, hsound⟩ := tcpRecv_sound cap ih.1 ih.2
    rw [hrecv] at hc'
    cases hc'
    exact ⟨hgiven, hsound⟩

theorem Sound.ended_given {base : Nat} (hc : Sound isn stream base c) (hend : tcpEnded c = true) :
    base = stream.length := by
  simp only [tcpEnded, Bool.and_eq_true, Bool.or_eq_true, beq_iff_eq] at hend
  rcases hc with hc | hc
  · rw [hc.no_fin, hc.opened] at hend
    simp at hend
  · have hwhole := hc.whole
    omega

theorem Sound.rcvNxt_eq {base : Nat} (hc : Sound isn stream base c) :
    c.rcvNxt = isn + BitVec.ofNat 32 (base + c.rxlen + if c.gotFin then 1 else 0) := by
  rcases hc with hc | hc
  · simpa [hc.no_fin, seqAt] using hc.right.next
  · simpa [hc.fin, hc.whole, seqAt] using hc.next

/-- The reader is given the peer's stream: nothing out of place, nothing past a hole, and no end
before the last byte. No write of a step leaves the buffer. -/
theorem run_delivers (h : Run Near isn stream c given) :
    given <+: stream ∧
      c.rcvNxt = isn + BitVec.ofNat 32 (given.length + c.rxlen + if c.gotFin then 1 else 0) ∧
      given ++ c.rxbuf.take c.rxlen <+: stream ∧
      (tcpEnded c = true → given = stream) ∧
      (∀ s off, TrueSlice isn stream off s → Near (given.length + c.rxlen) off → tcpInput c s ≠ none) ∧
      ∀ cap, tcpRecv c cap ≠ none := by
  obtain ⟨hgiven, hc⟩ := h.sound
  refine ⟨hgiven, hc.rcvNxt_eq, ?_, fun hend => ?_, fun s off hs hnear => ?_, fun cap => ?_⟩
  · rw [Holds.take_eq hc.ready]
    exact IsPrefix.append_take hgiven _
  · exact hgiven.eq_of_length (hc.ended_given hend)
  · obtain ⟨c', hin, -⟩ := tcpInput_sound hc hs hnear
    simp [hin]
  · obtain ⟨out, c', hrecv, -⟩ := tcpRecv_sound cap hgiven hc
    simp [hrecv]

end Runs

/-- `tcp_test_open`: a connection that waits for the byte numbered `isn`. -/
def testOpen (isn : U32) : Conn where
  state := .opened
  sndNxt := 0
  sndUna := 0
  rcvNxt := isn
  gotFin := false
  rtData := []
  rtSeq := 0
  rtFlags := 0
  rtPending := false
  rtSentAt := 0
  rtTimeoutMs := RTO_MIN_MS
  rtTries := 0
  rxbuf := List.replicate RXCAP 0
  rxlen := 0
  held := []
  finHeld := false
  finAt := 0
  clock := 0
  wire := []

theorem testOpen_fresh (isn : U32) : Fresh isn (testOpen isn) :=
  ⟨rfl, rfl, rfl, rfl, rfl, List.length_replicate, rfl, rfl⟩

/-- `tcp_test_segment`, for data of one byte. -/
def testByte (seq : U32) (b : UInt8) : Segment := ⟨seq, 0, TH_PSH, [b], by simp⟩

theorem testByte_read (isn : U32) (b : UInt8) :
    ∃ c c', tcpInput (testOpen isn) (testByte isn b) = some c ∧ tcpRecv c 1 = some ([b], c') := by
  have hroom : 0 < RXCAP := by decide
  have hblit : blit (List.replicate RXCAP 0) 0 [b] = some (b :: List.replicate (RXCAP - 1) 0) := by
    rw [blit_eq_some (by rw [List.length_replicate]; exact hroom), List.take_zero, List.drop_replicate]
    rfl
  have hflags : TH_PSH &&& TH_RST = 0 ∧ TH_PSH &&& TH_ACK = 0 ∧ TH_PSH &&& TH_FIN = 0 ∧
      TH_ACK &&& TH_SYN = 0 := by decide
  have htake : tcpInput (testOpen isn) (testByte isn b) =
      some (sendAck { testOpen isn with
        rxbuf := b :: List.replicate (RXCAP - 1) 0, rxlen := 1, rcvNxt := isn + 1 }) := by
    simp [tcpInput, testOpen, testByte, hflags, take, takeAt, hroom, hblit, absorb, absorbLoop, finIn,
      sendAck, emit, Nat.min_eq_left hroom]
  refine ⟨_, (tcpRecv (sendAck { testOpen isn with
        rxbuf := b :: List.replicate (RXCAP - 1) 0, rxlen := 1, rcvNxt := isn + 1 }) 1).get ?_ |>.2,
    htake, ?_⟩
  · simp [tcpRecv, sendAck, emit, hflags, testOpen, heldReach]
  · simp [tcpRecv, sendAck, emit, hflags, testOpen, heldReach]

theorem testByte_trueSlice {isn : U32} {stream : Bytes} {off : Nat} {b : UInt8}
    (hdata : [b] <+: stream.drop off) : TrueSlice isn stream off (testByte (seqAt isn off) b) := by
  have hlen := hdata.length_le
  rw [List.length_drop, List.length_singleton] at hlen
  refine ⟨rfl, ?_, hdata, by simp [testByte]; decide, ?_⟩
  · simp only [testByte, List.length_singleton]
    omega
  · intro h
    exact absurd (by simp [testByte]; decide) h

/-- The second byte, which is held, and then the first: both are read. -/
theorem testByte_apart :
    ∃ c c' c'', tcpInput (testOpen 0xFFFFFFFF) (testByte 0 8) = some c ∧ c.rxlen = 0 ∧
      tcpInput c (testByte 0xFFFFFFFF 7) = some c' ∧ tcpRecv c' 2 = some ([7, 8], c'') := by
  have hroom : 0 < RXCAP ∧ 1 < RXCAP ∧ 2 ≤ RXCAP := by decide
  have hcaps : min 1 (RXCAP - 1) = 1 ∧ min 1 RXCAP = 1 ∧ 0 < TCP_HELD := by decide
  obtain ⟨rest, hrest⟩ : ∃ rest : Bytes, List.replicate RXCAP 0 = 0 :: 0 :: rest :=
    ⟨_, by rw [← Nat.sub_add_cancel hroom.2.2, List.replicate_succ, List.replicate_succ]⟩
  have hflags : TH_PSH &&& TH_RST = 0 ∧ TH_PSH &&& TH_ACK = 0 ∧ TH_PSH &&& TH_FIN = 0 ∧
      TH_ACK &&& TH_SYN = 0 := by decide
  have hheld : tcpInput (testOpen 0xFFFFFFFF) (testByte 0 8) =
      some (sendAck { testOpen 0xFFFFFFFF with rxbuf := 0 :: 8 :: rest, held := [(0, 1)] }) := by
    simp [tcpInput, testOpen, testByte, hflags, take, takeAt, hroom, hcaps, hrest, blit, hold,
      holdLoop, finIn, sendAck, emit]
  have htaken : tcpInput (sendAck { testOpen 0xFFFFFFFF with
        rxbuf := 0 :: 8 :: rest, held := [(0, 1)] }) (testByte 0xFFFFFFFF 7) =
      some (sendAck { sendAck { testOpen 0xFFFFFFFF with rxbuf := 0 :: 8 :: rest, held := [(0, 1)] }
        with rxbuf := 7 :: 8 :: rest, held := [], rxlen := 2, rcvNxt := 1 }) := by
    simp [tcpInput, testOpen, testByte, hflags, take, takeAt, hroom, hcaps, blit, absorb,
      absorbLoop, reach, unhold, finIn, sendAck, emit]
  obtain ⟨c'', hread⟩ : ∃ c'', tcpRecv (sendAck { sendAck { testOpen 0xFFFFFFFF with
      rxbuf := 0 :: 8 :: rest, held := [(0, 1)] } with
      rxbuf := 7 :: 8 :: rest, held := [], rxlen := 2, rcvNxt := 1 }) 2 = some ([7, 8], c'') := by
    simp [tcpRecv, sendAck, emit, hflags, testOpen, heldReach]
  exact ⟨_, _, c'', hheld, by simp [sendAck, emit, hflags, testOpen], htaken, hread⟩

/-- The numbers come round between the two bytes, and the second arrives first. -/
theorem run_delivers_wrapped :
    ∃ c, Run Near 0xFFFFFFFF [7, 8] c [7, 8] ∧ [7, 8] <+: ([7, 8] : Bytes) ∧
      c.rcvNxt = 0xFFFFFFFF + BitVec.ofNat 32 (2 + c.rxlen + if c.gotFin then 1 else 0) := by
  obtain ⟨c, c', c'', hfirst, hready, hsecond, hrecv⟩ := testByte_apart
  have hlate : TrueSlice 0xFFFFFFFF [7, 8] 1 (testByte 0 8) :=
    @testByte_trueSlice 0xFFFFFFFF [7, 8] 1 8 List.prefix_rfl
  have hearly : TrueSlice 0xFFFFFFFF [7, 8] 0 (testByte (seqAt 0xFFFFFFFF 0) 7) :=
    testByte_trueSlice ⟨[8], rfl⟩
  rw [seqAt_zero] at hearly
  have hrun : Run Near 0xFFFFFFFF [7, 8] c'' [7, 8] :=
    (((Run.start (testOpen_fresh _)).segment hlate ⟨by decide, by decide⟩ hfirst).segment hearly
      (by rw [hready]; exact ⟨by decide, by decide⟩) hsecond).recv 2 hrecv
  obtain ⟨hgiven, hnext, -⟩ := run_delivers hrun
  exact ⟨c'', hrun, hgiven, hnext⟩

/-- The last byte of a stream, read as its first: its number came round again. -/
theorem far_segment_misread :
    ∃ stream c given, Run (fun _ _ => True) 0 stream c given ∧ ¬ given <+: stream := by
  obtain ⟨c, c', hin, hrecv⟩ := testByte_read 0 1
  have hseq : seqAt 0 (2 ^ 32) = 0 := by decide
  refine ⟨List.replicate (2 ^ 32) 0 ++ [1], c', [1], ?_, ?_⟩
  · have hslice : TrueSlice 0 (List.replicate (2 ^ 32) 0 ++ [1]) (2 ^ 32) (testByte 0 1) := by
      rw [← hseq]
      exact testByte_trueSlice (by rw [List.drop_left' List.length_replicate])
    exact (Run.start (testOpen_fresh 0)).segment hslice trivial hin |>.recv 1 hrecv
  · rw [show (2 : Nat) ^ 32 = (2 ^ 32 - 1) + 1 by decide, List.replicate_succ, List.cons_append,
      List.cons_prefix_cons]
    exact fun h => absurd h.1 (by decide)

end Zelr.Tcp
