import Zelr.Net.Turns

/-!
# Nothing lost, nothing twice

What each place of the drain and of the walk knows about the queue, and with it what every order of
steps keeps: a frame put in the queue is there until it is handled, and it is handled once.
-/

namespace Zelr.Net

variable {p' : Place} {j : Nat} {b : Bytes}

def Local (q : Queue) : Place → Prop
  | .drainTail _ tail => tail = q.rxqTail
  | .drainLen _ tail => tail = q.rxqTail ∧ q.released < q.arrived.length
  | .drainCopy _ tail len =>
    tail = q.rxqTail ∧ ¬ Handled q q.released ∧ ∃ b, q.arrived[q.released]? = some b ∧ len = b.length
  | .drainRelease _ tail seq frame =>
    tail = q.rxqTail ∧ ¬ Handled q q.released ∧ seq = q.released ∧ q.arrived[q.released]? = some frame
  | .drainSkip _ tail => tail = q.rxqTail ∧ q.released < q.arrived.length ∧ Handled q q.released
  | .walk i n => i = (q.released + n) % RXQ_FRAMES ∧ q.released + n ≤ q.arrived.length
  | .walkLen i n => i = (q.released + n) % RXQ_FRAMES ∧ q.released + n < q.arrived.length
  | .walkType i n =>
    i = (q.released + n) % RXQ_FRAMES ∧ ¬ Handled q (q.released + n) ∧ q.released + n < q.arrived.length
  | .walkRead i n =>
    i = (q.released + n) % RXQ_FRAMES ∧ ¬ Handled q (q.released + n) ∧
      ∃ b, q.arrived[q.released + n]? = some b ∧ isArp b = true
  | .walkEmpty i n len =>
    i = (q.released + n) % RXQ_FRAMES ∧ ¬ Handled q (q.released + n) ∧
      ∃ b, q.arrived[q.released + n]? = some b ∧ isArp b = true ∧ len = b.length
  | .walkArp i n frame => i = (q.released + n) % RXQ_FRAMES ∧ q.arrived[q.released + n]? = some frame
  | _ => True

structure Inv (q : Queue) : Prop where
  held : Held q
  turns : Turns q
  local_ : ∀ t, ∀ p ∈ q.calls t, Local q p

variable {q : Queue} {t : Nat} {p : Place} {rest : List Place}

theorem local_guest (hd : p.drains = false) (hw : p.walks = false) : Local q p := by
  cases p <;> trivial

variable {q' : Queue} {i : Nat}

theorem local_nest (hn : Nest rest) (hr : q'.released = q.released) (ha : q'.arrived = q.arrived)
    (h : ∀ p ∈ rest, Local q p) : ∀ p ∈ rest, Local q' p := by
  induction hn with
  | drain n =>
    intro p hp
    cases List.mem_singleton.mp hp
    trivial
  | walk i n frame hn ih =>
    intro p hp
    rcases List.mem_cons.mp hp with rfl | hp
    · have hl := h _ List.mem_cons_self
      simpa only [Local, hr, ha] using hl
    · exact ih (fun p hp => h p (List.mem_cons_of_mem _ hp)) p hp

theorem Inv.others (h : Inv q) (hd : Drains (q.calls t)) {t' : Nat} (hne : t' ≠ t) :
    ∀ p ∈ q.calls t', Local q' p := by
  intro p hp
  have hout : ¬ Drains (q.calls t') := fun hd' => hne (h.turns.one t' t hd' hd)
  have hguest := (h.turns.shape t').not_walks hout hp
  exact local_guest hguest.1 hguest.2

theorem Inv.of_goOn {l : List Place} (hheld : Held q') (hturns : Turns (q'.goOn t l))
    (hother : ∀ t', t' ≠ t → ∀ p ∈ q'.calls t', Local q' p) (hself : ∀ p ∈ l, Local q' p) : Inv (q'.goOn t l) := by
  refine ⟨{ hheld with slot := fun j b hj hb => { hheld.slot j b hj hb with } }, hturns, ?_⟩
  have hsame : ∀ p, Local q' p → Local (q'.goOn t l) p := by
    intro p hp
    cases p <;> exact hp
  intro t' p hp
  by_cases he : t' = t
  · subst he
    rw [goOn_calls_self] at hp
    exact hsame p (hself p hp)
  · rw [goOn_calls_of_ne _ he] at hp
    exact hsame p (hother t' he p hp)

theorem Inv.drain (h : Inv q) (hc : q.calls t = p :: rest) (hp : p.drains = true)
    (hheld : Held q') (hcalls : q'.calls = q.calls) (hturns : Turns q') (hp' : p'.drains = true)
    (hl : Local q' p') : Inv (q'.goOn t (p' :: rest)) := by
  have hshape := h.turns.shape t
  rw [hc] at hshape
  obtain rfl := hshape.alone_of_drains hp
  have hdr : Drains (q.calls t) := by
    rw [hc]
    exact ⟨p, List.mem_singleton_self p, hp⟩
  refine Inv.of_goOn hheld (hturns.drain (by rw [hcalls, hc]) hp hp') ?_ ?_
  · intro t' hne
    rw [hcalls]
    exact h.others hdr hne
  · intro p₁ hp₁
    cases List.mem_singleton.mp hp₁
    exact hl

theorem Inv.walk (h : Inv q) (hc : q.calls t = p :: rest) (hn : Nest rest)
    (hheld : Held q') (hcalls : q'.calls = q.calls) (hturns : Turns q') (hr : q'.released = q.released)
    (ha : q'.arrived = q.arrived) (hp' : p'.drains = false) (hf : p' ≠ .forget) (hl : Local q' p') :
    Inv (q'.goOn t (p' :: rest)) := by
  have hdr : Drains (q.calls t) := by
    rw [hc]
    exact hn.drains.of_rest
  refine Inv.of_goOn hheld (hturns.inside (by rw [hcalls, hc]) hn hp' hf) ?_ ?_
  · intro t' hne
    rw [hcalls]
    exact h.others hdr hne
  · intro p₁ hp₁
    rcases List.mem_cons.mp hp₁ with rfl | hp₁
    · exact hl
    · refine local_nest hn hr ha ?_ p₁ hp₁
      intro p₂ hp₂
      exact h.local_ t p₂ (by rw [hc]; exact List.mem_cons_of_mem _ hp₂)

theorem Inv.ret (h : Inv q) (hc : q.calls t = p :: rest) (hp : p.drains = false) (hf : p ≠ .forget) :
    Inv (q.goOn t rest) := by
  refine Inv.of_goOn h.held (h.turns.ret hc hp hf) (fun t' _ => h.local_ t') ?_
  intro p' hp'
  exact h.local_ t p' (by rw [hc]; exact List.mem_cons_of_mem _ hp')

theorem Inv.empty : Inv .empty := ⟨held_empty, turns_empty, fun _ _ hp => nomatch hp⟩

theorem Inv.receive (h : Inv q) (frame : Bytes) : Inv (netReceive q frame) := by
  obtain ⟨-, heq⟩ | ⟨-, heq⟩ | ⟨hlo, hhi, hroom, m, heq⟩ := netReceive_cases q frame
  · rwa [heq]
  · have hheld := h.held.receive frame
    rw [heq] at hheld ⊢
    exact ⟨hheld, { h.turns with }, fun t p hp => by have hl := h.local_ t p hp; cases p <;> exact hl⟩
  · have hheld := h.held.receive frame
    rw [heq] at hheld ⊢
    refine ⟨hheld, { h.turns with }, ?_⟩
    -- A frame more at the head: the ones that were there keep their numbers.
    have hkept : ∀ (j : Nat) (b : Bytes), q.arrived[j]? = some b → (q.arrived ++ [frame])[j]? = some b := by
      intro j b hb
      rw [List.getElem?_append_left (lt_arrived hb), hb]
    have hlen : (q.arrived ++ [frame]).length = q.arrived.length + 1 := by simp
    intro t p hp
    have hl := h.local_ t p hp
    cases p with
    | drainLen n tail => exact ⟨hl.1, hl.2.trans (by simp [Queue.push])⟩
    | drainCopy n tail len =>
      obtain ⟨htail, hnot, b, hb, hlen'⟩ := hl
      exact ⟨htail, hnot, b, hkept _ _ hb, hlen'⟩
    | drainRelease n tail seq fr => exact ⟨hl.1, hl.2.1, hl.2.2.1, hkept _ _ hl.2.2.2⟩
    | drainSkip n tail => exact ⟨hl.1, hl.2.1.trans (by simp [Queue.push]), hl.2.2⟩
    | walk i n => exact ⟨hl.1, hl.2.trans (by simp [Queue.push])⟩
    | walkLen i n => exact ⟨hl.1, hl.2.trans (by simp [Queue.push])⟩
    | walkType i n => exact ⟨hl.1, hl.2.1, hl.2.2.trans (by simp [Queue.push])⟩
    | walkRead i n =>
      obtain ⟨hi, hnot, b, hb, harp⟩ := hl
      exact ⟨hi, hnot, b, hkept _ _ hb, harp⟩
    | walkEmpty i n len =>
      obtain ⟨hi, hnot, b, hb, harp⟩ := hl
      exact ⟨hi, hnot, b, hkept _ _ hb, harp⟩
    | walkArp i n fr => exact ⟨hl.1, hkept _ _ hl.2⟩
    | _ => exact hl

theorem Inv.call (h : Inv q) (hm : mayCall (q.calls t)) : Inv (q.goOn t (.start :: q.calls t)) := by
  refine Inv.of_goOn h.held (h.turns.call hm) (fun t' _ => h.local_ t') ?_
  intro p hp
  rcases List.mem_cons.mp hp with rfl | hp
  · trivial
  · exact h.local_ t p hp

/-! ## The places one by one -/

theorem Held.at_tail (h : Held q) (hlt : q.released < q.arrived.length) :
    ∃ b, q.arrived[q.released]? = some b ∧ Holds q q.released b ∧ ETH_LEN ≤ b.length ∧ b.length ≤ RXQ_FRAME_MAX := by
  obtain ⟨b, hb⟩ : ∃ b, q.arrived[q.released]? = some b := ⟨_, List.getElem?_eq_getElem hlt⟩
  have hsize := h.size b (List.mem_of_getElem? hb)
  exact ⟨b, hb, h.slot _ b le_rfl hb, hsize⟩

theorem Inv.advance_drain (h : Inv q) (hc : q.calls t = p :: rest) (hp : p.drains = true) :
    Inv (advance q t rest p) := by
  have hheld := h.held
  have hl := h.local_ t p (by rw [hc]; exact List.mem_cons_self)
  have hshape := h.turns.shape t
  rw [hc] at hshape
  -- Steps that leave the queue alone.
  have hstay : ∀ {p' : Place}, p'.drains = true → Local q p' → Inv (q.goOn t (p' :: rest)) :=
    fun hp' hl' => h.drain hc hp hheld rfl h.turns hp' hl'
  cases p with
  | drain n =>
    simp only [advance]
    split
    · exact hstay rfl rfl
    · exact hstay rfl trivial
  | drainTail n tail =>
    simp only [advance]
    split
    · exact hstay rfl trivial
    · rename_i hne
      refine hstay rfl ⟨hl, ?_⟩
      have hle := hheld.le
      rcases hle.lt_or_eq with hlt | heq
      · exact hlt
      · rw [hl, hheld.tail, hheld.head, heq] at hne
        exact absurd rfl hne
  | drainLen n tail =>
    obtain ⟨htail, hlt⟩ := hl
    obtain ⟨b, hb, hslot, hlo, hhi⟩ := hheld.at_tail hlt
    have hlen : (q.rxq tail).len = b.length ∧ ¬ Handled q q.released ∨ (q.rxq tail).len = 0 ∧ Handled q q.released := by
      rw [htail, hheld.tail]
      exact hslot.len
    simp only [advance]
    split
    · rename_i hok
      rcases hlen with ⟨hlen, hnot⟩ | ⟨hlen, -⟩
      · exact hstay rfl ⟨htail, hnot, b, hb, hlen⟩
      · rw [hlen] at hok
        exact absurd hok.1 (by decide)
    · rename_i hbad
      rcases hlen with ⟨hlen, -⟩ | ⟨-, hdone⟩
      · rw [hlen] at hbad
        exact absurd ⟨hlo, hhi⟩ hbad
      · exact hstay rfl ⟨htail, hlt, hdone⟩
  | drainCopy n tail len =>
    obtain ⟨htail, hnot, b, hb, rfl⟩ := hl
    refine hstay rfl ⟨htail, hnot, ?_, ?_⟩
    · have hseq := (hheld.slot _ b le_rfl hb).seq
      rwa [← hheld.tail, ← htail] at hseq
    · have hdata := (hheld.slot _ b le_rfl hb).data
      rw [← hheld.tail, ← htail] at hdata
      rw [hdata, hb]
  | drainRelease n tail seq frame =>
    obtain ⟨rfl, hnot, rfl, hb⟩ := hl
    exact h.drain hc hp (hheld.take hb hnot) rfl { h.turns with } rfl trivial
  | drainSkip n tail =>
    obtain ⟨rfl, hlt, hdone⟩ := hl
    exact h.drain hc hp (hheld.skip hlt hdone) rfl { h.turns with } rfl trivial
  | drainDeliver n => exact hstay rfl trivial
  | giveBack =>
    obtain rfl := hshape.alone_of_drains rfl
    refine Inv.of_goOn { hheld with slot := fun j b hj hb => { hheld.slot j b hj hb with } } (h.turns.give hc) ?_ ?_
    · intro t' hne p hp'
      have hl' := h.local_ t' p hp'
      cases p <;> exact hl'
    · intro p hp'
      cases List.mem_singleton.mp hp'
      trivial
  | _ => cases hp

theorem byteAt_of_take {data frame : Bytes} (h : data.take frame.length = frame) (hi : i < frame.length) :
    byteAt data i = byteAt frame i := by
  conv_rhs => rw [← h]
  rw [byteAt_take hi]

theorem frameType_slot (h : Holds q j b) (hlen : ETH_LEN ≤ b.length) :
    frameType (q.rxq (j % RXQ_FRAMES)).data = frameType b := by
  simp only [ETH_LEN] at hlen
  rw [frameType, frameType, byteAt_of_take h.data (by omega), byteAt_of_take h.data (by omega)]

theorem next_slot (n : Nat) : ((q.released + n) % RXQ_FRAMES + 1) % RXQ_FRAMES = (q.released + (n + 1)) % RXQ_FRAMES :=
  Nat.mod_add_mod ..

theorem Inv.advance_walk (h : Inv q) (hc : q.calls t = p :: rest) (hp : p.walks = true) :
    Inv (advance q t rest p) := by
  have hheld := h.held
  have hl := h.local_ t p (by rw [hc]; exact List.mem_cons_self)
  have hn : Nest rest := by
    have hshape := h.turns.shape t
    rw [hc] at hshape
    exact hshape.nest_of_walks hp
  -- Steps that leave the queue alone.
  have hstay : ∀ {p' : Place}, p'.drains = false → p' ≠ .forget → Local q p' → Inv (q.goOn t (p' :: rest)) :=
    fun hp' hf hl' => h.walk hc hn hheld rfl h.turns rfl rfl hp' hf hl'
  have hwalk : ∀ {i n : Nat}, i = (q.released + n) % RXQ_FRAMES → q.released + n < q.arrived.length →
      Inv (q.goOn t (.walk ((i + 1) % RXQ_FRAMES) (n + 1) :: rest)) := by
    rintro i n rfl hlt
    exact hstay rfl nofun ⟨next_slot n, hlt⟩
  cases p with
  | walkStart =>
    refine hstay rfl nofun ⟨hheld.tail, hheld.le⟩
  | walk i n =>
    obtain ⟨hi, hle⟩ := hl
    simp only [advance]
    split
    · rename_i hmore
      refine hstay rfl nofun ⟨hi, ?_⟩
      rcases hle.lt_or_eq with hlt | heq
      · exact hlt
      · rw [hi, heq, ← hheld.head] at hmore
        exact absurd rfl hmore.1
    · exact h.ret hc rfl nofun
  | walkLen i n =>
    obtain ⟨rfl, hlt⟩ := hl
    simp only [advance]
    split
    · exact hwalk rfl hlt
    · rename_i hlong
      refine hstay rfl nofun ⟨rfl, ?_, hlt⟩
      have hslot := hheld.slot _ _ (Nat.le_add_right q.released n) (List.getElem?_eq_getElem hlt)
      rcases hslot.len with ⟨-, hnot⟩ | ⟨hzero, -⟩
      · exact hnot
      · rw [hzero] at hlong
        exact absurd (by decide) hlong
  | walkType i n =>
    obtain ⟨rfl, hnot, hlt⟩ := hl
    simp only [advance]
    split
    · exact hwalk rfl hlt
    · rename_i htype
      have hb := List.getElem?_eq_getElem hlt
      have hslot := hheld.slot _ _ (Nat.le_add_right q.released n) hb
      refine hstay rfl nofun ⟨rfl, hnot, _, hb, ?_⟩
      rw [frameType_slot hslot (hheld.size _ (List.mem_of_getElem? hb)).1] at htype
      simpa [isArp] using htype
  | walkRead i n =>
    obtain ⟨rfl, hnot, b, hb, harp⟩ := hl
    refine hstay rfl nofun ⟨rfl, hnot, b, hb, harp, ?_⟩
    rcases (hheld.slot _ b (Nat.le_add_right ..) hb).len with ⟨hlen, -⟩ | ⟨-, hdone⟩
    · exact hlen
    · exact absurd hdone hnot
  | walkEmpty i n len =>
    obtain ⟨rfl, hnot, b, hb, harp, rfl⟩ := hl
    have hslot := hheld.slot _ b (Nat.le_add_right ..) hb
    simp only [advance, hslot.data, hslot.seq]
    exact h.walk hc hn (hheld.takeArp (Nat.le_add_right ..) hb hnot harp) rfl { h.turns with } rfl rfl rfl nofun ⟨rfl, hb⟩
  | walkArp i n frame =>
    obtain ⟨rfl, hb⟩ := hl
    exact hwalk rfl (lt_arrived hb)
  | _ => cases hp

theorem Inv.advance (h : Inv q) (hc : q.calls t = p :: rest) : Inv (advance q t rest p) := by
  cases hd : p.drains with
  | true => exact h.advance_drain hc hd
  | false =>
    cases hw : p.walks with
    | true => exact h.advance_walk hc hw
    | false =>
      have hrest : ∀ p' ∈ rest, Local q p' := fun p' hp' => h.local_ t p' (by rw [hc]; exact List.mem_cons_of_mem _ hp')
      have hkeep : ∀ {q' : Queue}, (∀ p', Local q p' → Local q' p') → ∀ t', ∀ p' ∈ q.calls t', Local q' p' :=
        fun hsame t' p' hp' => hsame p' (h.local_ t' p' hp')
      cases p with
      | start =>
        simp only [Net.advance]
        split
        · rename_i hfree
          refine Inv.of_goOn { h.held with slot := fun j b hj hb => { h.held.slot j b hj hb with } }
            (h.turns.take hc hfree 0) ?_ ?_
          · exact fun t' _ => hkeep (fun p' hp' => by cases p' <;> exact hp') t'
          · intro p' hp'
            rcases List.mem_cons.mp hp' with rfl | hp'
            · trivial
            · have hl := hrest p' hp'
              cases p' <;> exact hl
        · have hshape := h.turns.shape t
          rw [hc] at hshape
          cases hshape with
          | alone =>
            refine Inv.of_goOn h.held (h.turns.goOn (.alone rfl) ?_ ?_) (fun t' _ => h.local_ t') ?_
            · rintro ⟨d, hmem, hdr⟩
              cases List.mem_singleton.mp hmem
              cases hdr
            · intro ho
              obtain ⟨d, hmem, hkind⟩ := h.turns.owner t ho
              rw [hc] at hmem
              cases List.mem_singleton.mp hmem
              rcases hkind with hkind | hkind <;> cases hkind
            · intro p' hp'
              cases List.mem_singleton.mp hp'
              trivial
          | inside _ _ hn => exact h.walk hc hn h.held rfl h.turns rfl rfl rfl nofun trivial
      | turnedAway =>
        simp only [Net.advance]
        split
        · rename_i ho
          exact h.walk hc (h.turns.nest_of_owner hc ho) h.held rfl h.turns rfl rfl rfl nofun trivial
        · exact h.ret hc rfl nofun
      | forget =>
        refine Inv.of_goOn { h.held with slot := fun j b hj hb => { h.held.slot j b hj hb with } } (h.turns.forget hc) ?_ ?_
        · exact fun t' _ => hkeep (fun p' hp' => by cases p' <;> exact hp') t'
        · intro p' hp'
          have hl := hrest p' hp'
          cases p' <;> exact hl
      | _ => first | exact Bool.noConfusion hd | exact Bool.noConfusion hw

theorem Reachable.inv (h : Reachable q) : Inv q := by
  induction h with
  | empty => exact .empty
  | step hq hstep ih =>
    cases hstep with
    | receive frame => exact ih.receive frame
    | call t hm => exact ih.call hm
    | goOn t hc => exact ih.advance hc

/-! ## What follows -/

/-- The `j`th frame is between the tail and the head, with all its bytes. -/
def Queued (q : Queue) (j : Nat) (b : Bytes) : Prop :=
  ∃ d < netRxQueued q,
    let slot := q.rxq ((q.rxqTail + d) % RXQ_FRAMES)
    slot.seq = j ∧ slot.len = b.length ∧ slot.data.take slot.len = b

def Place.reading : Place → Option Nat
  | .drainCopy _ tail _ => some tail
  | .walkArp i _ _ => some i
  | _ => none

theorem Held.queued (h : Held q) (hb : q.arrived[j]? = some b) (hnot : ¬ Handled q j) :
    Queued q j b := by
  have hj : q.released ≤ j := by
    by_contra hlt
    exact hnot (h.gone j (by omega))
  have hslot := h.slot j b hj hb
  have hlen : (q.rxq (j % RXQ_FRAMES)).len = b.length := by
    rcases hslot.len with ⟨hlen, -⟩ | ⟨-, hdone⟩
    · exact hlen
    · exact absurd hdone hnot
  have hjlt := lt_arrived hb
  refine ⟨j - q.released, ?_, ?_⟩
  · rw [queued_eq h]
    omega
  · have hat : (q.rxqTail + (j - q.released)) % RXQ_FRAMES = j % RXQ_FRAMES := by
      rw [h.tail, Nat.mod_add_mod, Nat.add_sub_cancel' hj]
    simp only [hat]
    exact ⟨hslot.seq, hlen, by rw [hlen]; exact hslot.data⟩

theorem Inv.reading (h : Inv q) (hp : p ∈ q.calls t) (hi : p.reading = some i) :
    ∃ j, q.released ≤ j ∧ j < q.arrived.length ∧ i = j % RXQ_FRAMES := by
  have hl := h.local_ t p hp
  cases p with
  | drainCopy n tail len =>
    cases hi
    obtain ⟨htail, -, b, hb, -⟩ := hl
    exact ⟨q.released, le_rfl, lt_arrived hb, by rw [htail, h.held.tail]⟩
  | walkArp i n frame =>
    cases hi
    exact ⟨q.released + n, Nat.le_add_right .., lt_arrived hl.2, hl.1⟩
  | _ => cases hi

theorem advance_data (q : Queue) (t : Nat) (rest : List Place) (p : Place) (i : Nat) :
    ((advance q t rest p).rxq i).data = (q.rxq i).data := by
  cases p with
  | walkEmpty k n len =>
    simp only [advance, Queue.goOn, Queue.handle, Queue.emptySlot]
    by_cases hik : i = k
    · subst hik
      simp
    · simp [hik]
  | _ =>
    simp only [advance]
    (try split) <;> rfl

theorem Inv.kept (h : Inv q) (hs : Step q q') (hp : p ∈ q.calls t) (hi : p.reading = some i) :
    (q'.rxq i).data = (q.rxq i).data := by
  cases hs with
  | call t' hm => rfl
  | goOn t' hc => exact advance_data ..
  | receive frame =>
    obtain ⟨-, heq⟩ | ⟨-, heq⟩ | ⟨-, -, hroom, m, heq⟩ := netReceive_cases q frame <;> rw [heq]
    obtain ⟨j, hj, hlt, rfl⟩ := h.reading hp hi
    have hother : j % RXQ_FRAMES ≠ q.rxqHead := by
      rw [h.held.head]
      intro he
      have heq' := h.held.slot_inj hj hlt.le h.held.le le_rfl he
      omega
    simp only [Queue.push, Function.update_of_ne hother]

/-- **The receive queue loses and repeats nothing**: a frame put in it is handled once, with its bytes, and in order but
for ARP; a slot is not written while it is read; and only a full queue turns a frame away. -/
theorem queue_delivers (h : Reachable q) :
    (∀ j b, q.arrived[j]? = some b → Handled q j ∨ Queued q j b) ∧
    (q.handled.map Prod.fst).Nodup ∧ (∀ e ∈ q.handled, q.arrived[e.1]? = some e.2) ∧
    ((q.handled.filter fun e => !isArp e.2).map Prod.fst).Pairwise (· < ·) ∧
    (∀ q', Step q q' → ∀ t, ∀ p ∈ q.calls t, ∀ i, p.reading = some i → (q'.rxq i).data = (q.rxq i).data) ∧
    (∀ frame : Bytes, ETH_LEN ≤ frame.length → frame.length ≤ RXQ_FRAME_MAX →
      (netReceive q frame).arrived = q.arrived ++ [frame] ∨ netRxQueued q = RXQ_FRAMES - 1) := by
  have hinv := h.inv
  refine ⟨?_, hinv.held.nodup, hinv.held.bytes, hinv.held.order, ?_, ?_⟩
  · intro j b hb
    by_cases hdone : Handled q j
    · exact .inl hdone
    · exact .inr (hinv.held.queued hb hdone)
  · intro q' hs t p hp i hi
    exact hinv.kept hs hp hi
  · intro frame hlo hhi
    obtain ⟨hbad, -⟩ | ⟨hfull, -⟩ | ⟨-, -, -, m, heq⟩ := netReceive_cases q frame
    · omega
    · exact .inr ((full_iff hinv.held).mp hfull)
    · exact .inl (by rw [heq]; rfl)

/-! ## A drain with a walk inside it -/

def goes (t : Nat) : Nat → Queue → Queue
  | 0, q => q
  | n + 1, q =>
    match q.calls t with
    | [] => q
    | p :: rest => goes t n (advance q t rest p)

theorem goes_reachable (t n : Nat) (h : Reachable q) : Reachable (goes t n q) := by
  induction n generalizing q with
  | zero => exact h
  | succ n ih =>
    simp only [goes]
    split
    · exact h
    · rename_i p rest hc
      exact ih (h.step (.goOn t hc))

def sampleFrame (type : UInt8) : Bytes := List.replicate 12 0 ++ [8, type, 1]

@[irreducible] def sampleInside : Queue :=
  goes 1 6 ((netReceive (netReceive .empty (sampleFrame 0)) (sampleFrame 6)).goOn 1 [.start])

theorem sampleInside_calls : sampleInside.calls 1 = [.drainDeliver 0] := by
  decide +kernel

theorem sampleInside_reachable : Reachable sampleInside := by
  unfold sampleInside
  exact goes_reachable 1 6 (.step (.step (.step .empty (.receive _)) (.receive _)) (.call 1 trivial))

/-- The handler has called again, which has come to the ARP frame. -/
def sampleQueue : Queue := goes 1 8 (sampleInside.goOn 1 (.start :: sampleInside.calls 1))

theorem sampleQueue_reachable : Reachable sampleQueue := by
  refine goes_reachable 1 8 (sampleInside_reachable.step (.call 1 ?_))
  rw [sampleInside_calls]
  exact rfl

theorem queue_delivers_sample :
    sampleQueue.handled = [(0, sampleFrame 0), (1, sampleFrame 6)] ∧ (sampleQueue.handled.map Prod.fst).Nodup :=
  ⟨by decide +kernel, (queue_delivers sampleQueue_reachable).2.1⟩

end Zelr.Net
