import Zelr.Files.Pipe

/-!
# A pipe is a queue

What the calls on a pipe do to its ring, whatever the order of their turns.
-/

namespace Zelr.Files

variable {p : Pipe} {src : Bytes} {n done waited : Nat} {calls : Nat → Option Call}

/-! ## The ring -/

/-- The bytes in the ring, in the order they will be read. -/
def Pipe.contents (p : Pipe) : Bytes := Ring.contents p.buf p.head p.count

/-- The three numbers agree, and the buffer has its size. -/
structure Pipe.Sound (p : Pipe) : Prop where
  size : p.buf.length = PIPE_SIZE
  head : p.head < PIPE_SIZE
  tail : p.tail = (p.head + p.count) % PIPE_SIZE
  count : p.count ≤ PIPE_SIZE

theorem pipeNew_sound : pipeNew.Sound where
  size := List.length_replicate
  head := by decide
  tail := by decide
  count := by decide

theorem Pipe.Sound.contents_length (h : p.Sound) : p.contents.length = p.count :=
  Ring.contents_length _ _ (by rw [h.size]; exact h.count)

theorem ringIn_places (hsize : p.buf.length = PIPE_SIZE) (htail : p.tail < PIPE_SIZE)
    (hsrc : n ≤ src.length) (hn : n ≤ PIPE_SIZE) :
    ∃ buf, ringIn p src n = some { p with buf, tail := (p.tail + n) % PIPE_SIZE } ∧
      buf.length = PIPE_SIZE ∧ (∀ i < n, buf[(p.tail + i) % PIPE_SIZE]? = src[i]?) ∧
      ∀ j, (∀ i < n, j ≠ (p.tail + i) % PIPE_SIZE) → buf[j]? = p.buf[j]? := by
  unfold ringIn
  generalize hfirst : (if PIPE_SIZE - p.tail < n then PIPE_SIZE - p.tail else n) = first
  have hle : first ≤ n ∧ p.tail + first ≤ PIPE_SIZE ∧ (first < n → p.tail + first = PIPE_SIZE) := by
    rw [← hfirst]
    split <;> omega
  have hlen : (src.take first).length = first := by
    rw [List.length_take]
    omega
  obtain ⟨one, hone⟩ : ∃ one, blit p.buf p.tail (src.take first) = some one := ⟨_, blit_eq_some (by omega)⟩
  have honelen := blit_length hone
  have hplace : ∀ i < n, (p.tail + i) % PIPE_SIZE =
      if p.tail + i < PIPE_SIZE then p.tail + i else p.tail + i - PIPE_SIZE :=
    fun i hi => Ring.mod_of_lt_two_mul (by omega)
  simp only [hone, Option.bind_eq_bind, Option.bind_some]
  by_cases hwrap : n > first
  · have hlen' : ((src.drop first).take (n - first)).length = n - first := by
      rw [List.length_take, List.length_drop]
      omega
    obtain ⟨two, htwo⟩ : ∃ two, blit one 0 ((src.drop first).take (n - first)) = some two :=
      ⟨_, blit_eq_some (by omega)⟩
    refine ⟨two, ?_, by rw [blit_length htwo, honelen, hsize], fun i hi => ?_, fun j hj => ?_⟩
    · rw [if_pos hwrap, htwo]
      rfl
    · rw [hplace i hi]
      split
      · rw [blit_outside htwo (by omega), blit_inside hone (by omega) (by omega), Nat.add_sub_cancel_left,
          List.getElem?_take_of_lt (by omega)]
      · rw [blit_inside htwo (by omega) (by omega), List.getElem?_take_of_lt (by omega), List.getElem?_drop]
        exact congrArg (src[·]?) (by omega)
    · have houter : ¬ j < n - first := fun hlt => hj (j + first) (by omega) (by rw [hplace _ (by omega)]; split <;> omega)
      have hinner : ¬ (p.tail ≤ j ∧ j < PIPE_SIZE) :=
        fun h => hj (j - p.tail) (by omega) (by rw [hplace _ (by omega)]; split <;> omega)
      by_cases hbig : PIPE_SIZE ≤ j
      · rw [List.getElem?_eq_none (by rw [blit_length htwo]; omega), List.getElem?_eq_none (by omega)]
      · rw [blit_outside htwo (by omega), blit_outside hone (by omega)]
  · refine ⟨one, by rw [if_neg hwrap], by rw [honelen, hsize], fun i hi => ?_, fun j hj => ?_⟩
    · rw [hplace i hi, if_pos (by omega), blit_inside hone (by omega) (by omega), Nat.add_sub_cancel_left,
        List.getElem?_take_of_lt (by omega)]
    · have hinner : ¬ (p.tail ≤ j ∧ j < p.tail + n) :=
        fun h => hj (j - p.tail) (by omega) (by rw [hplace _ (by omega)]; split <;> omega)
      rw [blit_outside hone (by omega)]

theorem ringIn_spec {p : Pipe} (h : p.Sound) {src : Bytes} {n : Nat} (hsrc : n ≤ src.length)
    (hroom : p.count + n ≤ PIPE_SIZE) :
    ∃ p', ringIn p src n = some p' ∧ ({ p' with count := p'.count + n } : Pipe).Sound ∧
      ({ p' with count := p'.count + n } : Pipe).contents = p.contents ++ src.take n ∧
      p'.count = p.count ∧ p'.readers = p.readers ∧ p'.writers = p.writers := by
  have hsize := h.size
  have hhead := h.head
  have htlt : p.tail < PIPE_SIZE := by
    rw [h.tail]
    exact Nat.mod_lt _ (by decide)
  obtain ⟨buf, hring, hlen, hnew, hkept⟩ := ringIn_places hsize htlt hsrc (by omega)
  have hmod : ∀ i, (p.tail + i) % PIPE_SIZE = (p.head + p.count + i) % PIPE_SIZE := by
    intro i
    rw [h.tail, Nat.mod_add_mod]
  have htake : (src.take n).length = n := by
    rw [List.length_take]
    omega
  refine ⟨_, hring, ⟨hlen, hhead, ?_, hroom⟩, ?_, rfl, rfl, rfl⟩
  · show (p.tail + n) % PIPE_SIZE = _
    rw [hmod, Nat.add_assoc]
  · show Ring.contents buf p.head (p.count + n) = _
    rw [← htake, Pipe.contents]
    nth_rewrite 2 [htake]
    refine Ring.contents_push (by omega) (by omega) (fun i hi => ?_) (fun i hi => ?_)
    · rw [hsize]
      refine hkept _ fun k hk => ?_
      rw [hmod, Ring.mod_of_lt_two_mul (by omega), Nat.add_assoc]
      intro heq
      rw [show (p.head + (p.count + k)) % PIPE_SIZE = _ from Ring.mod_of_lt_two_mul (by omega)] at heq
      split at heq <;> split at heq <;> omega
    · rw [hsize, ← hmod, hnew i (by omega), List.getElem?_take_of_lt (by omega)]

theorem ringOut_spec (h : p.Sound) (hn : n ≤ p.count) :
    (ringOut p n).1 = p.contents.take n ∧
      ({ (ringOut p n).2 with count := p.count - n } : Pipe).Sound ∧
      ({ (ringOut p n).2 with count := p.count - n } : Pipe).contents = p.contents.drop n := by
  have hsize := h.size
  have hhead := h.head
  have hcount := h.count
  refine ⟨?_, ⟨hsize, Nat.mod_lt _ (by decide), ?_, by dsimp only; omega⟩, ?_⟩
  · rw [Pipe.contents, Ring.contents_take _ (by omega) hn, hsize]
    unfold ringOut
    dsimp only
    by_cases hwrap : PIPE_SIZE - p.head < n
    · rw [if_pos hwrap, if_pos hwrap, List.take_of_length_le (i := n) (by simp; omega),
        List.take_of_length_le (by simp; omega), List.take_take, Nat.min_eq_left (by omega)]
    · rw [if_neg hwrap, if_neg (lt_irrefl n), Nat.sub_eq_zero_of_le (by omega), List.take_zero, List.append_nil]
  · show p.tail = ((p.head + n) % PIPE_SIZE + (p.count - n)) % PIPE_SIZE
    rw [Nat.mod_add_mod, h.tail]
    congr 1
    omega
  · show Ring.contents p.buf ((p.head + n) % PIPE_SIZE) (p.count - n) = _
    rw [← hsize]
    exact Ring.contents_pop _ (by omega) hn

/-! ## What a step does -/

def putBytes (es : List Event) : Bytes := es.flatMap fun
  | .put _ chunk => chunk
  | _ => []

def tookBytes (es : List Event) : Bytes := es.flatMap fun
  | .readReturned _ _ data => data
  | _ => []

@[simp] theorem putBytes_append (xs ys : List Event) : putBytes (xs ++ ys) = putBytes xs ++ putBytes ys :=
  List.flatMap_append

@[simp] theorem tookBytes_append (xs ys : List Event) : tookBytes (xs ++ ys) = tookBytes xs ++ tookBytes ys :=
  List.flatMap_append

variable {s s' : Sys} {st : Step} {new es : List Event} {p p' : Pipe} {t : Nat}

theorem turn_cases (h : step s (.turn t) = some (s', new)) : ∃ p waited, s.pipe = some p ∧
    ((∃ len, s.calls t = some ⟨.reading len, waited, .running⟩ ∧ readTurn s p t len waited = (s', new)) ∨
      ∃ src done, s.calls t = some ⟨.writing src done, waited, .running⟩ ∧
        writeTurn s p t src done waited = some (s', new)) := by
  unfold step at h
  dsimp only at h
  split at h
  · exact ⟨_, _, ‹_›, .inl ⟨_, ‹_›, Option.some.inj h⟩⟩
  · exact ⟨_, _, ‹_›, .inr ⟨_, _, ‹_›, h⟩⟩
  · cases h

/-- The pipe before and after, and the bytes that went in and came out. -/
inductive Moves : Option Pipe → Bytes → Bytes → Option Pipe → Prop where
  | still (o : Option Pipe) : Moves o [] [] o
  | take {p p' : Pipe} (n : Nat) (hsound : p'.Sound) (hcontents : p'.contents = p.contents.drop n)
      (hends : p'.readers = p.readers ∧ p'.writers = p.writers) :
      Moves (some p) [] (p.contents.take n) (some p')
  | put {p p' : Pipe} (chunk : Bytes) (hsound : p'.Sound) (hcontents : p'.contents = p.contents ++ chunk)
      (hreaders : p.readers ≠ 0) (hends : p'.readers = p.readers ∧ p'.writers = p.writers) :
      Moves (some p) chunk [] (some p')
  | close (p : Pipe) (writeEnd : Bool) : Moves (some p) [] [] (pipeClose p writeEnd)

theorem readTurn_moves (hsound : p.Sound) (hpipe : s.pipe = some p) (len waited : Nat) :
    Moves s.pipe (putBytes (readTurn s p t len waited).2) (tookBytes (readTurn s p t len waited).2)
      (readTurn s p t len waited).1.pipe := by
  unfold readTurn
  split
  · split
    · exact .still _
    · exact .still _
  · obtain ⟨hout, hsound', hcontents⟩ :=
      ringOut_spec hsound (n := if p.count < len then p.count else len) (by split <;> omega)
    have htook : ∀ xs, tookBytes [.readReturned t len xs] = xs := fun xs => List.append_nil xs
    dsimp only
    rw [hpipe, htook, hout]
    exact .take _ hsound' hcontents ⟨rfl, rfl⟩

theorem writeTurn_cases
    (h : writeTurn s p t src done waited = some (s', new)) :
    (p.readers = 0 ∧ s' = s.setCall t none ∧ new = [.writeReturned t (managed done)]) ∨
      (p.readers ≠ 0 ∧ p.count = PIPE_SIZE ∧ new = [] ∧
        s' = s.setCall t (some ⟨.writing src done, waited, .blocked .hasSpace⟩)) ∨
      ∃ n q call rest, p.readers ≠ 0 ∧ p.count ≠ PIPE_SIZE ∧ n ≤ src.length - done ∧ n ≤ PIPE_SIZE - p.count ∧
        (n = src.length - done ∨ n = PIPE_SIZE - p.count) ∧
        ringIn p (src.drop done) n = some q ∧
        s' = ⟨some { q with count := q.count + n }, wakeAll .hasData (s.setCall t call).calls⟩ ∧
        new = .put t ((src.drop done).take n) :: rest ∧
        ((call = some ⟨.writing src (done + n), 0, .running⟩ ∧ done + n < src.length ∧ rest = []) ∨
          (call = none ∧ rest = [.writeReturned t (Int.bmod (done + n) (2 ^ 32))])) := by
  unfold writeTurn at h
  split at h
  · cases h
    exact .inl ⟨‹_›, rfl, rfl⟩
  · rename_i hreaders
    split at h
    · cases h
      exact .inr (.inl ⟨hreaders, ‹_›, rfl, rfl⟩)
    · rename_i hfull
      dsimp only at h
      generalize hn : (if src.length - done > PIPE_SIZE - p.count then PIPE_SIZE - p.count
        else src.length - done) = n at h
      have hle : n ≤ src.length - done ∧ n ≤ PIPE_SIZE - p.count ∧
          (n = src.length - done ∨ n = PIPE_SIZE - p.count) := by
        rw [← hn]
        split <;> omega
      cases hring : ringIn p (src.drop done) n with
      | none =>
        rw [hring] at h
        cases h
      | some q =>
        rw [hring] at h
        dsimp only [Bind.bind, Option.bind] at h
        split at h
        · rename_i hmore
          cases h
          exact .inr (.inr ⟨n, q, _, _, hreaders, hfull, hle.1, hle.2.1, hle.2.2, hring, rfl, rfl,
            .inl ⟨rfl, hmore, rfl⟩⟩)
        · cases h
          exact .inr (.inr ⟨n, q, _, _, hreaders, hfull, hle.1, hle.2.1, hle.2.2, hring, rfl, rfl, .inr ⟨rfl, rfl⟩⟩)

theorem writeTurn_moves (hsound : p.Sound) (hpipe : s.pipe = some p)
    (h : writeTurn s p t src done waited = some (s', new)) :
    Moves s.pipe (putBytes new) (tookBytes new) s'.pipe := by
  rcases writeTurn_cases h with ⟨-, rfl, rfl⟩ | ⟨-, -, rfl, rfl⟩ |
    ⟨n, q, call, rest, hreaders, -, hleft, hroom, -, hring, rfl, rfl, hrest⟩
  · exact .still _
  · exact .still _
  · have hcount := hsound.count
    obtain ⟨q', hring', hq, hcontents, -, hr, hw⟩ :=
      @ringIn_spec p hsound (src.drop done) n (by rw [List.length_drop]; omega) (by omega)
    cases hring.symm.trans hring'
    have hput : putBytes (.put t ((src.drop done).take n) :: rest) = (src.drop done).take n ∧
        tookBytes (.put t ((src.drop done).take n) :: rest) = [] := by
      rcases hrest with ⟨-, -, rfl⟩ | ⟨-, rfl⟩
      · exact ⟨List.append_nil _, rfl⟩
      · exact ⟨List.append_nil _, rfl⟩
    rw [hpipe, hput.1, hput.2]
    exact .put _ hq hcontents hreaders ⟨hr, hw⟩

theorem step_moves (hsound : ∀ p, s.pipe = some p → p.Sound) (h : step s st = some (s', new)) :
    Moves s.pipe (putBytes new) (tookBytes new) s'.pipe := by
  cases st with
  | read t len =>
    unfold step at h
    dsimp only at h
    split at h
    · split at h <;> cases h <;> exact .still _
    · cases h
  | write t src =>
    unfold step at h
    dsimp only at h
    split at h
    · split at h <;> cases h <;> exact .still _
    · cases h
  | turn t =>
    obtain ⟨p, waited, hpipe, ⟨len, -, heq⟩ | ⟨src, done, -, heq⟩⟩ := turn_cases h
    · have hmoves := readTurn_moves (t := t) (hsound p hpipe) hpipe len waited
      rw [heq] at hmoves
      exact hmoves
    · exact writeTurn_moves (hsound p hpipe) hpipe heq
  | deadline t =>
    unfold step at h
    dsimp only at h
    split at h
    · cases h
      exact .still _
    · cases h
  | resume t =>
    unfold step at h
    dsimp only at h
    split at h
    · cases h
      exact .still _
    · rename_i doing waited _
      split at h
      · cases h
        cases doing <;> exact .still _
      · cases h
        exact .still _
    · cases h
  | close writeEnd =>
    unfold step at h
    dsimp only at h
    split at h
    · rename_i p hpipe
      cases h
      rw [hpipe]
      exact .close p writeEnd
    · cases h

theorem pipeClose_some {writeEnd : Bool} (h : pipeClose p writeEnd = some p') :
    (p.Sound → p'.Sound) ∧ p'.contents = p.contents ∧ p'.readers ≤ p.readers ∧ p'.writers ≤ p.writers := by
  unfold pipeClose at h
  cases writeEnd with
  | false =>
    obtain ⟨-, heq⟩ := Option.ite_none_left_eq_some.mp h
    cases heq
    exact ⟨fun h => ⟨h.size, h.head, h.tail, h.count⟩, rfl, Nat.sub_le _ _, le_rfl⟩
  | true =>
    obtain ⟨-, heq⟩ := Option.ite_none_left_eq_some.mp h
    cases heq
    exact ⟨fun h => ⟨h.size, h.head, h.tail, h.count⟩, rfl, le_rfl, Nat.sub_le _ _⟩

theorem Moves.unread {o o' : Option Pipe} {xs ys : Bytes} (h : Moves o xs ys o') (ho : o = some p)
    (hreaders : p.readers = 0) : xs = [] ∧ ∀ p', o' = some p' → p'.readers = 0 := by
  cases h with
  | still =>
    subst ho
    refine ⟨rfl, fun p' hp' => ?_⟩
    cases hp'
    exact hreaders
  | take n hsound hcontents hends =>
    cases ho
    refine ⟨rfl, fun p' hp' => ?_⟩
    cases hp'
    exact hends.1.trans hreaders
  | put chunk hsound hcontents hsome hends =>
    cases ho
    exact absurd hreaders hsome
  | close q writeEnd =>
    cases ho
    refine ⟨rfl, fun p' hp' => ?_⟩
    have hle := (pipeClose_some hp').2.2.1
    omega

/-- A call of `pipe_read` that wanted something and got nothing is at the end of the file, or has waited
for as long as it may. -/
theorem read_nothing (hsound : ∀ p, s.pipe = some p → p.Sound) (h : step s st = some (s', new)) {len : Nat}
    (hmem : .readReturned t len [] ∈ new) (hlen : len ≠ 0) :
    (∃ p, s.pipe = some p ∧ p.count = 0 ∧ p.writers = 0) ∨
      ∃ waited, s.calls t = some ⟨.reading len, waited, .ready false⟩ ∧
        PIPE_GIVE_UP_MS ≤ waited + PIPE_POLL_MS := by
  cases st with
  | read u k =>
    unfold step at h
    dsimp only at h
    split at h
    · split at h
      · cases h
        cases List.mem_singleton.mp hmem
        exact absurd rfl hlen
      · cases h
        cases hmem
    · cases h
  | write u src =>
    unfold step at h
    dsimp only at h
    split at h
    · split at h
      · cases h
        cases List.mem_singleton.mp hmem
      · cases h
        cases hmem
    · cases h
  | turn u =>
    obtain ⟨p, waited, hpipe, ⟨k, -, heq⟩ | ⟨src, done, -, heq⟩⟩ := turn_cases h
    · refine .inl ⟨p, hpipe, ?_⟩
      unfold readTurn at heq
      split at heq
      · rename_i hcount
        split at heq
        · exact ⟨hcount, ‹_›⟩
        · cases heq
          cases hmem
      · rename_i hcount
        cases heq
        have heq := List.mem_singleton.mp hmem
        injection heq with _ hk hdata
        obtain ⟨hout, -, -⟩ := ringOut_spec (hsound p hpipe) (n := if p.count < k then p.count else k)
          (by split <;> omega)
        have hlength := congrArg List.length (hdata.trans hout)
        rw [List.length_take, (hsound p hpipe).contents_length, List.length_nil] at hlength
        split at hlength <;> omega
    · rcases writeTurn_cases heq with ⟨-, -, rfl⟩ | ⟨-, -, rfl, -⟩ |
        ⟨n, q, call, rest, -, -, -, -, -, -, -, rfl, ⟨-, -, rfl⟩ | ⟨-, rfl⟩⟩
      · cases List.mem_singleton.mp hmem
      · cases hmem
      · cases List.mem_singleton.mp hmem
      · simp at hmem
  | deadline u =>
    unfold step at h
    dsimp only at h
    split at h
    · cases h
      cases hmem
    · cases h
  | resume u =>
    unfold step at h
    dsimp only at h
    split at h
    · cases h
      cases hmem
    · rename_i doing waited hcall
      split at h
      · rename_i hwaited
        cases h
        cases doing with
        | reading k =>
          cases List.mem_singleton.mp hmem
          exact .inr ⟨waited, hcall, hwaited⟩
        | writing src done => cases List.mem_singleton.mp hmem
      · cases h
        cases hmem
    · cases h
  | close writeEnd =>
    unfold step at h
    dsimp only at h
    split at h
    · cases h
      cases hmem
    · cases h

/-! ## Runs -/

/-- From a new pipe, with what was seen on the way. -/
inductive Run : Sys → List Event → Prop where
  | start : Run ⟨some pipeNew, fun _ => none⟩ []
  | step {s s' : Sys} {es new : List Event} {st : Step} (h : Run s es) (hstep : step s st = some (s', new)) :
      Run s' (es ++ new)

/-- What went in is what came out and what is still in the ring. -/
structure Queued (s : Sys) (es : List Event) : Prop where
  sound : ∀ p, s.pipe = some p → p.Sound
  order : ∃ rest, putBytes es = tookBytes es ++ rest ∧ ∀ p, s.pipe = some p → rest = p.contents

theorem Queued.step (h : Queued s es) (hstep : step s st = some (s', new)) : Queued s' (es ++ new) := by
  obtain ⟨hsound, rest, horder, hrest⟩ := h
  have hmoves := step_moves hsound hstep
  generalize hin : putBytes new = xs at hmoves
  generalize hout : tookBytes new = ys at hmoves
  generalize hbefore : s.pipe = o at hmoves hsound hrest
  generalize hafter : s'.pipe = o' at hmoves
  suffices hgoal : (∀ p, o' = some p → p.Sound) ∧
      ∃ rest', putBytes es ++ xs = tookBytes es ++ ys ++ rest' ∧ ∀ p, o' = some p → rest' = p.contents by
    refine ⟨by rw [hafter]; exact hgoal.1, ?_⟩
    rw [hafter, putBytes_append, tookBytes_append, hin, hout]
    exact hgoal.2
  cases hmoves with
  | still =>
    refine ⟨hsound, rest, ?_, hrest⟩
    rw [List.append_nil, List.append_nil, horder]
  | @take p p' n hsound' hcontents hends =>
    refine ⟨fun q hq => by cases hq; exact hsound', rest.drop n, ?_, fun q hq => by cases hq; rw [hcontents, hrest p rfl]⟩
    rw [List.append_nil, List.append_assoc, ← hrest p rfl, List.take_append_drop, horder]
  | @put p p' chunk hsound' hcontents hreaders hends =>
    refine ⟨fun q hq => by cases hq; exact hsound', rest ++ xs, ?_, fun q hq => by cases hq; rw [hcontents, hrest p rfl]⟩
    rw [List.append_nil, horder, List.append_assoc]
  | close p writeEnd =>
    refine ⟨fun q hq => (pipeClose_some hq).1 (hsound p rfl), rest, ?_, fun q hq => ?_⟩
    · rw [List.append_nil, List.append_nil, horder]
    · rw [(pipeClose_some hq).2.1, hrest p rfl]

theorem Run.queued (h : Run s es) : Queued s es := by
  induction h with
  | start =>
    refine ⟨fun p hp => ?_, [], rfl, fun p hp => ?_⟩
    · cases hp
      exact pipeNew_sound
    · cases hp
      rfl
  | step h hstep ih => exact ih.step hstep

/-- Whatever the order of the turns, the bytes come out in the order they went in, and what is missing is in the ring; a
read that gets nothing is at the end or has given up. -/
theorem pipe_fifo (s : Sys) (es : List Event) (h : Run s es) :
    tookBytes es <+: putBytes es ∧
      (∀ p, s.pipe = some p →
        putBytes es = tookBytes es ++ p.contents ∧ p.contents.length = p.count ∧ p.count ≤ PIPE_SIZE) ∧
      ∀ st s' new, step s st = some (s', new) →
        (∀ t len, .readReturned t len [] ∈ new → len ≠ 0 →
          (∃ p, s.pipe = some p ∧ p.count = 0 ∧ p.writers = 0) ∨
            ∃ waited, s.calls t = some ⟨.reading len, waited, .ready false⟩ ∧
              PIPE_GIVE_UP_MS ≤ waited + PIPE_POLL_MS) ∧
        ∀ p, s.pipe = some p → p.readers = 0 →
          putBytes new = [] ∧ ∀ p', s'.pipe = some p' → p'.readers = 0 := by
  obtain ⟨hsound, rest, horder, hrest⟩ := h.queued
  refine ⟨⟨rest, horder.symm⟩, fun p hp => ?_, fun st s' new hstep => ⟨fun t len hmem hlen => ?_, fun p hp hreaders => ?_⟩⟩
  · rw [horder, hrest p hp]
    exact ⟨rfl, (hsound p hp).contents_length, (hsound p hp).count⟩
  · exact read_nothing hsound hstep hmem hlen
  · exact (step_moves hsound hstep).unread hp hreaders

def runSteps (s : Sys) : List Step → Option (Sys × List Event)
  | [] => some (s, [])
  | st :: sts => do
    let (s, new) ← step s st
    let (s, later) ← runSteps s sts
    some (s, new ++ later)

theorem Run.runSteps (h : Run s es) {sts : List Step} (hrun : runSteps s sts = some (s', new)) :
    Run s' (es ++ new) := by
  induction sts generalizing s es new with
  | nil =>
    cases hrun
    rw [List.append_nil]
    exact h
  | cons st sts ih =>
    unfold Files.runSteps at hrun
    cases hstep : Files.step s st with
    | none =>
      rw [hstep] at hrun
      cases hrun
    | some one =>
      rw [hstep] at hrun
      dsimp only [Bind.bind, Option.bind] at hrun
      cases hrest : Files.runSteps one.1 sts with
      | none =>
        rw [hrest] at hrun
        cases hrun
      | some two =>
        rw [hrest] at hrun
        cases hrun
        rw [← List.append_assoc]
        exact ih (h.step hstep) hrest

/-- A task finds nothing to read and sleeps, another writes two bytes, and the first is woken and takes one. -/
theorem samplePipe_fifo : ∃ s p, Run s [.put 7 [1, 2], .writeReturned 7 2, .readReturned 9 1 [1]] ∧ s.pipe = some p ∧
    p.contents = [2] := by
  obtain ⟨q, hring, hq, hcontents, hcount, hreaders, -⟩ :=
    @ringIn_spec pipeNew pipeNew_sound [1, 2] 2 (by decide) (by decide)
  let reading := (⟨some pipeNew, fun _ => none⟩ : Sys).setCall 9 (some ⟨.reading 1, 0, .running⟩)
  let calling := (reading.setCall 9 (some ⟨.reading 1, 0, .blocked .hasData⟩)).setCall 7
    (some ⟨.writing [1, 2] 0, 0, .running⟩)
  have hwrite : writeTurn calling pipeNew 7 [1, 2] 0 0 =
      some (⟨some { q with count := q.count + 2 }, wakeAll .hasData (calling.setCall 7 none).calls⟩,
        [.put 7 [1, 2], .writeReturned 7 2]) := by
    unfold writeTurn
    rw [if_neg (by decide), if_neg (by decide)]
    have hn : (if ([1, 2] : Bytes).length - 0 > PIPE_SIZE - pipeNew.count then PIPE_SIZE - pipeNew.count
      else ([1, 2] : Bytes).length - 0) = 2 := by decide
    dsimp only
    rw [hn, List.drop_zero, hring]
    rfl
  have hasleep := @Run.step _ _ _ _ (.turn 9) (@Run.step _ _ _ _ (.read 9 1) .start rfl) rfl
  have hcalling := @Run.step _ _ _ _ (.write 7 [1, 2]) hasleep rfl
  have hwoken := @Run.step _ _ _ _ (.turn 7) hcalling hwrite
  have hready := @Run.step _ _ _ _ (.resume 9) hwoken rfl
  have hn : (if q.count + 2 < 1 then q.count + 2 else 1) = 1 := if_neg (by omega)
  have hread : ∀ s, readTurn s { q with count := q.count + 2 } 9 1 0 =
      (⟨some { (ringOut { q with count := q.count + 2 } 1).2 with count := q.count + 2 - 1 },
        wakeAll .hasSpace (s.setCall 9 none).calls⟩, [.readReturned 9 1 [1]]) := fun s => by
    unfold readTurn
    rw [if_neg (by simp)]
    dsimp only
    rw [hn, (ringOut_spec hq (by simp)).1, hcontents]
    rfl
  have hturn : ∀ s, s.pipe = some { q with count := q.count + 2 } → s.calls 9 = some ⟨.reading 1, 0, .running⟩ →
      step s (.turn 9) = some (readTurn s { q with count := q.count + 2 } 9 1 0) := fun s hp hc => by
    unfold step
    dsimp only
    rw [hp, hc]
  have hrun := Run.step hready ((hturn _ rfl rfl).trans (congrArg some (hread _)))
  refine ⟨_, _, hrun, rfl, ?_⟩
  obtain ⟨horder, -⟩ := (pipe_fifo _ _ hrun).2.1 _ rfl
  exact (List.cons.inj horder).2.symm

/-! ## Nobody sleeps through what he waits for -/

def Call.Waits (p : Pipe) (c : Call) : Prop :=
  (c.standing = .blocked .hasData → p.count = 0 ∧ p.writers ≠ 0) ∧
    (c.standing = .blocked .hasSpace → p.count = PIPE_SIZE ∧ p.readers ≠ 0)

def AllWait (s : Sys) : Prop := ∀ p, s.pipe = some p → ∀ t c, s.calls t = some c → c.Waits p

theorem Call.Waits.free {c : Call} (h : ∀ on, c.standing ≠ .blocked on) : c.Waits p :=
  ⟨fun hon => absurd hon (h _), fun hon => absurd hon (h _)⟩

theorem AllWait.setCall (h : AllWait s) {call : Option Call}
    (hcall : ∀ p, s.pipe = some p → ∀ c, call = some c → c.Waits p) : AllWait (s.setCall t call) := by
  intro p hp u c hc
  unfold Sys.setCall at hp hc
  dsimp only at hp hc
  by_cases hu : u = t
  · subst hu
    rw [Function.update_self] at hc
    exact hcall p hp c hc
  · rw [Function.update_of_ne hu] at hc
    exact h p hp u c hc

theorem wakeAll_some {on : Channel} {calls : Nat → Option Call} {c : Call} (h : wakeAll on calls t = some c) :
    c.standing ≠ .blocked on ∧
      ∀ other, c.standing = .blocked other → ∃ c₀, calls t = some c₀ ∧ c₀.standing = .blocked other := by
  unfold wakeAll at h
  obtain ⟨c₀, hc₀, rfl⟩ := Option.map_eq_some_iff.mp h
  split
  · exact ⟨nofun, nofun⟩
  · exact ⟨‹_›, fun other hother => ⟨c₀, hc₀, hother⟩⟩

theorem AllWait.take (h : AllWait s) (hpipe : s.pipe = some p) (hsome : p.count ≠ 0) :
    AllWait ⟨some p', wakeAll .hasSpace (s.setCall t none).calls⟩ := by
  intro q hq u c hc
  obtain ⟨hother, hold⟩ := wakeAll_some hc
  refine ⟨fun hon => ?_, fun hon => absurd hon hother⟩
  obtain ⟨c₀, hc₀, hstanding⟩ := hold _ hon
  have hwaits : AllWait (s.setCall t none) := h.setCall nofun
  exact absurd ((hwaits p hpipe u c₀ hc₀).1 hstanding).1 hsome

theorem AllWait.put (h : AllWait s) (hpipe : s.pipe = some p) (hroom : p.count ≠ PIPE_SIZE)
    {call : Option Call} (hcall : ∀ c, call = some c → c.standing = .running) :
    AllWait ⟨some p', wakeAll .hasData (s.setCall t call).calls⟩ := by
  intro q hq u c hc
  obtain ⟨hother, hold⟩ := wakeAll_some hc
  refine ⟨fun hon => absurd hon hother, fun hon => ?_⟩
  obtain ⟨c₀, hc₀, hstanding⟩ := hold _ hon
  have hwaits : AllWait (s.setCall t call) := by
    refine h.setCall fun p hp c hc => .free fun on hon => ?_
    rw [hcall c hc] at hon
    cases hon
  exact absurd ((hwaits p hpipe u c₀ hc₀).2 hstanding).1 hroom

theorem AllWait.close (h : AllWait s) (hpipe : s.pipe = some p) (writeEnd : Bool) {calls : Nat → Option Call}
    (hcalls : calls = if (if writeEnd then p.writers - 1 = 0 else p.readers - 1 = 0) then
      wakeAll (if writeEnd then .hasData else .hasSpace) s.calls else s.calls) :
    AllWait ⟨pipeClose p writeEnd, calls⟩ := by
  intro q hq u c hc
  unfold pipeClose at hq
  cases writeEnd with
  | true =>
    obtain ⟨-, heq⟩ := Option.ite_none_left_eq_some.mp hq
    cases heq
    simp only [if_true] at hcalls
    split at hcalls
    · rw [hcalls] at hc
      obtain ⟨hother, hold⟩ := wakeAll_some hc
      refine ⟨fun hon => absurd hon hother, fun hon => ?_⟩
      obtain ⟨c₀, hc₀, hstanding⟩ := hold _ hon
      exact (h p hpipe u c₀ hc₀).2 hstanding
    · rw [hcalls] at hc
      exact ⟨fun hon => ⟨((h p hpipe u c hc).1 hon).1, ‹_›⟩, (h p hpipe u c hc).2⟩
  | false =>
    obtain ⟨-, heq⟩ := Option.ite_none_left_eq_some.mp hq
    cases heq
    simp only [Bool.false_eq_true, if_false] at hcalls
    split at hcalls
    · rw [hcalls] at hc
      obtain ⟨hother, hold⟩ := wakeAll_some hc
      refine ⟨fun hon => ?_, fun hon => absurd hon hother⟩
      obtain ⟨c₀, hc₀, hstanding⟩ := hold _ hon
      exact (h p hpipe u c₀ hc₀).1 hstanding
    · rw [hcalls] at hc
      exact ⟨(h p hpipe u c hc).1, fun hon => ⟨((h p hpipe u c hc).2 hon).1, ‹_›⟩⟩

theorem AllWait.step (h : AllWait s) (hstep : step s st = some (s', new)) : AllWait s' := by
  have hrunning : ∀ (t : Nat) (doing : Doing) (waited : Nat),
      AllWait (s.setCall t (some ⟨doing, waited, .running⟩)) := by
    intro t doing waited
    refine h.setCall fun p hp c hc => ?_
    cases hc
    exact .free nofun
  cases st with
  | read t len =>
    unfold Files.step at hstep
    dsimp only at hstep
    split at hstep
    · split at hstep <;> cases hstep
      · exact h
      · exact hrunning _ _ _
    · cases hstep
  | write t src =>
    unfold Files.step at hstep
    dsimp only at hstep
    split at hstep
    · split at hstep <;> cases hstep
      · exact h
      · exact hrunning _ _ _
    · cases hstep
  | turn t =>
    obtain ⟨p, waited, hpipe, ⟨len, -, heq⟩ | ⟨src, done, -, heq⟩⟩ := turn_cases hstep
    · unfold readTurn at heq
      split at heq
      · rename_i hempty
        split at heq <;> cases heq
        · exact h.setCall nofun
        · refine h.setCall fun q hq c hc => ?_
          cases hpipe.symm.trans hq
          cases hc
          exact ⟨fun _ => ⟨hempty, ‹_›⟩, nofun⟩
      · cases heq
        exact h.take hpipe ‹_›
    · rcases writeTurn_cases heq with ⟨-, rfl, -⟩ | ⟨hreaders, hfull, -, rfl⟩ |
        ⟨n, q, call, rest, -, hroom, -, -, -, -, rfl, -, hrest⟩
      · exact h.setCall nofun
      · refine h.setCall fun q hq c hc => ?_
        cases hpipe.symm.trans hq
        cases hc
        exact ⟨nofun, fun _ => ⟨hfull, hreaders⟩⟩
      · refine h.put hpipe hroom fun c hc => ?_
        rcases hrest with ⟨rfl, -, -⟩ | ⟨rfl, -⟩ <;> cases hc
        rfl
  | deadline t =>
    unfold Files.step at hstep
    dsimp only at hstep
    split at hstep <;> cases hstep
    refine h.setCall fun p hp c hc => ?_
    cases hc
    exact .free nofun
  | resume t =>
    unfold Files.step at hstep
    dsimp only at hstep
    split at hstep
    · cases hstep
      exact hrunning _ _ _
    · split at hstep <;> cases hstep
      · exact h.setCall nofun
      · exact hrunning _ _ _
    · cases hstep
  | close writeEnd =>
    unfold Files.step at hstep
    dsimp only at hstep
    split at hstep
    · rename_i p hpipe
      cases hstep
      exact h.close hpipe writeEnd rfl
    · cases hstep

theorem Run.allWait (h : Run s es) : AllWait s := by
  induction h with
  | start => exact fun _ _ _ _ hc => nomatch hc
  | step _ hstep ih => exact ih.step hstep

/-- In every run a call that is asleep has what it waits for still to wait for, and somebody to bring it. -/
theorem nobody_sleeps_through (s : Sys) (es : List Event) (h : Run s es) (p : Pipe) (hp : s.pipe = some p) (t : Nat)
    (c : Call) (hc : s.calls t = some c) :
    (c.standing = .blocked .hasData → p.count = 0 ∧ p.writers ≠ 0) ∧
      (c.standing = .blocked .hasSpace → p.count = PIPE_SIZE ∧ p.readers ≠ 0) :=
  h.allWait p hp t c hc

/-- A read of an empty pipe. -/
theorem nobody_sleeps_through_sample : ∃ s c, Run s [] ∧ s.calls 5 = some c ∧ c.standing = .blocked .hasData ∧
    ∃ p, s.pipe = some p ∧ p.writers ≠ 0 := by
  have hread := @Run.step _ _ _ _ (.read 5 4) .start rfl
  have hturn := @Run.step _ _ _ _ (.turn 5) hread rfl
  exact ⟨_, _, hturn, rfl, rfl, _, rfl, ((nobody_sleeps_through _ _ hturn _ rfl 5 _ rfl).1 rfl).2⟩

/-! ## A wait that ends by itself -/

def patience : Nat → List Step
  | 0 => []
  | k + 1 => .turn 0 :: .deadline 0 :: .resume 0 :: patience k

theorem quietPipe_read_nothing : ¬ ∀ s es, Run s es → ∀ st s' new, step s st = some (s', new) →
    ∀ t len, .readReturned t len [] ∈ new → len ≠ 0 → ∃ p, s.pipe = some p ∧ p.count = 0 ∧ p.writers = 0 := by
  intro hclaim
  obtain ⟨r, hr⟩ := Option.isSome_iff_exists.mp (show (runSteps ⟨some pipeNew, fun _ => none⟩
    (.read 0 1 :: patience 49 ++ [.turn 0, .deadline 0])).isSome = true by decide +kernel)
  have hrun : Run r.1 ([] ++ r.2) := Run.start.runSteps hr
  have hlast : (runSteps ⟨some pipeNew, fun _ => none⟩
    (.read 0 1 :: patience 49 ++ [.turn 0, .deadline 0])).map (fun r =>
      ((step r.1 (.resume 0)).map (·.2), r.1.pipe.map (·.writers))) =
        some (some [.readReturned 0 1 []], some 1) := by decide +kernel
  rw [hr, Option.map_some] at hlast
  injection hlast with hlast
  injection hlast with hstep hwriters
  obtain ⟨⟨s', new⟩, hstep, rfl⟩ := Option.map_eq_some_iff.mp hstep
  obtain ⟨p, hp, -, hnone⟩ := hclaim _ _ hrun _ _ _ hstep 0 1 (List.mem_singleton.mpr rfl) (by decide)
  rw [hp, Option.map_some, hnone] at hwriters
  cases hwriters

end Zelr.Files
