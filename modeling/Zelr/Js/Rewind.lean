import Zelr.Js.Regex

/-!
# Going back over characters

`rx_back` undoes the steps of the forward decoder, whatever bytes it was given: what it takes for a
whole character of several bytes starts with a byte that is never inside one.
-/

namespace Zelr.Js

variable {lo pos : Nat}

/-! ## The decoder -/

def IsTail (b : UInt8) : Prop := b &&& 0xC0 = 0x80

theorem tail_lt (b : UInt8) (h : IsTail b) : b.toNat < 0xC0 := by
  have hall : ∀ n < 256, n &&& 0xC0 = 0x80 → n < 0xC0 := by decide +kernel
  apply hall b.toNat b.toNat_lt
  have := congrArg UInt8.toNat h
  simpa using this

theorem rxTail_tails (need : Nat) (p : Bytes) (v v' : Nat) (h : rxTail need p v = some v') (i : Nat)
    (hi : i < need) : IsTail (byteAt p i) := by
  induction need generalizing p v i with
  | zero => omega
  | succ need ih =>
    cases p with
    | nil => simp [rxTail] at h
    | cons d p =>
      simp only [rxTail] at h
      split at h
      · simp at h
      · rename_i hd
        cases i with
        | zero => simpa [IsTail, byteAt] using hd
        | succ i => simpa [byteAt] using ih p _ h i (by omega)

/-- A character of several bytes is at most four, all of them there, the first of them 0xC2 or more and
the others tails. -/
structure Whole (p : Bytes) (k : Nat) : Prop where
  most : k ≤ 4
  there : k ≤ p.length
  lead : 0xC2 ≤ (byteAt p 0).toNat
  tails : ∀ i, 0 < i → i < k → IsTail (byteAt p i)

theorem rxUtf8_whole (p : Bytes) (h : 1 < (rxUtf8 p).2) : Whole p (rxUtf8 p).2 := by
  have hone : ∀ c v : Nat, (c, 1) ≠ (v, (rxUtf8 p).2) := by
    intro c v hcv
    have := congrArg Prod.snd hcv
    simp at this
    omega
  unfold rxUtf8 at h hone ⊢
  simp only at h hone ⊢
  generalize hneed : (if (byteAt p 0).toNat ≥ 0xF0 ∧ (byteAt p 0).toNat ≤ 0xF4 then 3
    else if (byteAt p 0).toNat ≥ 0xE0 ∧ (byteAt p 0).toNat ≤ 0xEF then 2
    else if (byteAt p 0).toNat ≥ 0xC2 ∧ (byteAt p 0).toNat ≤ 0xDF then 1 else 0) = need at h hone ⊢
  split
  · simp_all
  split
  · simp_all
  rename_i hthere
  cases htail : rxTail need (p.drop 1)
      ((byteAt p 0).toNat &&& if need = 1 then 31 else if need = 2 then 15 else 7) with
  | none => simp_all
  | some v =>
    simp only [htail] at h ⊢
    split
    · simp_all
    push Not at hthere
    refine ⟨?_, by simp only; omega, ?_, ?_⟩
    · simp only
      split at hneed <;> [skip; split at hneed <;> [skip; split at hneed]] <;> omega
    · split at hneed <;> [skip; split at hneed <;> [skip; split at hneed]] <;> omega
    · intro i hi hik
      have := rxTail_tails need (p.drop 1) _ v htail (i - 1) (by simp only at hik; omega)
      rwa [byteAt_drop, show 1 + (i - 1) = i by omega] at this

/-- How many bytes the character at `q` is, whether the term takes it or not. -/
def charLen (R : RxEnv) (q : Nat) : Nat := (rxUtf8 (R.s.drop q)).2

theorem charLen_whole (R : RxEnv) (q : Nat) (h : 1 < charLen R q) : Whole (R.s.drop q) (charLen R q) :=
  rxUtf8_whole _ h

theorem charLen_le (R : RxEnv) (q : Nat) : charLen R q ≤ 4 := by
  rcases Nat.lt_or_ge 1 (charLen R q) with h | h
  · exact (charLen_whole R q h).most
  · omega

theorem rxOne_charLen (R : RxEnv) (x : RxSingle) (q : Nat) (h : rxOne R x q ≠ 0) :
    q < R.len ∧ rxOne R x q = charLen R q := by
  have hk : (if (byteAt R.s q).toNat ≥ 0x80 then rxUtf8 (R.s.drop q) else ((byteAt R.s q).toNat, 1)).2
      = charLen R q := by
    split
    · rfl
    · have hbyte : byteAt (R.s.drop q) 0 = byteAt R.s q := byteAt_drop _ _ _
      rw [charLen, rxUtf8, hbyte, if_pos (by omega)]
  unfold rxOne at h ⊢
  by_cases hlen : q ≥ R.len
  · simp [hlen] at h
  rw [if_neg hlen] at h ⊢
  refine ⟨by omega, ?_⟩
  cases x <;> exact (if_pos (by_contra fun hn => h (if_neg hn))).trans hk

/-! ## Places -/

/-- The places reached from `q` by taking one character after another, as far as that goes. -/
inductive Walk (one : Nat → Nat) : Nat → List Nat → Prop
  | stop {q : Nat} : one q = 0 → Walk one q [q]
  | step {q : Nat} {l : List Nat} : one q ≠ 0 → Walk one (q + one q) l → Walk one q (q :: l)

variable {l l₁ l₂ : List Nat} {one : Nat → Nat} {q a b : Nat}

theorem Walk.head (h : Walk one q l) : l.head? = some q := by
  cases h <;> rfl

theorem Walk.ge (h : Walk one q l) : ∀ a ∈ l, q ≤ a := by
  induction h with
  | stop _ => simp
  | step _ _ ih =>
    intro a ha
    rcases List.mem_cons.mp ha with rfl | ha
    · exact le_refl _
    · have := ih a ha
      omega

theorem Walk.next (h : Walk one q l)
    (hl : l = l₁ ++ a :: b :: l₂) : one a ≠ 0 ∧ b = a + one a := by
  induction h generalizing l₁ with
  | stop _ =>
    have := congrArg List.length hl
    simp at this
    omega
  | step hone hrest ih =>
    cases l₁ with
    | nil =>
      simp only [List.nil_append, List.cons.injEq] at hl
      obtain ⟨rfl, rfl⟩ := hl
      exact ⟨hone, by simpa using hrest.head⟩
    | cons q₀ l₁ =>
      simp only [List.cons_append, List.cons.injEq] at hl
      exact ih hl.2

theorem Walk.ne_nil (h : Walk one q l) : l ≠ [] := by
  cases h <;> simp

theorem Walk.onward (h : Walk one q l)
    (hl : l = l₁ ++ b :: l₂) : Walk one b (b :: l₂) := by
  induction h generalizing l₁ with
  | stop h0 =>
    cases l₁ with
    | nil =>
      simp only [List.nil_append, List.cons.injEq] at hl
      obtain ⟨rfl, rfl⟩ := hl
      exact .stop h0
    | cons _ _ => simp at hl
  | step hone hrest ih =>
    cases l₁ with
    | nil =>
      simp only [List.nil_append, List.cons.injEq] at hl
      obtain ⟨rfl, rfl⟩ := hl
      exact .step hone hrest
    | cons _ l₁ => exact ih (List.cons.inj hl).2

theorem walk_exists (R : RxEnv) (x : RxSingle) (q : Nat) : ∃ l, Walk (rxOne R x) q l := by
  induction h : R.len - q using Nat.strong_induction_on generalizing q with
  | _ n ih =>
    rcases Nat.eq_zero_or_pos (rxOne R x q) with h0 | h0
    · exact ⟨[q], .stop h0⟩
    · have hlt := (rxOne_charLen R x q (by omega)).1
      obtain ⟨l, hl⟩ := ih (R.len - (q + rxOne R x q)) (by omega) (q + rxOne R x q) rfl
      exact ⟨q :: l, .step (by omega) hl⟩

theorem walk_length (R : RxEnv) (x : RxSingle) (h : Walk (rxOne R x) q l) :
    l.length ≤ R.len - q + 1 := by
  induction h with
  | stop _ => simp
  | step hone _ ih =>
    have := (rxOne_charLen R x _ hone).1
    rw [List.length_cons]
    omega

def Takes (one : Nat → Nat) : Nat → Nat → Prop
  | 0, _ => True
  | n + 1, q => one q ≠ 0 ∧ Takes one n (q + one q)

theorem takes_walk (h : Walk one q l) (n : Nat) :
    Takes one n q ↔ n < l.length := by
  induction h generalizing n with
  | stop h0 => cases n <;> simp [Takes, h0]
  | step hone _ ih => cases n <;> simp [Takes, hone, ih]

theorem char_inside (R : RxEnv) (q q' : Nat) (hle : q ≤ q') (hlt : q' < q + charLen R q)
    (hmany : 1 < charLen R q') : q' = q := by
  by_contra hne
  have htail := (charLen_whole R q (by omega)).tails (q' - q) (by omega) (by omega)
  have hlead := (charLen_whole R q' hmany).lead
  rw [byteAt_drop] at htail hlead
  rw [show q + (q' - q) = q' by omega] at htail
  rw [Nat.add_zero] at hlead
  have := tail_lt _ htail
  omega

theorem walk_char_unique (R : RxEnv) (x : RxSingle) {q' : Nat}
    (h : Walk (rxOne R x) lo l) (hl : l = l₁ ++ a :: b :: l₂) (hlo : lo ≤ q') (hmany : 1 < charLen R q')
    (hend : q' + charLen R q' = b) : q' = a := by
  induction h generalizing l₁ with
  | stop _ =>
    have := congrArg List.length hl
    simp at this
    omega
  | step hone hrest ih =>
    rename_i q l
    have hq := (rxOne_charLen R x q hone).2
    have hinside : q' < q + rxOne R x q → q' = q := fun hlt =>
      char_inside R q q' hlo (by omega) hmany
    cases l₁ with
    | nil =>
      have hb := (Walk.step hone hrest).next (show q :: l = [] ++ a :: b :: l₂ from hl)
      simp only [List.nil_append, List.cons.injEq] at hl
      obtain ⟨rfl, hl⟩ := hl
      exact hinside (by omega)
    | cons q₀ l₁ =>
      simp only [List.cons_append, List.cons.injEq] at hl
      obtain ⟨rfl, hl⟩ := hl
      rcases Nat.lt_or_ge q' (q + rxOne R x q) with hlt | hge
      · -- Then the character at `q` ends at `b`, but the walk went on from there to `a` first.
        have heq := hinside hlt
        have ha : q + rxOne R x q ≤ a := hrest.ge a (by rw [hl]; simp)
        have hb := hrest.next hl
        subst heq
        omega
      · exact ih hl hge

theorem rxBack_walk (R : RxEnv) (x : RxSingle)
    (h : Walk (rxOne R x) lo l) (hl : l = l₁ ++ a :: b :: l₂) : rxBack R lo b = a := by
  have hnat : ∀ k : Nat, ((b : Int) - k).toNat = b - k := by omega
  have hlo : lo ≤ a := h.ge a (by rw [hl]; simp)
  obtain ⟨hone, hb⟩ := h.next hl
  have hlen := (rxOne_charLen R x a hone).2
  have hmost := charLen_le R a
  have hunique : ∀ q', lo ≤ q' → 1 < charLen R q' → q' + charLen R q' = b → q' = a := fun q' =>
    walk_char_unique R x h hl
  have hstep : ∀ k, k = charLen R a → b - k = a := by omega
  have hmine : ∀ k, k = charLen R a → (rxUtf8 (R.s.drop (b - k))).2 = k := by
    intro k hk
    rw [hstep k hk, hk]
    rfl
  have htaken : ∀ k, 1 < k → lo + k ≤ b → (rxUtf8 (R.s.drop (b - k))).2 = k → b - k = a := by
    intro k hk hle heq
    have : charLen R (b - k) = k := heq
    exact hunique (b - k) (by omega) (by omega) (by omega)
  unfold rxBack
  rw [show ((b : Int) - 4).toNat = b - 4 from hnat 4, show ((b : Int) - 3).toNat = b - 3 from hnat 3,
    show ((b : Int) - 2).toNat = b - 2 from hnat 2]
  split
  · have := htaken 4 (by omega) (by omega) (by tauto)
    omega
  split
  · have := htaken 3 (by omega) (by omega) (by tauto)
    omega
  split
  · have := htaken 2 (by omega) (by omega) (by tauto)
    omega
  · rename_i h4 h3 h2
    have hn4 : charLen R a ≠ 4 := fun hk => h4 ⟨by omega, hmine 4 hk.symm⟩
    have hn3 : charLen R a ≠ 3 := fun hk => h3 ⟨by omega, hmine 3 hk.symm⟩
    have hn2 : charLen R a ≠ 2 := fun hk => h2 ⟨by omega, hmine 2 hk.symm⟩
    omega

/-! ## Trying places in order -/

section Order

variable {m : Type → Type} [Monad m]

/-- The general repetition of a term that takes one character: `rx_rep` calling `rx_atom`, and that
calling `rx_rep` again through the continuation. -/
def rxOneByOne (R : RxEnv) (x : RxSingle) (q : RxQuant) (next : Int → m Bool) (done pos : Nat) : m Bool :=
  rxRepTurn q done
    (if _ : rxOne R x pos = 0 then pure false
    else rxOneByOne R x q next (done + 1) (pos + rxOne R x pos))
    (next pos)
  termination_by R.len - pos
  decreasing_by
    rename_i h
    have := (rxOne_charLen R x pos h).1
    omega

def tryEach (next : Int → m Bool) : List Nat → m Bool
  | [] => pure false
  | p :: ps => do if ← next p then return true else tryEach next ps

def tryCounted (next : Int → m Bool) (budget : m Bool) : List Nat → m Bool
  | [] => pure false
  | p :: ps => do
    if ← next p then return true
    if !(← budget) then return false
    tryCounted next budget ps

variable [LawfulMonad m]

omit [LawfulMonad m] in
theorem pure_same (b : Bool) : (if b = true then pure true else pure false : m Bool) = pure b := by
  cases b <;> rfl

theorem tryCounted_free (next : Int → m Bool) (l : List Nat) : tryCounted next (pure true) l = tryEach next l := by
  induction l with
  | nil => rfl
  | cons p ps ih => simp [tryCounted, tryEach, ih]

theorem tryEach_one (next : Int → m Bool) (p : Nat) : tryEach next [p] = next p := by
  simp [tryEach, pure_same]

theorem tryEach_append (next : Int → m Bool) (l₁ l₂ : List Nat) :
    tryEach next (l₁ ++ l₂) = (do if ← tryEach next l₁ then return true else tryEach next l₂) := by
  induction l₁ with
  | nil => simp [tryEach]
  | cons p l₁ ih =>
    simp only [List.cons_append, tryEach, ih, bind_assoc]
    congr 1
    funext b
    cases b <;> simp

end Order

def RxQuant.here (q : RxQuant) (done pos : Nat) : List Nat := if q.min ≤ done then [pos] else []

section Order

variable {m : Type → Type} [Monad m] [LawfulMonad m]

theorem rxRepTurn_each (q : RxQuant) (next : Int → m Bool) (done pos : Nat) (l : List Nat) :
    rxRepTurn q done (tryEach next l) (next pos) =
      tryEach next (if q.greedy then (if q.more done then l else []) ++ q.here done pos
        else q.here done pos ++ (if q.more done then l else [])) := by
  unfold rxRepTurn RxQuant.here
  cases q.greedy <;> cases q.more done <;> rcases lt_or_ge (done : Int) q.min with hd | hd
  all_goals simp [hd, not_le.mpr, tryEach_append, tryEach_one, tryEach, pure_same]

def RxQuant.order (q : RxQuant) (l : List Nat) : List Nat := if q.greedy then l.reverse else l

/-- The places the upper bound leaves, `done` characters being behind. -/
def RxQuant.upTo (q : RxQuant) (done : Nat) (l : List Nat) : List Nat :=
  if q.max < 0 then l else l.take (q.max.toNat - done + 1)

omit [Monad m] [LawfulMonad m] in
theorem upTo_cons (q : RxQuant) (done pos : Nat) (l : List Nat) :
    q.upTo done (pos :: l) = pos :: (if q.more done then q.upTo (done + 1) l else []) := by
  unfold RxQuant.upTo RxQuant.more
  rcases lt_or_ge q.max 0 with hmax | hmax
  · simp [hmax]
  · rcases lt_or_ge (done : Int) q.max with h | h
    · simp [h, not_lt.mpr hmax, show q.max.toNat - done = q.max.toNat - (done + 1) + 1 by omega]
    · simp [not_lt.mpr h, not_lt.mpr hmax, show q.max.toNat - done = 0 by omega]

omit [Monad m] [LawfulMonad m] in
theorem drop_turns (q : RxQuant) (done pos : Nat) (l : List Nat) :
    (q.upTo done (pos :: l)).drop (q.min.toNat - done) =
      q.here done pos ++ (if q.more done then (q.upTo (done + 1) l).drop (q.min.toNat - (done + 1)) else []) := by
  rw [upTo_cons]
  unfold RxQuant.here
  rcases lt_or_ge (done : Int) q.min with h | h
  · rw [if_neg (show ¬ q.min ≤ done by omega), show q.min.toNat - done = q.min.toNat - (done + 1) + 1 by omega,
      List.drop_succ_cons]
    cases q.more done <;> simp
  · rw [if_pos (show q.min ≤ done from h), show q.min.toNat - done = 0 by omega,
      show q.min.toNat - (done + 1) = 0 by omega]
    simp

variable {l : List Nat} {pos p : Nat}

theorem rxOneByOne_each (R : RxEnv) (x : RxSingle) (q : RxQuant) (next : Int → m Bool)
    (h : Walk (rxOne R x) pos l) (done : Nat) :
    rxOneByOne R x q next done pos = tryEach next (q.order ((q.upTo done l).drop (q.min.toNat - done))) := by
  induction h generalizing done with
  | @stop pos h0 =>
    rw [rxOneByOne, dif_pos h0, drop_turns]
    have := rxRepTurn_each q next done pos []
    simp only [tryEach] at this
    rw [this]
    congr 1
    unfold RxQuant.order RxQuant.upTo
    cases q.greedy
    · simp [RxQuant.here]
    · simp [RxQuant.here]
      split <;> simp
  | @step pos l hone _ ih =>
    rw [rxOneByOne, dif_neg hone, ih, rxRepTurn_each, drop_turns]
    congr 1
    unfold RxQuant.order
    cases q.greedy
    · simp
    · cases q.more done <;> simp [RxQuant.here] <;> split <;> simp

/-! ## The loop -/

omit [Monad m] [LawfulMonad m] in
theorem rxForward_walk (h : Walk one p l) (most k : Nat)
    (front : List Nat) (b : Nat) (hl : l.take (most + 1) = front ++ [b]) :
    rxForward one most k p = (k + front.length, b) := by
  induction h generalizing most k front with
  | stop h0 =>
    cases front with
    | nil =>
      obtain rfl : _ = b := by simpa using hl
      cases most <;> simp [rxForward, h0]
    | cons _ _ => simp at hl
  | @step p l hone hrest ih =>
    cases most with
    | zero =>
      cases front with
      | nil =>
        obtain rfl : p = b := by simpa using hl
        rfl
      | cons _ _ => simp at hl
    | succ most =>
      cases front with
      | nil =>
        have := hrest.head
        cases l <;> simp_all
      | cons a front =>
        simp only [List.take_succ_cons, List.cons_append, List.cons.injEq] at hl
        rw [rxForward, if_neg hone, ih most (k + 1) front hl.2, List.length_cons]
        congr 1
        omega

theorem rxGiveBack_counted (next : Int → m Bool) (budget : m Bool) (back : Int → Int) (spare : Nat)
    (front : List Nat) (b : Nat) (hspare : spare ≤ front.length)
    (hback : ∀ l₁ l₂ (a c : Nat), front ++ [b] = l₁ ++ a :: c :: l₂ → back c = a) :
    rxGiveBack next budget back spare b =
      tryCounted next budget ((front ++ [b]).drop (front.length - spare)).reverse := by
  induction spare generalizing front b with
  | zero => simp [rxGiveBack, tryCounted]
  | succ spare ih =>
    obtain ⟨front, a, rfl⟩ : ∃ front' a, front = front' ++ [a] := by
      obtain rfl | h := List.eq_nil_or_concat front
      · simp at hspare
      · simpa using h
    simp only [List.length_append, List.length_singleton] at hspare ⊢
    have hlast : back b = a := hback front [] a b (by simp)
    have hrest := ih front a (by omega) (by
      intro l₁ l₂ a' c' heq
      refine hback l₁ (l₂ ++ [b]) a' c' ?_
      rw [heq]
      simp)
    rw [List.drop_append_of_le_length (by simp; omega), List.reverse_append,
      show front.length + 1 - (spare + 1) = front.length - spare by omega]
    simp [rxGiveBack, hlast, hrest, tryCounted]

theorem rxTakeMore_counted (one : Nat → Nat) (next : Int → m Bool) (budget : m Bool)
    (h : Walk one p l) (spare : Nat) :
    rxTakeMore next budget one spare p = tryCounted next budget (l.take (spare + 1)) := by
  induction h generalizing spare with
  | stop h0 => cases spare <;> simp [rxTakeMore, tryCounted, h0]
  | step hone _ ih =>
    cases spare with
    | zero => simp [rxTakeMore, tryCounted]
    | succ spare => simp [rxTakeMore, tryCounted, hone, ih]

omit [Monad m] [LawfulMonad m] in
theorem exists_front (h : Walk one p l) (most : Nat) :
    ∃ front b, l.take (most + 1) = front ++ [b] ∧ front.length = min most (l.length - 1) := by
  obtain hnil | ⟨front, b, hfront⟩ := List.eq_nil_or_concat (l.take (most + 1))
  · simp [h.ne_nil] at hnil
  · rw [List.concat_eq_append] at hfront
    refine ⟨front, b, hfront, ?_⟩
    have := congrArg List.length hfront
    simp at this
    omega

theorem upTo_most (R : RxEnv) (x : RxSingle) (q : RxQuant) (h : Walk (rxOne R x) pos l) :
    q.upTo 0 l = l.take ((if q.max < 0 then R.len - pos else q.max.toNat) + 1) := by
  unfold RxQuant.upTo
  split
  · exact (List.take_of_length_le (walk_length R x h)).symm
  · rfl

theorem rxRepSingle_greedy (R : RxEnv) (x : RxSingle) (q : RxQuant) (hq : q.greedy = true) (hmin : 0 ≤ q.min)
    (next : Int → m Bool) (budget : m Bool) (h : Walk (rxOne R x) pos l) :
    rxRepSingle R x q next budget pos = tryCounted next budget ((q.upTo 0 l).drop q.min.toNat).reverse := by
  have htake := upTo_most R x q h
  generalize hmost : (if q.max < 0 then R.len - pos else q.max.toNat) = most at htake
  obtain ⟨front, b, hfront, -⟩ := exists_front h most
  rw [htake, hfront]
  unfold rxRepSingle
  simp only [hq, hmost, rxForward_walk h most 0 front b hfront, Nat.zero_add, if_true]
  split
  · rename_i hshort
    rw [List.drop_eq_nil_of_le (by simp; omega)]
    rfl
  · rename_i hlong
    rw [show ((front.length : Int) - q.min).toNat = front.length - q.min.toNat by omega,
      rxGiveBack_counted next budget _ _ front b (by omega),
      show front.length - (front.length - q.min.toNat) = q.min.toNat by omega]
    intro l₁ l₂ a c heq
    have hsplit : l = l₁ ++ a :: c :: (l₂ ++ l.drop (most + 1)) := calc
      l = l.take (most + 1) ++ l.drop (most + 1) := (List.take_append_drop _ _).symm
      _ = _ := by rw [hfront, heq]; simp
    exact rxBack_walk R x h hsplit

theorem rxRepSingle_lazy (R : RxEnv) (x : RxSingle) (q : RxQuant) (hq : q.greedy = false)
    (next : Int → m Bool) (budget : m Bool) (h : Walk (rxOne R x) pos l) :
    rxRepSingle R x q next budget pos = tryCounted next budget
      ((l.drop q.min.toNat).take ((if q.max < 0 then R.len - pos else q.max.toNat) - q.min.toNat + 1)) := by
  obtain ⟨front, b, hfront, hlen⟩ := exists_front h q.min.toNat
  unfold rxRepSingle
  simp only [hq, rxForward_walk h q.min.toNat 0 front b hfront, Nat.zero_add, Bool.false_eq_true, if_false]
  split
  · rename_i hshort
    rw [List.drop_eq_nil_of_le (by omega)]
    rfl
  · rename_i hlong
    have hexact : front.length = q.min.toNat := by omega
    have hsplit : l = front ++ b :: l.drop (q.min.toNat + 1) := calc
      l = l.take (q.min.toNat + 1) ++ l.drop (q.min.toNat + 1) := (List.take_append_drop _ _).symm
      _ = _ := by rw [hfront]; simp
    have hdrop : l.drop q.min.toNat = b :: l.drop (q.min.toNat + 1) := calc
      l.drop q.min.toNat = (front ++ b :: l.drop (q.min.toNat + 1)).drop q.min.toNat := by rw [← hsplit]
      _ = _ := List.drop_left' hexact
    rw [rxTakeMore_counted _ next budget (h.onward hsplit), hdrop, hexact]

end Order

theorem lazy_places (R : RxEnv) (x : RxSingle) (q : RxQuant) (h : Walk (rxOne R x) pos l)
    (hbounds : q.max < 0 ∨ q.min ≤ q.max) :
    (l.drop q.min.toNat).take ((if q.max < 0 then R.len - pos else q.max.toNat) - q.min.toNat + 1) =
      (q.upTo 0 l).drop q.min.toNat := by
  have hlen := walk_length R x h
  unfold RxQuant.upTo
  split
  · exact List.take_of_length_le (by simp; omega)
  · rw [List.drop_take]
    congr 1
    omega

theorem rxRepSingle_order {m : Type → Type} [Monad m] [LawfulMonad m] (R : RxEnv) (x : RxSingle)
    (q : RxQuant) (hbounds : if q.greedy then 0 ≤ q.min else q.max < 0 ∨ q.min ≤ q.max) (next : Int → m Bool)
    (budget : m Bool) (h : Walk (rxOne R x) pos l) :
    rxRepSingle R x q next budget pos = tryCounted next budget (q.order ((q.upTo 0 l).drop q.min.toNat)) := by
  rcases hq : q.greedy with _ | _ <;> rw [hq] at hbounds
  · rw [rxRepSingle_lazy R x q hq next budget h, lazy_places R x q h hbounds]
    simp [RxQuant.order, hq]
  · rw [rxRepSingle_greedy R x q hq hbounds next budget h]
    simp [RxQuant.order, hq]

/-! ## A lower bound that came round -/

theorem giveBack_reaches (next : Int → Bool) (back : Int → Int) {n spare : Nat} (h : n ≤ spare) (p : Int)
    (hnext : next (back^[n] p) = true) : rxGiveBack (m := Id) next (pure true) back spare p = true := by
  induction n generalizing spare p with
  | zero =>
    have hhere : next p = true := hnext
    cases spare <;> (simp only [rxGiveBack, hhere]; rfl)
  | succ n ih =>
    obtain ⟨spare, rfl⟩ : ∃ k, spare = k + 1 := ⟨spare - 1, by omega⟩
    have hrest := @ih spare (by omega) (back p) (by rwa [Function.iterate_succ_apply] at hnext)
    cases hp : next p <;> (simp only [rxGiveBack, hp, hrest]; rfl)

theorem back_to_front (R : RxEnv) (x : RxSingle) (h : Walk (rxOne R x) pos l) {front rest : List Nat}
    (hl : l = front ++ b :: rest) : (rxBack R pos)^[front.length] b = pos := by
  induction front using List.reverseRecOn generalizing b rest with
  | nil =>
    have hhead := h.head
    rw [hl] at hhead
    exact congrArg Nat.cast (Option.some.inj hhead)
  | append_singleton front a ih =>
    rw [List.append_assoc] at hl
    rw [List.length_append, List.length_singleton, Function.iterate_succ_apply, rxBack_walk R x h hl]
    exact ih hl

/-- Given back one too many, the loop comes to a place before the first. -/
theorem fast_loop_before (R : RxEnv) (x : RxSingle) (q : RxQuant) (hq : q.greedy = true) (hmin : q.min < 0)
    (h : Walk (rxOne R x) pos l) :
    rxRepSingle (m := Id) R x q (fun p => decide (p = pos - 1)) (pure true) pos = true := by
  generalize hmost : (if q.max < 0 then R.len - pos else q.max.toNat) = most
  obtain ⟨front, b, hfront, -⟩ := exists_front h most
  have hsplit : l = front ++ b :: l.drop (most + 1) := calc
    l = l.take (most + 1) ++ l.drop (most + 1) := (List.take_append_drop _ _).symm
    _ = _ := by rw [hfront]; simp
  have hbefore : rxBack R pos pos = (pos : Int) - 1 := by
    unfold rxBack
    rw [if_neg (by omega), if_neg (by omega), if_neg (by omega)]
  unfold rxRepSingle
  simp only [hq, hmost, rxForward_walk h most 0 front b hfront, Nat.zero_add, if_true]
  rw [if_neg (by omega)]
  refine giveBack_reaches (n := front.length + 1) _ _ (by omega) _ ?_
  rw [Function.iterate_succ_apply', back_to_front R x h hsplit, hbefore]
  exact decide_eq_true rfl

theorem order_places (q : RxQuant) {l' : List Nat} {p : Nat} (hl : ∀ p ∈ l, p ∈ l') (h : p ∈ q.order l) : p ∈ l' := by
  unfold RxQuant.order at h
  split at h
  · exact hl p (List.mem_reverse.mp h)
  · exact hl p h

theorem tryEach_none {next : Int → Bool} (h : ∀ p ∈ l, next p = false) :
    tryEach (m := Id) next l = false := by
  induction l with
  | nil => rfl
  | cons p l ih =>
    have hrest := ih fun p hp => h p (List.mem_cons_of_mem _ hp)
    simp only [tryEach, h p List.mem_cons_self, hrest]
    rfl

theorem upTo_subset (q : RxQuant) (done : Nat) (l : List Nat) (p : Nat) (h : p ∈ q.upTo done l) : p ∈ l := by
  unfold RxQuant.upTo at h
  split at h
  · exact h
  · exact List.mem_of_mem_take h

/-- Counting forward and giving back tries the places that taking one character at a time does, in that order, unless a
greedy lower bound came round below nought, or lazy bounds are crossed and the text has the lower one's characters. -/
theorem fast_loop_agrees_iff (R : RxEnv) (x : RxSingle) (q : RxQuant) (pos : Nat) :
    (∀ (m : Type → Type) [Monad m] [LawfulMonad m] (next : Int → m Bool),
        rxRepSingle R x q next (pure true) pos = rxOneByOne R x q next 0 pos) ↔
      if q.greedy then 0 ≤ q.min
      else q.max < 0 ∨ q.min ≤ q.max ∨ ¬ Takes (rxOne R x) q.min.toNat pos := by
  obtain ⟨l, hl⟩ := walk_exists R x pos
  rw [takes_walk hl]
  rcases hq : q.greedy with _ | _
  · simp only [Bool.false_eq_true, if_false]
    constructor
    · intro hall
      by_contra hcond
      push Not at hcond
      obtain ⟨hmax, hlt, hlong⟩ := hcond
      -- A `next` that is content anywhere tells them apart.
      have := hall Id (fun _ => pure true)
      rw [rxRepSingle_lazy R x q hq _ _ hl, tryCounted_free, rxOneByOne_each R x q _ hl, Nat.sub_zero] at this
      have hnone : (q.upTo 0 l).drop q.min.toNat = [] := by
        refine List.drop_eq_nil_of_le ?_
        simp [RxQuant.upTo, not_lt.mpr hmax]
        omega
      obtain ⟨p, rest, hrest⟩ := List.exists_cons_of_length_pos (l := l.drop q.min.toNat) (by simp; omega)
      simp [hnone, hrest, RxQuant.order, hq, tryEach] at this
    · intro hcond m _ _ next
      rw [rxOneByOne_each R x q next hl 0, Nat.sub_zero, ← tryCounted_free]
      rcases or_assoc.mpr hcond with hbounds | hshort
      · exact rxRepSingle_order R x q (by rwa [hq, if_neg Bool.false_ne_true]) next _ hl
      · have hup : (q.upTo 0 l).length ≤ l.length := by
          unfold RxQuant.upTo
          split <;> simp
        rw [rxRepSingle_lazy R x q hq next _ hl, List.drop_eq_nil_of_le (by omega), List.drop_eq_nil_of_le (by omega)]
        simp [RxQuant.order, tryCounted]
  · simp only [if_true]
    constructor
    · intro hall
      by_contra hmin
      have := hall Id (fun p => decide (p = pos - 1))
      rw [fast_loop_before R x q hq (by omega) hl, rxOneByOne_each R x q _ hl, tryEach_none fun p hp => ?_] at this
      · cases this
      · have hmem := hl.ge p (order_places q (fun p hp => upTo_subset q 0 l p (List.mem_of_mem_drop hp)) hp)
        exact decide_eq_false (by omega)
    · intro hmin m _ _ next
      rw [rxOneByOne_each R x q next hl 0, Nat.sub_zero, ← tryCounted_free]
      exact rxRepSingle_order R x q (by rwa [hq, if_pos rfl]) next _ hl

/-- `a{3,2}?` on `aaa`: the loop counts three, and one at a time stops at two. -/
theorem crossed_bounds_differ :
    rxRepSingle (m := Id) ⟨[97, 97, 97], false, false, false⟩ (.char 97) ⟨false, 3, 2⟩
        (fun _ => pure true) (pure true) 0 ≠
      rxOneByOne (m := Id) ⟨[97, 97, 97], false, false, false⟩ (.char 97) ⟨false, 3, 2⟩
        (fun _ => pure true) 0 0 := by
  have hl : Walk (rxOne ⟨[97, 97, 97], false, false, false⟩ (.char 97)) 0 [0, 1, 2, 3] :=
    .step (by decide) (.step (by decide) (.step (by decide) (.stop (by decide))))
  rw [rxOneByOne_each _ _ _ _ hl]
  exact show true ≠ false by decide

end Zelr.Js
