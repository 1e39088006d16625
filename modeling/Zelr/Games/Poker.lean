import Mathlib

/-!
# Side pots

`commit` and `award` of `poker.c`. Chips are never below nought there, so they are natural numbers; `show` is what
`eval_best` made of a hand.
-/

namespace Zelr.Poker

def SEATS : Nat := 4

/-- What of a `seat` has to do with chips. -/
structure Seat where
  stack : Nat
  streetBet : Nat
  totalBet : Nat
  folded : Bool
  allin : Bool
  out : Bool
  won : Nat
  showHand : Nat
  deriving DecidableEq

abbrev Table := Fin SEATS → Seat

def Seat.live (s : Seat) : Bool := !s.out && !s.folded

/-! ## Betting -/

def Seat.commit (s : Seat) (target : Nat) : Seat :=
  let add := min (target - s.streetBet) s.stack
  { s with
    stack := s.stack - add
    streetBet := s.streetBet + add
    totalBet := s.totalBet + add
    allin := s.allin || s.stack - add = 0 }

/-- What a seat does before a showdown, and what a new street does to it. -/
inductive Move where
  | commit (target : Nat)
  | fold
  | street

def Seat.move (s : Seat) : Move → Seat
  | .commit target => s.commit target
  | .fold => { s with folded := true }
  | .street => { s with streetBet := 0 }

def play (tbl : Table) (m : Fin SEATS × Move) : Table := Function.update tbl m.1 ((tbl m.1).move m.2)

/-! ## Awarding -/

section Layer

variable (tbl : Table)

def levels : List Nat := ((Finset.univ.filter fun i => (tbl i).live).image fun i => (tbl i).totalBet).sort (· ≤ ·)

def Claims (lv : Nat) (i : Fin SEATS) : Prop := (tbl i).live = true ∧ lv ≤ (tbl i).totalBet

instance (lv : Nat) : DecidablePred (Claims tbl lv) := fun _ => inferInstanceAs (Decidable (_ ∧ _))

def pot (prev lv : Nat) : Nat := ∑ i, (min (tbl i).totalBet lv - min (tbl i).totalBet prev)

def best (lv : Nat) : Nat := (Finset.univ.filter (Claims tbl lv)).sup fun i => (tbl i).showHand

def winners (lv : Nat) : Finset (Fin SEATS) := Finset.univ.filter fun i => Claims tbl lv i ∧ (tbl i).showHand = best tbl lv

def first (button lv : Nat) : Option (Fin SEATS) :=
  ((List.range SEATS).map fun step => (⟨(button + (step + 1)) % SEATS, Nat.mod_lt _ (by decide)⟩ : Fin SEATS)).find? fun i => i ∈ winners tbl lv

def share (button prev lv : Nat) (i : Fin SEATS) : Nat :=
  if i ∈ winners tbl lv then
    pot tbl prev lv / (winners tbl lv).card + if first tbl button lv = some i then pot tbl prev lv % (winners tbl lv).card else 0
  else 0

end Layer

def Seat.paid (s : Seat) (n : Nat) : Seat := { s with stack := s.stack + n, won := s.won + n }

def layer (button : Nat) (st : Nat × Table) (lv : Nat) : Nat × Table :=
  (lv, fun i => (st.2 i).paid (share st.2 button st.1 lv i))

def award (button : Nat) (tbl : Table) : Table := ((levels tbl).foldl (layer button) (0, tbl)).2

/-! ## What a layer pays -/

section Share

variable {tbl : Table} {button prev lv : Nat} {i : Fin SEATS}

theorem winners_nonempty (h : ∃ i, Claims tbl lv i) : (winners tbl lv).Nonempty := by
  obtain ⟨i, hi⟩ := h
  have hne : (Finset.univ.filter (Claims tbl lv)).Nonempty := ⟨i, by simpa using hi⟩
  obtain ⟨j, hj, hbest⟩ := Finset.exists_mem_eq_sup _ hne fun i => (tbl i).showHand
  exact ⟨j, by simp only [winners, Finset.mem_filter, Finset.mem_univ, true_and]
               exact ⟨(Finset.mem_filter.mp hj).2, hbest.symm⟩⟩

theorem exists_first (h : (winners tbl lv).Nonempty) : ∃ i ∈ winners tbl lv, first tbl button lv = some i := by
  obtain ⟨i, hi⟩ := h
  rcases hfirst : first tbl button lv with _ | j
  · unfold first at hfirst
    rw [List.find?_eq_none] at hfirst
    refine absurd (decide_eq_true hi) (hfirst i (List.mem_map.mpr ⟨(i.val + 7 - button % 4) % 4, ?_, ?_⟩))
    · exact List.mem_range.mpr (Nat.mod_lt _ (by decide))
    · have hlt : i.val < 4 := i.isLt
      refine Fin.ext (show (button + ((i.val + 7 - button % 4) % 4 + 1)) % 4 = i.val from ?_)
      omega
  · exact ⟨j, by simpa using List.find?_some hfirst, rfl⟩

theorem share_sum (h : ∃ i, Claims tbl lv i) : ∑ i, share tbl button prev lv i = pot tbl prev lv := by
  obtain ⟨j, hj, hfirst⟩ : ∃ j ∈ winners tbl lv, first tbl button lv = some j := exists_first (winners_nonempty h)
  have heq : ∀ i, share tbl button prev lv i = (if i ∈ winners tbl lv then pot tbl prev lv / (winners tbl lv).card else 0) +
      if i = j then pot tbl prev lv % (winners tbl lv).card else 0 := by
    intro i
    unfold share
    rw [hfirst]
    by_cases hij : i = j
    · subst hij
      simp [hj]
    · simp [hij, Ne.symm hij]
  simp only [heq]
  rw [Finset.sum_add_distrib, Finset.sum_ite_mem, Finset.univ_inter, Finset.sum_const, smul_eq_mul,
    Finset.sum_ite_eq' Finset.univ j, if_pos (Finset.mem_univ j), Nat.div_add_mod]

theorem share_le (i : Fin SEATS) (h : ∃ i, Claims tbl lv i) : share tbl button prev lv i ≤ pot tbl prev lv := by
  rw [← share_sum h]
  exact Finset.single_le_sum (fun _ _ => Nat.zero_le _) (Finset.mem_univ i)

theorem share_of_best (hi : Claims tbl lv i) (hbest : ∀ j, (tbl j).live = true → j ≠ i → (tbl j).showHand < (tbl i).showHand) :
    share tbl button prev lv i = pot tbl prev lv := by
  have hwin : ∀ j, j ∈ winners tbl lv → j = i := by
    intro j hj
    obtain ⟨-, hclaims, hshown⟩ := Finset.mem_filter.mp hj
    by_contra hne
    have hle : (tbl i).showHand ≤ best tbl lv :=
      Finset.le_sup (f := fun i => (tbl i).showHand) (Finset.mem_filter.mpr ⟨Finset.mem_univ i, hi⟩)
    have := hbest j hclaims.1 hne
    omega
  rw [← share_sum ⟨i, hi⟩, Finset.sum_eq_single i]
  · exact fun j _ hne => if_neg fun hj => hne (hwin j hj)
  · exact fun h => absurd (Finset.mem_univ i) h

theorem share_of_not_claims (h : ¬ Claims tbl lv i) : share tbl button prev lv i = 0 :=
  if_neg fun hi => h (Finset.mem_filter.mp hi).2.1

def upTo (tbl : Table) (lv : Nat) : Nat := ∑ i, min (tbl i).totalBet lv

theorem upTo_add_pot (h : prev ≤ lv) : upTo tbl prev + pot tbl prev lv = upTo tbl lv := by
  rw [upTo, pot, ← Finset.sum_add_distrib]
  exact Finset.sum_congr rfl fun i _ => by omega

end Share

/-! ## What all of them pay -/

/-- The level that a live seat went to and none went above. -/
def top (tbl : Table) : Nat := (Finset.univ.filter fun i => (tbl i).live = true).sup fun i => (tbl i).totalBet

/-- The layers up to `prev` have been paid, and those of `ls` are left. -/
structure Paid (tbl : Table) (prev : Nat) (ls : List Nat) (now : Table) (gain : Fin SEATS → Nat) : Prop where
  table : now = fun i => (tbl i).paid (gain i)
  sum : ∑ i, gain i = upTo tbl prev
  none : ∀ i, (tbl i).live = false → gain i = 0
  bound : ∀ i, gain i ≤ upTo tbl (min prev (tbl i).totalBet)
  best : ∀ i, (tbl i).live = true → (∀ j, (tbl j).live = true → j ≠ i → (tbl j).showHand < (tbl i).showHand) →
    gain i = upTo tbl (min prev (tbl i).totalBet)
  left : ∀ i, (tbl i).live = true → (tbl i).totalBet ≤ prev ∨ (tbl i).totalBet ∈ ls

section Paid

variable {tbl now : Table} {prev lv button : Nat} {ls : List Nat} {gain : Fin SEATS → Nat}

theorem Paid.layer (h : Paid tbl prev (lv :: ls) now gain) (hlv : prev ≤ lv) (hls : ∀ x ∈ ls, lv ≤ x)
    (hclaims : ∃ i, Claims tbl lv i) :
    Paid tbl lv ls (Poker.layer button (prev, now) lv).2 fun i => gain i + share tbl button prev lv i := by
  have hshare : share now button prev lv = share tbl button prev lv := by
    rw [h.table]
    rfl
  refine ⟨?_, ?_, fun i hi => ?_, fun i => ?_, fun i hi hbest => ?_, fun i hi => ?_⟩
  · funext i
    dsimp only [Poker.layer]
    rw [hshare, h.table]
    simp only [Seat.paid, Nat.add_assoc]
  · rw [Finset.sum_add_distrib, h.sum, share_sum hclaims, upTo_add_pot hlv]
  · rw [h.none i hi, share_of_not_claims fun hc => by rw [hc.1] at hi; cases hi]
  · have hbound := h.bound i
    by_cases hc : Claims tbl lv i
    · have hle : share tbl button prev lv i ≤ pot tbl prev lv := share_le i hclaims
      rw [min_eq_left (hlv.trans hc.2)] at hbound
      rw [min_eq_left hc.2, ← upTo_add_pot hlv]
      omega
    · rw [share_of_not_claims hc]
      exact hbound.trans (Finset.sum_le_sum fun j _ => by omega)
  · have hgain := h.best i hi hbest
    by_cases hc : Claims tbl lv i
    · rw [min_eq_left (hlv.trans hc.2)] at hgain
      rw [min_eq_left hc.2, ← upTo_add_pot hlv, share_of_best hc hbest, hgain]
    · have hlow : (tbl i).totalBet < lv := not_le.mp fun hle => hc ⟨hi, hle⟩
      have hprev : (tbl i).totalBet ≤ prev := by
        rcases h.left i hi with hle | hmem
        · exact hle
        · rcases List.mem_cons.mp hmem with heq | hmem
          · omega
          · exact absurd (hls _ hmem) (not_le.mpr hlow)
      rw [share_of_not_claims hc, hgain, min_eq_right hprev, min_eq_right hlow.le]
      rfl
  · rcases h.left i hi with hle | hmem
    · exact .inl (hle.trans hlv)
    · exact (List.mem_cons.mp hmem).imp_left Eq.le

theorem paid_all (hls : ∀ lv ∈ ls, ∃ i, Claims tbl lv i) (hsorted : (prev :: ls).Pairwise (· ≤ ·)) (h : Paid tbl prev ls now gain) :
    ∃ gain', Paid tbl (ls.getLastD prev) [] (ls.foldl (Poker.layer button) (prev, now)).2 gain' := by
  induction ls generalizing prev now gain with
  | nil => exact ⟨gain, h⟩
  | cons lv ls ih =>
    obtain ⟨hle, hrest⟩ := List.pairwise_cons.mp hsorted
    have hlow : ∀ x ∈ ls, lv ≤ x := (List.pairwise_cons.mp hrest).1
    rw [List.getLastD_cons, List.foldl_cons]
    exact ih (fun x hx => hls x (List.mem_cons_of_mem _ hx)) hrest
      (h.layer (hle lv List.mem_cons_self) hlow (hls lv List.mem_cons_self))

end Paid

theorem mem_levels {tbl : Table} {lv : Nat} : lv ∈ levels tbl ↔ ∃ i, (tbl i).live = true ∧ (tbl i).totalBet = lv := by
  rw [levels, Finset.mem_sort, Finset.mem_image]
  simp

theorem levels_last (tbl : Table) : (levels tbl).getLastD 0 = top tbl := by
  have hsorted : (levels tbl).Pairwise (· ≤ ·) := Finset.pairwise_sort _ _
  apply le_antisymm
  · rcases List.eq_nil_or_concat (levels tbl) with hnil | ⟨ls, lv, hls⟩
    · rw [hnil]
      exact Nat.zero_le _
    · obtain ⟨i, hi, hbet⟩ := mem_levels.mp (by rw [hls]; simp : lv ∈ levels tbl)
      rw [hls, List.concat_eq_append, List.getLastD_concat, ← hbet]
      exact Finset.le_sup (f := fun i => (tbl i).totalBet) (by simpa using hi)
  · refine Finset.sup_le fun i hi => ?_
    have hmem : (tbl i).totalBet ∈ levels tbl := mem_levels.mpr ⟨i, by simpa using hi, rfl⟩
    rcases List.eq_nil_or_concat (levels tbl) with hnil | ⟨ls, lv, hls⟩
    · rw [hnil] at hmem
      cases hmem
    · rw [hls, List.concat_eq_append] at hmem hsorted ⊢
      rw [List.getLastD_concat]
      rcases List.mem_append.mp hmem with hin | hlast
      · exact (List.pairwise_append.mp hsorted).2.2 _ hin lv (by simp)
      · exact (List.mem_singleton.mp hlast).le

theorem award_paid (button : Nat) (tbl : Table) : ∃ gain, Paid tbl (top tbl) [] (award button tbl) gain := by
  have hstart : Paid tbl 0 (levels tbl) tbl fun _ => 0 :=
    ⟨rfl, by simp [upTo], fun _ _ => rfl, fun _ => Nat.zero_le _, fun _ _ _ => by simp [upTo],
      fun i hi => .inr (mem_levels.mpr ⟨i, hi, rfl⟩)⟩
  rw [← levels_last]
  refine paid_all (fun lv hlv => ?_) (List.pairwise_cons.mpr ⟨fun _ _ => Nat.zero_le _, Finset.pairwise_sort _ _⟩) hstart
  obtain ⟨i, hi, rfl⟩ := mem_levels.mp hlv
  exact ⟨i, hi, le_rfl⟩

/-- A showdown gives out the chips up to the highest bet of a seat still in; a seat gets of each other one no more than it
put in, one that is not in gets none, and the one best hand gets all it covers. -/
theorem award_pays (button : Nat) (tbl : Table) :
    ∃ gain : Fin SEATS → Nat, (award button tbl = fun i => (tbl i).paid (gain i)) ∧
      ∑ i, gain i = ∑ i, min (tbl i).totalBet (top tbl) ∧
      (∀ i, (tbl i).live = false → gain i = 0) ∧
      (∀ i, gain i ≤ ∑ j, min (tbl j).totalBet (tbl i).totalBet) ∧
      ∀ i, (tbl i).live = true → (∀ j, (tbl j).live = true → j ≠ i → (tbl j).showHand < (tbl i).showHand) →
        gain i = ∑ j, min (tbl j).totalBet (tbl i).totalBet := by
  obtain ⟨gain, h⟩ := award_paid button tbl
  refine ⟨gain, h.table, h.sum, h.none, fun i => (h.bound i).trans (Finset.sum_le_sum fun j _ => ?_), fun i hi hbest => ?_⟩
  · exact min_le_min_left _ (min_le_right _ _)
  · have htop := (h.left i hi).resolve_right List.not_mem_nil
    rw [h.best i hi hbest, min_eq_right htop]
    rfl

/-! ## A hand -/

theorem Seat.move_chips (s : Seat) (m : Move) : (s.move m).stack + (s.move m).totalBet = s.stack + s.totalBet := by
  cases m with
  | commit target =>
    dsimp only [Seat.move, Seat.commit]
    omega
  | fold => rfl
  | street => rfl

theorem play_chips (tbl : Table) (moves : List (Fin SEATS × Move)) (i : Fin SEATS) :
    (moves.foldl play tbl i).stack + (moves.foldl play tbl i).totalBet = (tbl i).stack + (tbl i).totalBet := by
  induction moves generalizing tbl with
  | nil => rfl
  | cons m moves ih =>
    rw [List.foldl_cons, ih, play]
    by_cases hi : i = m.1
    · rw [hi, Function.update_self, Seat.move_chips]
    · rw [Function.update_of_ne hi]

/-- Whatever is bet and folded before it, a showdown leaves all the chips with the seats exactly when no
seat put in more than every seat still in. -/
theorem hand_conserves (button : Nat) (tbl : Table) (moves : List (Fin SEATS × Move)) :
    ∑ i, (award button (moves.foldl play tbl) i).stack = ∑ i, ((tbl i).stack + (tbl i).totalBet) ↔
      ∀ i, (moves.foldl play tbl i).totalBet ≤ top (moves.foldl play tbl) := by
  obtain ⟨gain, h⟩ := award_paid button (moves.foldl play tbl)
  have hstart : ∑ i, ((tbl i).stack + (tbl i).totalBet) =
      ∑ i, ((moves.foldl play tbl i).stack + (moves.foldl play tbl i).totalBet) :=
    Finset.sum_congr rfl fun i _ => (play_chips tbl moves i).symm
  rw [hstart]
  generalize moves.foldl play tbl = t at h ⊢
  have hend : ∑ i, (award button t i).stack = ∑ i, (t i).stack + upTo t (top t) := by
    rw [h.table, ← h.sum, ← Finset.sum_add_distrib]
    rfl
  rw [hend, Finset.sum_add_distrib, Nat.add_left_cancel_iff, upTo,
    Finset.sum_eq_sum_iff_of_le fun i _ => Nat.min_le_left _ _]
  exact ⟨fun hall i => min_eq_left_iff.mp (hall i (Finset.mem_univ i)), fun hall i _ => min_eq_left (hall i)⟩

end Zelr.Poker
