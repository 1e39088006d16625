import Mathlib.Data.List.Basic

/-!
# A loop that picks until there is no room

Over a list, a loop puts what is to go behind what it has put already, and ends at the first for which there is no
room.
-/

namespace Zelr.Picks

variable {α β σ : Type} {goes right : α → Bool} {room : σ → α → Bool} {put : σ → α → σ}

def picks (goes : α → Bool) (room : σ → α → Bool) (put : σ → α → σ) : σ → List α → List α
  | _, [] => []
  | s, a :: l => if goes a then (if room s a then a :: picks goes room put (put s a) l else []) else picks goes room put s l

theorem goes_of_picks {s : σ} {l : List α} {a : α} (h : a ∈ picks goes room put s l) : goes a = true := by
  induction l generalizing s with
  | nil => cases h
  | cons b l ih =>
    unfold picks at h
    split at h
    · rename_i hb
      split at h
      · rcases List.mem_cons.mp h with rfl | h
        · exact hb
        · exact ih h
      · cases h
    · exact ih h

theorem picks_map (f : β → α) {s : σ} {l : List β} :
    (picks (fun b => goes (f b)) (fun s b => room s (f b)) (fun s b => put s (f b)) s l).map f =
      picks goes room put s (l.map f) := by
  induction l generalizing s with
  | nil => rfl
  | cons b l ih =>
    rw [List.map_cons, picks, picks]
    split
    · split
      · rw [List.map_cons, ih]
      · rfl
    · exact ih

/-- Everything right is to go and has room behind what else is right; and the first that is to go and is not right has
no room, with nothing right behind it. -/
structure Right (goes right : α → Bool) (room : σ → α → Bool) (put : σ → α → σ) (s : σ) (l : List α) : Prop where
  gone : ∀ before a after, l = before ++ a :: after → right a = true → goes a = true
  fits : ∀ before a after, l = before ++ a :: after → right a = true → room ((before.filter right).foldl put s) a = true
  stop : ∀ before a after, l = before ++ a :: after → goes a = true → right a = false →
    (∀ b ∈ before, goes b = true → right b = true) →
      room ((before.filter right).foldl put s) a = false ∧ ∀ b ∈ after, right b = false

section Cons

variable {s : σ} {a : α} {l : List α}

theorem put_cons (before : List α) :
    ((a :: before).filter right).foldl put s = (before.filter right).foldl put (([a].filter right).foldl put s) := by
  rw [← List.singleton_append, List.filter_append, List.foldl_append]

theorem Right.cons (h : Right goes right room put (([a].filter right).foldl put s) l) (hgoes : right a = true → goes a = true)
    (hroom : right a = true → room s a = true) (hstop : goes a = true → right a = true) :
    Right goes right room put s (a :: l) := by
  refine ⟨fun before b after hl hb => ?_, fun before b after hl hb => ?_, fun before b after hl hb hwrong hbefore => ?_⟩
  all_goals
    obtain ⟨rfl, hcons⟩ | ⟨before, rfl, hrest⟩ := List.cons_eq_append_iff.mp hl
  · obtain ⟨rfl, -⟩ := List.cons.inj hcons
    exact hgoes hb
  · exact h.gone before b after hrest hb
  · obtain ⟨rfl, -⟩ := List.cons.inj hcons
    exact hroom hb
  · rw [put_cons]
    exact h.fits before b after hrest hb
  · obtain ⟨rfl, -⟩ := List.cons.inj hcons
    rw [hstop hb] at hwrong
    cases hwrong
  · rw [put_cons]
    exact h.stop before b after hrest hb hwrong fun c hc => hbefore c (List.mem_cons_of_mem a hc)

theorem Right.tail (h : Right goes right room put s (a :: l)) (ha : goes a = true → right a = true) :
    Right goes right room put (([a].filter right).foldl put s) l := by
  refine ⟨fun before b after hl hb => ?_, fun before b after hl hb => ?_, fun before b after hl hb hwrong hbefore => ?_⟩
  · exact h.gone (a :: before) b after (by rw [hl, List.cons_append]) hb
  · rw [← put_cons]
    exact h.fits (a :: before) b after (by rw [hl, List.cons_append]) hb
  · rw [← put_cons]
    exact h.stop (a :: before) b after (by rw [hl, List.cons_append]) hb hwrong (List.forall_mem_cons.mpr ⟨ha, hbefore⟩)

end Cons

/-- The loop picks what is right and nothing else. -/
theorem picks_eq_filter_iff {s : σ} {l : List α} :
    picks goes room put s l = l.filter right ↔ Right goes right room put s l := by
  induction l generalizing s with
  | nil =>
    refine iff_of_true rfl ⟨?_, ?_, ?_⟩
    all_goals
      intro before a after hl
      cases List.append_eq_nil_iff.mp hl.symm |>.2
  | cons a l ih =>
    rw [picks]
    by_cases hgoes : goes a = true
    · rw [if_pos hgoes]
      by_cases hroom : room s a = true
      · rw [if_pos hroom]
        by_cases hright : right a = true
        · rw [List.filter_cons_of_pos hright, List.cons_inj_right, ih]
          have hput : ([a].filter right).foldl put s = put s a := by
            rw [List.filter_cons_of_pos hright]
            rfl
          rw [← hput]
          exact ⟨fun h => h.cons (fun _ => hgoes) (fun _ => hroom) (fun _ => hright), fun h => h.tail fun _ => hright⟩
        · -- picked, and not right
          rw [List.filter_cons_of_neg hright]
          refine iff_of_false (fun h => hright ?_) (fun h => ?_)
          · exact List.of_mem_filter (h ▸ List.mem_cons_self)
          · have hstop := (h.stop [] a l rfl hgoes (Bool.eq_false_iff.mpr hright) fun _ hb => absurd hb List.not_mem_nil).1
            rw [List.filter_nil, List.foldl_nil, hroom] at hstop
            cases hstop
      · -- the loop ends
        rw [if_neg hroom, eq_comm, List.filter_eq_nil_iff]
        constructor
        · intro hnone
          have hfalse : ∀ b ∈ a :: l, right b = false := fun b hb => Bool.eq_false_iff.mpr (hnone b hb)
          refine ⟨fun before b after hl hb => ?_, fun before b after hl hb => ?_, fun before b after hl _ _ hbefore => ?_⟩
          · rw [hfalse b (by simp [hl])] at hb
            cases hb
          · rw [hfalse b (by simp [hl])] at hb
            cases hb
          · obtain ⟨rfl, hcons⟩ | ⟨before, rfl, -⟩ := List.cons_eq_append_iff.mp hl
            · obtain ⟨rfl, rfl⟩ := List.cons.inj hcons
              exact ⟨Bool.eq_false_iff.mpr hroom, fun c hc => hfalse c (List.mem_cons_of_mem _ hc)⟩
            · have ha := hbefore a List.mem_cons_self hgoes
              rw [hfalse a List.mem_cons_self] at ha
              cases ha
        · intro h
          have hright : ¬ right a = true := fun hright => hroom (h.fits [] a l rfl hright)
          have hstop := h.stop [] a l rfl hgoes (Bool.eq_false_iff.mpr hright) fun _ hb => absurd hb List.not_mem_nil
          exact List.forall_mem_cons.mpr ⟨hright, fun b hb => Bool.eq_false_iff.mp (hstop.2 b hb)⟩
    · rw [if_neg hgoes]
      by_cases hright : right a = true
      · -- right, and left out
        rw [List.filter_cons_of_pos hright]
        refine iff_of_false (fun h => hgoes ?_) (fun h => hgoes (h.gone [] a l rfl hright))
        have hmem : a ∈ picks goes room put s l := by
          rw [h]
          exact List.mem_cons_self
        exact goes_of_picks hmem
      · rw [List.filter_cons_of_neg hright, ih]
        have hput : ([a].filter right).foldl put s = s := by
          rw [List.filter_cons_of_neg hright]
          rfl
        constructor
        · intro h
          exact Right.cons (hput.symm ▸ h) (fun h => absurd h hright) (fun h => absurd h hright) (fun h => absurd h hgoes)
        · intro h
          exact hput ▸ h.tail fun h => absurd h hgoes

theorem right_map_iff (f : β → α) {s : σ} {l : List β} :
    Right (fun b => goes (f b)) (fun b => right (f b)) (fun s b => room s (f b)) (fun s b => put s (f b)) s l ↔
      Right goes right room put s (l.map f) := by
  have hput : ∀ before : List β, ((before.map f).filter right).foldl put s =
      (before.filter fun b => right (f b)).foldl (fun s b => put s (f b)) s := by
    intro before
    rw [List.filter_map, List.foldl_map]
    rfl
  constructor
  · intro h
    refine ⟨fun before a after hl ha => ?_, fun before a after hl ha => ?_, fun before a after hl ha hwrong hbefore => ?_⟩
    all_goals
      obtain ⟨before, rest, rfl, rfl, hrest⟩ := List.map_eq_append_iff.mp hl
      obtain ⟨a, after, rfl, rfl, rfl⟩ := List.map_eq_cons_iff.mp hrest
    · exact h.gone before a after rfl ha
    · rw [hput]
      exact h.fits before a after rfl ha
    · rw [hput, List.forall_mem_map]
      exact h.stop before a after rfl ha hwrong (List.forall_mem_map.mp hbefore)
  · intro h
    have hsplit : ∀ before a after, l = before ++ a :: after → l.map f = before.map f ++ f a :: after.map f := by
      rintro before a after rfl
      rw [List.map_append, List.map_cons]
    refine ⟨fun before a after hl ha => ?_, fun before a after hl ha => ?_, fun before a after hl ha hwrong hbefore => ?_⟩
    · exact h.gone _ _ _ (hsplit before a after hl) ha
    · rw [← hput]
      exact h.fits _ _ _ (hsplit before a after hl) ha
    · have hstop := h.stop _ _ _ (hsplit before a after hl) ha hwrong (List.forall_mem_map.mpr hbefore)
      rw [hput, List.forall_mem_map] at hstop
      exact hstop

end Zelr.Picks
