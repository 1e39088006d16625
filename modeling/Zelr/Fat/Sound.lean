import Zelr.Fat.Calls

/-!
# What every directory keeps

Nothing after the slot that ends a directory, a name for each file that no other has, and long names
that were written whole.
-/

namespace Zelr.Fat

variable {e : Dirent} {slots g : List Dirent} {x : Bytes} {good : Bytes → Prop} {d : Dir}
  {i want start : Nat}

def Closed (slots : List Dirent) : Prop :=
  ∀ i j, i ≤ j → j < slots.length → (slots.getD i Dirent.zero).first = ENT_FREE →
    (slots.getD j Dirent.zero).first = ENT_FREE

structure Sound (slots : List Dirent) : Prop where
  ended : Closed slots
  sane : ∀ e ∈ slots, Sane (needsLong · = true) e
  distinct : (live slots).Nodup

/-! ## Live names -/

theorem live_append (xs ys : List Dirent) : live (xs ++ ys) = live xs ++ live ys := by
  rw [live, live, live, List.filter_append, List.map_append]

theorem live_cons (e : Dirent) (xs : List Dirent) : live (e :: xs) = live [e] ++ live xs := live_append [e] xs

theorem live_dead (h : entryIsReal e = false) : live [e] = [] := by
  rw [live, List.filter_cons_of_neg (by rw [h]; nofun), List.filter_nil, List.map_nil]

theorem live_real (h : entryIsReal e = true) : live [e] = [e.name] := by
  rw [live, List.filter_cons_of_pos h, List.filter_nil, List.map_cons, List.map_nil]

theorem not_real_free (h : e.first = ENT_FREE) : entryIsReal e = false := by
  simp [entryIsReal, h]

theorem not_real_usable (h : e.usable = true) : entryIsReal e = false := by
  simp only [Dirent.usable, Bool.or_eq_true, decide_eq_true_eq] at h
  rcases h with h | h <;> simp [entryIsReal, h]

theorem not_real_deleted (e : Dirent) : entryIsReal e.deleted = false := by
  simp [entryIsReal, Dirent.deleted, Dirent.first, byteAt]

theorem lfn_bits (a : UInt8) (h : a &&& ATTR_LFN_MASK = ATTR_LFN) : a &&& ATTR_LFN = ATTR_LFN :=
  forall_byte (P := fun a => a &&& ATTR_LFN_MASK = ATTR_LFN → a &&& ATTR_LFN = ATTR_LFN) (by decide +kernel) a h

theorem not_real_lfn (h : e.isLfn = true) : entryIsReal e = false := by
  have hbits := lfn_bits e.attr (of_decide_eq_true h)
  simp [entryIsReal, hbits]

theorem not_lfn_real (h : entryIsReal e = true) : e.isLfn = false := by
  rw [Bool.eq_false_iff]
  intro hlfn
  rw [not_real_lfn hlfn] at h
  cases h

theorem mem_live :
    x ∈ live slots ↔ ∃ i < slots.length, entryIsReal (slots.getD i Dirent.zero) = true ∧
      (slots.getD i Dirent.zero).name = x := by
  unfold live
  rw [List.mem_map]
  constructor
  · rintro ⟨e, he, rfl⟩
    obtain ⟨hmem, hreal⟩ := List.mem_filter.mp he
    obtain ⟨i, hi, rfl⟩ := List.getElem_of_mem hmem
    refine ⟨i, hi, ?_⟩
    rw [List.getD_eq_getElem?_getD, List.getElem?_eq_getElem hi, Option.getD_some]
    exact ⟨hreal, rfl⟩
  · rintro ⟨i, hi, hreal, hname⟩
    rw [List.getD_eq_getElem?_getD, List.getElem?_eq_getElem hi, Option.getD_some] at hreal hname
    exact ⟨slots[i], List.mem_filter.mpr ⟨List.getElem_mem hi, hreal⟩, hname⟩

/-! ## One slot written -/

section slot
variable {slots : List Dirent} {i j : Nat} {e : Dirent}

def others (slots : List Dirent) (i : Nat) : List Bytes := live (slots.take i) ++ live (slots.drop (i + 1))

theorem getD_set_self (hi : i < slots.length) : (slots.set i e).getD i Dirent.zero = e := by
  rw [List.getD_eq_getElem?_getD, List.getElem?_set_self hi, Option.getD_some]

theorem getD_set_other (hij : i ≠ j) : (slots.set i e).getD j Dirent.zero = slots.getD j Dirent.zero := by
  rw [List.getD_eq_getElem?_getD, List.getElem?_set_ne hij, ← List.getD_eq_getElem?_getD]

theorem split_at (hi : i < slots.length) :
    slots = slots.take i ++ slots.getD i Dirent.zero :: slots.drop (i + 1) := by
  have hdrop : slots.drop i = slots.getD i Dirent.zero :: slots.drop (i + 1) := by
    rw [List.drop_eq_getElem_cons hi, List.getD_eq_getElem?_getD, List.getElem?_eq_getElem hi, Option.getD_some]
  rw [← hdrop, List.take_append_drop]

theorem live_perm (hi : i < slots.length) :
    (live slots).Perm (live [slots.getD i Dirent.zero] ++ others slots i) := by
  nth_rewrite 1 [split_at hi]
  rw [live_append, live_cons, others, ← List.append_assoc, ← List.append_assoc]
  exact List.Perm.append_right _ List.perm_append_comm

theorem live_set (hi : i < slots.length) (e : Dirent) :
    (live (slots.set i e)).Perm (live [e] ++ others slots i) := by
  rw [List.set_eq_take_append_cons_drop, if_pos hi, live_append, live_cons, others, ← List.append_assoc,
    ← List.append_assoc]
  exact List.Perm.append_right _ List.perm_append_comm

theorem others_subset (hi : i < slots.length) (hx : x ∈ others slots i) : x ∈ live slots :=
  (live_perm hi).mem_iff.mpr (List.mem_append_right _ hx)

theorem mem_set_cases {x : Dirent} (hx : x ∈ slots.set i e) : x ∈ slots ∨ x = e := by
  rcases List.mem_or_eq_of_mem_set hx with h | h
  · exact .inl h
  · exact .inr h

theorem Closed.set (h : Closed slots) (hbefore : ∀ j < i, (slots.getD j Dirent.zero).first ≠ ENT_FREE)
    (hfirst : e.first ≠ ENT_FREE) : Closed (slots.set i e) := by
  intro a b hab hb hfree
  rw [List.length_set] at hb
  by_cases hi : i < slots.length
  · have ha : a ≠ i := by
      rintro rfl
      rw [getD_set_self hi] at hfree
      exact hfirst hfree
    rw [getD_set_other ha.symm] at hfree
    have hlow : i < a := by
      by_contra hge
      exact hbefore a (by omega) hfree
    rw [getD_set_other (by omega)]
    exact h a b hab hb hfree
  · rw [List.set_eq_of_length_le (by omega)] at hfree ⊢
    exact h a b hab hb hfree

theorem Closed.before (h : Closed slots) (hi : i < slots.length) (hfirst : (slots.getD i Dirent.zero).first ≠ ENT_FREE) :
    ∀ j < i, (slots.getD j Dirent.zero).first ≠ ENT_FREE :=
  fun j hj hfree => hfirst (h j i (by omega) hi hfree)

theorem Sound.set (h : Sound slots) (hi : i < slots.length)
    (hbefore : ∀ j < i, (slots.getD j Dirent.zero).first ≠ ENT_FREE) (hfirst : e.first ≠ ENT_FREE)
    (hsane : Sane (needsLong · = true) e) (hnew : entryIsReal e = true → e.name ∉ others slots i) :
    Sound (slots.set i e) where
  ended := h.ended.set hbefore hfirst
  sane x hx := by
    rcases mem_set_cases hx with hx | rfl
    · exact h.sane x hx
    · exact hsane
  distinct := by
    rw [(live_set hi e).nodup_iff]
    have hothers : (others slots i).Nodup := (List.nodup_append.mp ((live_perm hi).nodup_iff.mp h.distinct)).2.1
    cases hreal : entryIsReal e with
    | true =>
      rw [live_real hreal]
      exact List.nodup_cons.mpr ⟨hnew hreal, hothers⟩
    | false =>
      rw [live_dead hreal]
      exact hothers

theorem Sane.of_not_lfn (h : e.isLfn = false) : Sane good e := by
  intro hlfn
  rw [h] at hlfn
  cases hlfn

theorem deleted_sane (e : Dirent) : Sane good e.deleted := by
  intro _ hseq
  have hmark : (ENT_DELETED &&& 0x1F).toNat = 1 := hseq
  exact absurd hmark (by decide)

theorem deleted_first (e : Dirent) : e.deleted.first ≠ ENT_FREE := by
  have hmark : ENT_DELETED ≠ ENT_FREE := by decide
  exact hmark

theorem Sound.delete (h : Sound slots) (hi : i < slots.length)
    (hfirst : (slots.getD i Dirent.zero).first ≠ ENT_FREE) (e : Dirent) : Sound (slots.set i e.deleted) := by
  refine h.set hi (h.ended.before hi hfirst) (deleted_first e) (deleted_sane e) fun hreal => ?_
  rw [not_real_deleted] at hreal
  cases hreal

theorem Sound.rewrite (h : Sound slots) (hi : i < slots.length)
    (hfirst : (slots.getD i Dirent.zero).first ≠ ENT_FREE) (hname : e.name = (slots.getD i Dirent.zero).name)
    (hattr : e.attr = (slots.getD i Dirent.zero).attr) (hsane : Sane (needsLong · = true) e) : Sound (slots.set i e) := by
  have hreal : entryIsReal e = entryIsReal (slots.getD i Dirent.zero) := by
    rw [entryIsReal, entryIsReal, Dirent.first, Dirent.first, hname, hattr]
  have hsame : e.first ≠ ENT_FREE := by
    rw [Dirent.first, hname]
    exact hfirst
  refine h.set hi (h.ended.before hi hfirst) hsame hsane fun hlive => ?_
  have hnodup := (live_perm hi).nodup_iff.mp h.distinct
  rw [hreal] at hlive
  rw [live_real hlive] at hnodup
  rw [hname]
  exact (List.nodup_cons.mp hnodup).1

end slot

/-! ## Where a scan ends -/

section scan
variable {d : Dir} {i : Nat}

theorem ending_le (d : Dir) : d.ending ≤ d.slots.length := List.findIdx_le_length

theorem before_ending (hi : i < d.ending) : (d.entry i).first ≠ ENT_FREE := by
  have hle := ending_le d
  have hnot := List.not_of_lt_findIdx hi
  rw [Dir.entry, List.getD_eq_getElem?_getD, List.getElem?_eq_getElem (by omega), Option.getD_some]
  simpa using hnot

theorem lt_ending (hi : i < d.slots.length) (h : ∀ j ≤ i, (d.entry j).first ≠ ENT_FREE) : i < d.ending := by
  by_contra hge
  have hend : d.ending < d.slots.length := by omega
  have hfree := List.findIdx_getElem (w := hend)
  refine h d.ending (by omega) ?_
  rw [Dir.entry, List.getD_eq_getElem?_getD, List.getElem?_eq_getElem hend, Option.getD_some]
  exact of_decide_eq_true hfree

theorem shorts_eq (h : Closed d.slots) : d.shorts = live d.slots := by
  have hdead : live (d.slots.drop d.ending) = [] := by
    rw [List.eq_nil_iff_forall_not_mem]
    intro x hx
    obtain ⟨i, hi, hreal, -⟩ := mem_live.mp hx
    rw [List.length_drop] at hi
    have hend : d.ending < d.slots.length := by omega
    have hfree : (d.entry d.ending).first = ENT_FREE := by
      have hmark := List.findIdx_getElem (w := hend)
      rw [Dir.entry, List.getD_eq_getElem?_getD, List.getElem?_eq_getElem hend, Option.getD_some]
      exact of_decide_eq_true hmark
    have hthere := h d.ending (d.ending + i) (by omega) (by omega) hfree
    rw [List.getD_eq_getElem?_getD, List.getElem?_drop, ← List.getD_eq_getElem?_getD] at hreal
    rw [not_real_free hthere] at hreal
    cases hreal
  have hsplit := live_append (d.slots.take d.ending) (d.slots.drop d.ending)
  rw [List.take_append_drop, hdead, List.append_nil] at hsplit
  exact hsplit.symm

end scan

/-! ## Making room -/

def Grown (d : Dir) (g : List Dirent) : Prop := ∃ n, g = d.slots ++ List.replicate n Dirent.zero

theorem lookTwice_grown (r : Room) (d : Dir) (find : List Dirent → Option Nat) :
    ∃ g, Grown d g ∧ (lookTwice r d find = (⟨d.root, g⟩, none) ∨ lookTwice r d find = (⟨d.root, g⟩, find g)) := by
  unfold lookTwice
  cases hfind : find d.slots with
  | some i => exact ⟨d.slots, ⟨0, (List.append_nil _).symm⟩, .inr (by rw [hfind])⟩
  | none =>
    cases hgrow : dirGrow r d with
    | some d' =>
      unfold dirGrow at hgrow
      obtain ⟨-, hgrow⟩ := Option.ite_none_left_eq_some.mp hgrow
      cases hgrow
      exact ⟨_, ⟨r.perCluster, rfl⟩, .inr rfl⟩
    | none => exact ⟨d.slots, ⟨0, (List.append_nil _).symm⟩, .inl rfl⟩

theorem getD_grown (n i : Nat) :
    (slots ++ List.replicate n Dirent.zero).getD i Dirent.zero = slots.getD i Dirent.zero := by
  rw [List.getD_eq_getElem?_getD, List.getD_eq_getElem?_getD]
  by_cases hi : i < slots.length
  · rw [List.getElem?_append_left hi]
  · rw [List.getElem?_append_right (by omega), List.getElem?_replicate, List.getElem?_eq_none (show slots.length ≤ i by omega)]
    split <;> rfl

theorem Closed.grow (h : Closed slots) (n : Nat) :
    Closed (slots ++ List.replicate n Dirent.zero) := by
  intro i j hij hj hfree
  rw [getD_grown] at hfree ⊢
  by_cases hin : j < slots.length
  · exact h i j hij hin hfree
  · rw [List.getD_eq_getElem?_getD, List.getElem?_eq_none (by omega)]
    rfl

theorem live_zeros (n : Nat) : live (List.replicate n Dirent.zero) = [] := by
  rw [List.eq_nil_iff_forall_not_mem]
  intro x hx
  obtain ⟨i, hi, hreal, -⟩ := mem_live.mp hx
  rw [List.length_replicate] at hi
  rw [List.getD_eq_getElem?_getD, List.getElem?_replicate, if_pos hi] at hreal
  cases hreal

theorem live_grown (h : Grown d g) : live g = live d.slots := by
  obtain ⟨n, rfl⟩ := h
  rw [live_append, live_zeros, List.append_nil]

theorem zero_not_lfn : Dirent.zero.isLfn = false := rfl

theorem Sound.grow (h : Sound d.slots) (hg : Grown d g) : Sound g := by
  obtain ⟨n, rfl⟩ := hg
  refine ⟨h.ended.grow n, fun e he => ?_, ?_⟩
  · rcases List.mem_append.mp he with he | he
    · exact h.sane e he
    · rw [List.eq_of_mem_replicate he]
      exact Sane.of_not_lfn zero_not_lfn
  · rw [live_append, live_zeros, List.append_nil]
    exact h.distinct

theorem freeSlot_some (h : freeSlot slots = some i) :
    i < slots.length ∧ (slots.getD i Dirent.zero).usable = true ∧
      ∀ j < i, (slots.getD j Dirent.zero).usable = false := by
  obtain ⟨hi, huse, hnot⟩ := List.findIdx?_eq_some_iff_getElem.mp h
  refine ⟨hi, ?_, fun j hj => ?_⟩
  · rw [List.getD_eq_getElem?_getD, List.getElem?_eq_getElem hi]
    exact huse
  · rw [List.getD_eq_getElem?_getD, List.getElem?_eq_getElem (by omega)]
    exact eq_false_of_ne_true (hnot j hj)

theorem free_of_not_usable (h : e.usable = false) : e.first ≠ ENT_FREE := by
  intro hfree
  simp [Dirent.usable, hfree] at h

/-- What the scan knows at slot `i`: the last `run` slots are free to take, and no slot before them ends the directory. -/
structure Scanned (slots : List Dirent) (want i run : Nat) : Prop where
  le : run ≤ i
  lt : run < want
  usable : ∀ k, i - run ≤ k → k < i → (slots.getD k Dirent.zero).usable = true
  ended : ∀ j < i - run, (slots.getD j Dirent.zero).first ≠ ENT_FREE

theorem freeRun_scanned (h : Closed slots) {run : Nat} {rest : List Dirent}
    (hrest : slots.drop i = rest) (hscan : Scanned slots want i run) (hfound : freeRun want i run rest = some start) :
    start + want ≤ slots.length ∧
      (∀ k, start ≤ k → k < start + want → (slots.getD k Dirent.zero).usable = true) ∧
        ∀ j < start, (slots.getD j Dirent.zero).first ≠ ENT_FREE := by
  induction rest generalizing i run with
  | nil => cases hfound
  | cons e rest ih =>
    obtain ⟨hle, hlt, husable, hended⟩ := hscan
    have hi : i < slots.length := by
      by_contra hge
      rw [List.drop_eq_nil_of_le (by omega)] at hrest
      cases hrest
    have hdrop := List.drop_eq_getElem_cons hi
    rw [hrest, List.cons.injEq] at hdrop
    have he : slots.getD i Dirent.zero = e := by
      rw [List.getD_eq_getElem?_getD, List.getElem?_eq_getElem hi, Option.getD_some, hdrop.1]
    unfold freeRun at hfound
    cases huse : e.usable with
    | true =>
      have hmore : ∀ k, i - run ≤ k → k < i + 1 → (slots.getD k Dirent.zero).usable = true := by
        intro k hk hki
        rcases Nat.lt_succ_iff_lt_or_eq.mp hki with hki | rfl
        · exact husable k hk hki
        · rw [he, huse]
      rw [huse, if_pos rfl] at hfound
      split at hfound
      · cases hfound
        exact ⟨by omega, fun k hk hkw => hmore k (by omega) (by omega), fun j hj => hended j (by omega)⟩
      · refine ih hdrop.2.symm ⟨by omega, by omega, fun k hk hki => hmore k (by omega) hki, fun j hj => ?_⟩ hfound
        exact hended j (by omega)
    | false =>
      rw [huse, if_neg (by nofun)] at hfound
      refine ih hdrop.2.symm ⟨by omega, by omega, fun k hk hki => by omega, fun j hj hfree => ?_⟩ hfound
      have hthere := h j i (by omega) hi hfree
      rw [he] at hthere
      exact free_of_not_usable huse hthere

theorem freeRun_some (h : Closed slots) (hpos : 0 < want)
    (hfound : freeRun want 0 0 slots = some start) :
    start + want ≤ slots.length ∧
      (∀ k, start ≤ k → k < start + want → (slots.getD k Dirent.zero).usable = true) ∧
        ∀ j < start, (slots.getD j Dirent.zero).first ≠ ENT_FREE :=
  freeRun_scanned h List.drop_zero ⟨le_rfl, hpos, fun k hk hki => by omega, fun j hj => by omega⟩ hfound

end Zelr.Fat
