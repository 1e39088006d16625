import Zelr.Fat.Sound

/-!
# No two entries under one short name

A name that is put in is one that nothing in the directory answers to, and an alias is one that no
entry has.
-/

namespace Zelr.Fat

variable {name : Bytes} {i j : Nat} {slots : List Dirent} {us : List Nat} {d : Dir}
  {res : Dir × Option (Nat × Bytes)} {good : Bytes → Prop} {e : Dirent}

/-! ## The first byte of a short name -/

theorem needsLongFrom_low {base ext : Nat} {dot : Bool} {s : Bytes} (h : needsLongFrom base ext dot s = false) :
    ∀ c ∈ s, c < 0x80 := by
  induction s generalizing base ext dot with
  | nil => nofun
  | cons c s ih =>
    unfold needsLongFrom at h
    split at h
    · cases h
    · rename_i hlow
      have hrest : ∃ base' ext' dot', needsLongFrom base' ext' dot' s = false := by
        split at h
        · split at h
          · cases h
          · exact ⟨_, _, _, h⟩
        · split at h
          · cases h
          · split at h
            · exact ⟨_, _, _, h⟩
            · exact ⟨_, _, _, h⟩
      obtain ⟨_, _, _, hrest⟩ := hrest
      intro x hx
      rcases List.mem_cons.mp hx with rfl | hx
      · exact UInt8.not_le.mp hlow
      · exact ih hrest x hx

theorem fits83_low (h : fits83 name = true) : ∀ c ∈ name, c < 0x80 := by
  intro c hc
  have hall := List.all_eq_true.mp (Bool.and_eq_true_iff.mp h).1 c hc
  exact of_decide_eq_true hall

def Marks (c : UInt8) : Prop := c ≠ ENT_FREE ∧ c ≠ ENT_DELETED

theorem aliasByte_marks {c : UInt8} (h : AliasByte c) : Marks c := by
  refine ⟨h.2.1, ?_⟩
  rintro rfl
  exact absurd h.2.2 (by decide)

theorem to83_marks (hplain : 0 ∉ name) (hlow : ∀ c ∈ name, c < 0x80) : Marks (byteAt (to83 name) 0) := by
  unfold to83
  cases hstem : stem name with
  | nil =>
    have hspace : Marks SPACE := ⟨by decide, by decide⟩
    exact hspace
  | cons c s =>
    obtain ⟨hmem, hdot⟩ := stem_mem (show c ∈ stem name by rw [hstem]; exact List.mem_cons_self)
    have hzero : c ≠ 0 := fun heq => hplain (heq ▸ hmem)
    have hbyte := aliasByte_upcase hdot hzero (UInt8.not_le.mpr (hlow c hmem))
    exact aliasByte_marks hbyte

/-! ## What is put in -/

/-- What `dir_put_name` comes to. -/
inductive Put (d : Dir) (name : Bytes) : Dir × Option (Nat × Bytes) → Prop
  | refused {g} : Grown d g → Put d name (⟨d.root, g⟩, none)
  | short {g slot} : Grown d g → needsLong name = false → freeSlot g = some slot →
      Put d name (⟨d.root, g⟩, some (slot, to83 name))
  | long {g us start short} : Grown d g → needsLong name = true → name.length < FAT_NAME_MAX →
      utf8ToUnits name FAT_NAME_MAX = some us → freeRun (lfnSlots us + 1) 0 0 g = some start →
      makeAlias ⟨d.root, g⟩ name = some short →
      Put d name (⟨d.root, writeRun g start ((List.range (lfnSlots us)).map (lfnSlot us (shortChecksum short)))⟩,
        some (start + lfnSlots us, short))

theorem grown_refl (d : Dir) : Grown d d.slots := ⟨0, (List.append_nil _).symm⟩

theorem dirPutName_put (r : Room) (d : Dir) (name : Bytes) : Put d name (dirPutName r d name) := by
  unfold dirPutName
  cases hlong : needsLong name with
  | false =>
    unfold dirFreeSlot
    obtain ⟨g, hg, hnone | hsome⟩ := lookTwice_grown r d freeSlot
    · rw [hnone]
      exact .refused hg
    · rw [hsome]
      cases hslot : freeSlot g with
      | none => exact .refused hg
      | some slot => exact .short hg hlong hslot
  | true =>
    by_cases hlen : name.length ≥ FAT_NAME_MAX
    · simp only [Bool.not_true, Bool.false_eq_true, if_false, if_pos hlen]
      exact .refused (grown_refl d)
    · simp only [Bool.not_true, Bool.false_eq_true, if_false, if_neg hlen]
      cases hus : utf8ToUnits name FAT_NAME_MAX with
      | none => exact .refused (grown_refl d)
      | some us =>
        cases us with
        | nil => exact .refused (grown_refl d)
        | cons u us =>
          dsimp only
          unfold dirFreeRun
          obtain ⟨g, hg, hnone | hsome⟩ := lookTwice_grown r d (freeRun (lfnSlots (u :: us) + 1) 0 0)
          · rw [hnone]
            exact .refused hg
          · rw [hsome]
            cases hrun : freeRun (lfnSlots (u :: us) + 1) 0 0 g with
            | none => exact .refused hg
            | some start =>
              dsimp only
              cases halias : makeAlias ⟨d.root, g⟩ name with
              | none => exact .refused hg
              | some short => exact .long hg hlong (by omega) hus hrun halias

/-! ## Names that make no trouble -/

/-- A name that can be put into a directory. The long way: every numbered alias there is read back, and no
character is taken for filler. The short way: it comes back from eleven bytes. -/
def Ordinary (d : Dir) (name : Bytes) : Prop :=
  if needsLong name then
    Readable (aliasParts name) d.shorts ∧ ∀ us, utf8ToUnits name FAT_NAME_MAX = some us → 0xFFFF ∉ us
  else fits83 name = true ∨ to83 name ∉ d.shorts

structure Slot (slots : List Dirent) (slot : Nat) (short : Bytes) : Prop where
  lt : slot < slots.length
  before : ∀ j < slot, (slots.getD j Dirent.zero).first ≠ ENT_FREE
  dead : entryIsReal (slots.getD slot Dirent.zero) = false
  fresh : short ∉ live slots
  marks : Marks (byteAt short 0)

theorem writeRun_length (slots es : List Dirent) (i : Nat) : (writeRun slots i es).length = slots.length := by
  induction es generalizing slots i with
  | nil => rfl
  | cons e es ih => rw [writeRun, ih, List.length_set]

theorem writeRun_other (slots es : List Dirent) (h : j < i ∨ i + es.length ≤ j) :
    (writeRun slots i es).getD j Dirent.zero = slots.getD j Dirent.zero := by
  induction es generalizing slots i with
  | nil => rfl
  | cons e es ih =>
    rw [List.length_cons] at h
    rw [writeRun, ih (slots.set i e) (by omega), getD_set_other (by omega)]

theorem writeRun_sound {es : List Dirent} (h : Sound slots) (hlen : i + es.length ≤ slots.length)
    (hbefore : ∀ j < i, (slots.getD j Dirent.zero).first ≠ ENT_FREE)
    (hdead : ∀ j, i ≤ j → j < i + es.length → entryIsReal (slots.getD j Dirent.zero) = false)
    (hes : ∀ e ∈ es, e.first ≠ ENT_FREE ∧ entryIsReal e = false ∧ Sane (needsLong · = true) e) :
    Sound (writeRun slots i es) ∧ (∀ x, x ∈ live (writeRun slots i es) ↔ x ∈ live slots) ∧
      ∀ j < i + es.length, ((writeRun slots i es).getD j Dirent.zero).first ≠ ENT_FREE := by
  induction es generalizing slots i with
  | nil => exact ⟨h, fun _ => Iff.rfl, hbefore⟩
  | cons e es ih =>
    rw [List.length_cons] at hlen hdead
    obtain ⟨hfirst, hreal, hsane⟩ := hes e List.mem_cons_self
    have hi : i < slots.length := by omega
    have hset := h.set hi hbefore hfirst hsane fun hlive => by rw [hreal] at hlive; cases hlive
    have hlive : ∀ x, x ∈ live (slots.set i e) ↔ x ∈ live slots := by
      intro x
      rw [(live_set hi e).mem_iff, (live_perm hi).mem_iff, live_dead hreal, live_dead (hdead i le_rfl (by omega))]
    obtain ⟨hsound, hsame, hfree⟩ := @ih (i + 1) (slots.set i e) hset (by rw [List.length_set]; omega)
      (fun j hj => by
        rcases Nat.lt_succ_iff_lt_or_eq.mp hj with hj | rfl
        · rw [getD_set_other (by omega)]
          exact hbefore j hj
        · rw [getD_set_self hi]
          exact hfirst)
      (fun j hj hj' => by
        rw [getD_set_other (by omega)]
        exact hdead j (by omega) (by omega))
      fun x hx => hes x (List.mem_cons_of_mem _ hx)
    refine ⟨hsound, fun x => (hsame x).trans (hlive x), fun j hj => hfree j ?_⟩
    rw [List.length_cons] at hj
    omega

theorem lfnParts_dead {short : Bytes} :
    ∀ e ∈ (List.range (lfnSlots us)).map (lfnSlot us (shortChecksum short)), e.isLfn = true := by
  intro e he
  obtain ⟨k, -, rfl⟩ := List.mem_map.mp he
  exact lfnSlot_isLfn us _ k

theorem needsLong_long (hlong : needsLong name = true) (hplain : 0 ∉ name)
    (hlen : name.length < FAT_NAME_MAX) (hus : utf8ToUnits name FAT_NAME_MAX = some us) (hfill : 0xFFFF ∉ us) :
    Long name us := by
  refine ⟨hus, hplain, ?_, hlen, hfill⟩
  rintro rfl
  cases hlong

theorem answers_short (h : Sound d.slots) (hfits : fits83 name = true)
    (hlong : needsLong name = false) (hans : answers d name i = true) : (d.entry i).name = to83 name := by
  unfold answers at hans
  obtain ⟨-, hans⟩ := Bool.and_eq_true_iff.mp hans
  rcases Bool.or_eq_true_iff.mp hans with hshort | hname
  · exact of_decide_eq_true (Bool.and_eq_true_iff.mp hshort).2
  · cases hreal : longNameOf d.slots i (d.entry i) with
    | none =>
      rw [hreal] at hname
      cases hname
    | some L =>
      rw [hreal] at hname
      rcases longNameOf_sane h.sane hreal with hsize | hgood
      · have hshort := fits83_length hfits
        rw [← sameName_length hname] at hshort
        omega
      · rw [needsLong_congr hname, hlong] at hgood
        cases hgood

theorem fits83_not_dots (hfits : fits83 name = true) (hlong : needsLong name = false) :
    isDots name = false := by
  rw [Bool.eq_false_iff]
  intro hdots
  simp only [isDots, Bool.or_eq_true, decide_eq_true_eq] at hdots
  rcases hdots with rfl | rfl
  · exact absurd hfits (by decide)
  · exact absurd hlong (by decide)

theorem dirFind_none (hfits : fits83 name = true) (hlong : needsLong name = false)
    (h : dirFind d name = none) : to83 name ∉ d.shorts := by
  unfold dirFind at h
  rw [fits83_not_dots hfits hlong, if_neg Bool.false_ne_true] at h
  intro hmem
  obtain ⟨i, hi, hreal, hname⟩ := mem_live.mp hmem
  rw [List.length_take] at hi
  have hget : (d.slots.take d.ending).getD i Dirent.zero = d.entry i := by
    rw [Dir.entry, List.getD_eq_getElem?_getD, List.getElem?_take_of_lt (by omega), ← List.getD_eq_getElem?_getD]
  rw [hget] at hreal hname
  have hnot := List.find?_eq_none.mp h i (List.mem_range.mpr (by omega))
  simp [answers, hreal, hfits, hname] at hnot

theorem makeAlias_fresh {a : Bytes} (hread : Readable (aliasParts name) d.shorts)
    (h : makeAlias d name = some a) : a ∉ d.shorts := aliasChoose_fresh hread h

theorem put_slot {leaf : Leaf} (h : Sound d.slots) (hname : Ordinary d leaf.name)
    (hnone : needsLong leaf.name = false → dirFind d leaf.name = none ∨ to83 leaf.name ∉ d.shorts)
    (hput : Put d leaf.name res) :
    Sound res.1.slots ∧ (∀ x, x ∈ live res.1.slots ↔ x ∈ live d.slots) ∧
      ∀ slot short, res.2 = some (slot, short) → Slot res.1.slots slot short := by
  cases hput with
  | refused hg =>
    have hlive := live_grown hg
    exact ⟨h.grow hg, fun x => by rw [hlive], nofun⟩
  | short hg hshort hslot =>
    have hlive := live_grown hg
    refine ⟨h.grow hg, fun x => by rw [hlive], ?_⟩
    rintro slot short heq
    cases heq
    obtain ⟨hlt, huse, hbefore⟩ := freeSlot_some hslot
    refine ⟨hlt, fun j hj => free_of_not_usable (hbefore j hj), not_real_usable huse, ?_,
      to83_marks leaf.plain (needsLongFrom_low hshort)⟩
    rw [hlive, ← shorts_eq h.ended]
    rw [Ordinary, hshort, if_neg Bool.false_ne_true] at hname
    rcases hname with hfits | hnew
    · rcases hnone hshort with hnone | hnew
      · exact dirFind_none hfits hshort hnone
      · exact hnew
    · exact hnew
  | @long g us start short hg hlong hlen hus hrun halias =>
    have hlive := live_grown hg
    have hgrown := h.grow hg
    rw [Ordinary, hlong, if_pos rfl] at hname
    obtain ⟨hread, hfill⟩ := hname
    have hname := needsLong_long hlong leaf.plain hlen hus (hfill us hus)
    obtain ⟨hroom, husable, hbefore⟩ := freeRun_some hgrown.ended (Nat.succ_pos _) hrun
    obtain ⟨-, hunits, -, -⟩ := hname.facts
    have hsize : ((List.range (lfnSlots us)).map (lfnSlot us (shortChecksum short))).length = lfnSlots us := by
      rw [List.length_map, List.length_range]
    obtain ⟨hsound, hsame, hfree⟩ := writeRun_sound hgrown
      (show start + ((List.range (lfnSlots us)).map (lfnSlot us (shortChecksum short))).length ≤ _ by rw [hsize]; omega) hbefore
      (fun j hj hj' => not_real_usable (husable j hj (by rw [hsize] at hj'; omega)))
      (fun e he => by
        have hlfn := lfnParts_dead e he
        obtain ⟨k, hk, rfl⟩ := List.mem_map.mp he
        have hk := List.mem_range.mp hk
        exact ⟨(lfnSlot_kept hunits _ hk).1, not_real_lfn hlfn, lfnSlot_sane hname hlong _ hk⟩)
    rw [hsize] at hfree
    refine ⟨hsound, fun x => by rw [hsame, hlive], ?_⟩
    rintro slot short' heq
    cases heq
    have hshorts : (⟨d.root, g⟩ : Dir).shorts = d.shorts := by
      rw [@shorts_eq ⟨d.root, g⟩ hgrown.ended, shorts_eq h.ended]
      exact hlive
    refine ⟨by rw [writeRun_length]; omega, hfree, ?_, ?_, aliasByte_marks (aliasChoose_bytes leaf.plain halias).1⟩
    · rw [writeRun_other _ _ (.inr (by rw [hsize]))]
      exact not_real_usable (husable _ (by omega) (by omega))
    · rw [hsame, ← @shorts_eq ⟨d.root, g⟩ hgrown.ended]
      exact makeAlias_fresh (by rw [hshorts]; exact hread) halias

theorem put_keeps (h : Closed d.slots) (hput : Put d name res)
    (hi : i < d.slots.length) (hreal : entryIsReal (d.entry i) = true) :
    i < res.1.slots.length ∧ res.1.slots.getD i Dirent.zero = d.entry i := by
  have hgrown : ∀ {g}, Grown d g → i < g.length ∧ g.getD i Dirent.zero = d.entry i := by
    rintro g ⟨n, rfl⟩
    refine ⟨?_, getD_grown n i⟩
    rw [List.length_append]
    omega
  cases hput with
  | refused hg => exact hgrown hg
  | short hg => exact hgrown hg
  | @long g us start short hg hlong hlen hus hrun halias =>
    obtain ⟨hlt, hget⟩ := hgrown hg
    have hclosed : Closed g := by
      obtain ⟨n, rfl⟩ := hg
      exact h.grow n
    obtain ⟨-, husable, -⟩ := freeRun_some hclosed (Nat.succ_pos _) hrun
    have hout : i < start ∨ start + lfnSlots us ≤ i := by
      by_contra hin
      have hdead := not_real_usable (husable i (by omega) (by omega))
      rw [hget, hreal] at hdead
      cases hdead
    refine ⟨by rw [writeRun_length]; exact hlt, ?_⟩
    rw [writeRun_other _ _ (by rwa [List.length_map, List.length_range]), hget]

/-! ## What is taken out -/

theorem dirFind_some (h : dirFind d name = some i) :
    i < d.slots.length ∧ (d.entry i).first ≠ ENT_FREE ∧ (isDots name = false → entryIsReal (d.entry i) = true) ∧
      (entryIsReal (d.entry i) = true ∨ (d.entry i).first = DOT) := by
  unfold dirFind at h
  cases hdots : isDots name with
  | true =>
    rw [hdots, if_pos rfl] at h
    obtain ⟨-, h⟩ := Option.ite_none_left_eq_some.mp h
    have hmem := List.mem_range.mp (List.mem_of_find?_eq_some h)
    have hfound := List.find?_some h
    have hname : (d.entry i).name = blanks 11 name := of_decide_eq_true hfound
    have hfirst : (d.entry i).first = DOT := by
      rw [Dirent.first, hname]
      simp only [isDots, Bool.or_eq_true, decide_eq_true_eq] at hdots
      rcases hdots with rfl | rfl <;> rfl
    refine ⟨by omega, ?_, fun hno => absurd hno.symm Bool.false_ne_true, .inr hfirst⟩
    rw [hfirst]
    decide
  | false =>
    rw [hdots, if_neg Bool.false_ne_true] at h
    have hmem := List.mem_range.mp (List.mem_of_find?_eq_some h)
    have hans := List.find?_some h
    have hreal : entryIsReal (d.entry i) = true := (Bool.and_eq_true_iff.mp hans).1
    exact ⟨by have hle := ending_le d; omega, before_ending hmem, fun _ => hreal, .inl hreal⟩

theorem sane_of_dot (h : e.first = DOT) : Sane good e := by
  intro _ hseq
  rw [Dirent.seq, h] at hseq
  exact absurd hseq (by decide)

theorem sane_same {old : Dirent} (h : entryIsReal old = true ∨ old.first = DOT)
    (hname : e.name = old.name) (hattr : e.attr = old.attr) : Sane good e := by
  rcases h with hreal | hdot
  · refine Sane.of_not_lfn ?_
    have hlfn := not_lfn_real hreal
    rwa [Dirent.isLfn, ← hattr] at hlfn
  · refine sane_of_dot ?_
    rwa [Dirent.first, hname]

theorem dirDropLong_length (sum : UInt8) (i : Nat) (slots : List Dirent) :
    (dirDropLong sum i slots).length = slots.length := by
  induction i generalizing slots with
  | zero => rfl
  | succ i ih =>
    unfold dirDropLong
    dsimp only
    split
    · rfl
    · split
      · exact List.length_set
      · rw [ih, List.length_set]

theorem dirDropLong_keeps (sum : UInt8) (slots : List Dirent)
    (h : i ≤ j ∨ (slots.getD j Dirent.zero).isLfn = false) :
    (dirDropLong sum i slots).getD j Dirent.zero = slots.getD j Dirent.zero := by
  induction i generalizing slots with
  | zero => rfl
  | succ i ih =>
    unfold dirDropLong
    dsimp only
    split
    · rfl
    · rename_i hlfn
      have hij : i ≠ j := by
        rintro rfl
        rcases h with hle | hnot
        · omega
        · rw [hnot] at hlfn
          exact hlfn rfl
      split
      · exact getD_set_other hij
      · rw [ih _ (by rw [getD_set_other hij]; exact h.imp (by omega) id), getD_set_other hij]

theorem dirDropLong_sound (sum : UInt8) (h : Sound slots) (hi : i ≤ slots.length)
    (hbefore : ∀ j < i, (slots.getD j Dirent.zero).first ≠ ENT_FREE) :
    Sound (dirDropLong sum i slots) ∧ ∀ x, x ∈ live (dirDropLong sum i slots) ↔ x ∈ live slots := by
  induction i generalizing slots with
  | zero => exact ⟨h, fun _ => Iff.rfl⟩
  | succ i ih =>
    unfold dirDropLong
    dsimp only
    split
    · exact ⟨h, fun _ => Iff.rfl⟩
    · rename_i hlfn
      have hlfn : (slots.getD i Dirent.zero).isLfn = true := by
        by_contra hnot
        rw [Bool.not_eq_true] at hnot
        rw [hnot] at hlfn
        exact hlfn rfl
      have hset := h.delete (show i < slots.length by omega) (hbefore i (by omega)) (slots.getD i Dirent.zero)
      have hlive : ∀ x, x ∈ live (slots.set i (slots.getD i Dirent.zero).deleted) ↔ x ∈ live slots := by
        intro x
        rw [(live_set (by omega) _).mem_iff, (live_perm (show i < slots.length by omega)).mem_iff,
          live_dead (not_real_deleted _), live_dead (not_real_lfn hlfn)]
      split
      · exact ⟨hset, hlive⟩
      · obtain ⟨hsound, hsame⟩ := ih hset (by rw [List.length_set]; omega) fun j hj => by
          rw [getD_set_other (by omega)]
          exact hbefore j (by omega)
        exact ⟨hsound, fun x => (hsame x).trans (hlive x)⟩

theorem drop_sound (sum : UInt8) (h : Sound slots) (hi : i < slots.length)
    (hfirst : (slots.getD i Dirent.zero).first ≠ ENT_FREE) (e : Dirent) :
    Sound ((dirDropLong sum i slots).set i e.deleted) ∧
      ∀ x, x ∈ live ((dirDropLong sum i slots).set i e.deleted) ↔ x ∈ others (dirDropLong sum i slots) i := by
  obtain ⟨hsound, -⟩ := dirDropLong_sound sum h hi.le (h.ended.before hi hfirst)
  have hlen : i < (dirDropLong sum i slots).length := by rwa [dirDropLong_length]
  refine ⟨hsound.delete hlen ?_ e, fun x => ?_⟩
  · rwa [dirDropLong_keeps sum slots (.inl le_rfl)]
  · rw [(live_set hlen _).mem_iff, live_dead (not_real_deleted e), List.nil_append]

theorem drop_live (sum : UInt8) (h : Sound slots) (hi : i < slots.length)
    (hfirst : (slots.getD i Dirent.zero).first ≠ ENT_FREE) (e : Dirent) {x : Bytes}
    (hx : x ∈ live ((dirDropLong sum i slots).set i e.deleted)) :
    x ∈ live slots ∧ (entryIsReal (slots.getD i Dirent.zero) = true → x ≠ (slots.getD i Dirent.zero).name) := by
  obtain ⟨hsound, hsame⟩ := dirDropLong_sound sum h hi.le (h.ended.before hi hfirst)
  have hlen : i < (dirDropLong sum i slots).length := by rwa [dirDropLong_length]
  have hx := ((drop_sound sum h hi hfirst e).2 x).mp hx
  refine ⟨(hsame x).mp (others_subset hlen hx), ?_⟩
  rintro hreal rfl
  have hnodup := (live_perm hlen).nodup_iff.mp hsound.distinct
  rw [dirDropLong_keeps sum slots (.inl le_rfl), live_real hreal] at hnodup
  exact (List.nodup_cons.mp hnodup).1 hx

end Zelr.Fat
