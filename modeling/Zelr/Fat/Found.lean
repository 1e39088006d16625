import Zelr.Fat.Distinct

/-!
# What is written is found

An entry is found under the name it was written under, listed under it, and written again under it.
-/

namespace Zelr.Fat

variable {a b : Bytes} {d d' : Dir} {j n i slot : Nat} {e : Dirent} {s s' g : List Dirent} {p : Nat → Bool}

/-! ## The same name in another case -/

theorem isDots_eq (ha : isDots a = true) (h : sameName a b = true) : a = b := by
  have hb := isDots_congr h
  have hlen := sameName_length h
  rw [ha] at hb
  simp only [isDots, Bool.or_eq_true, decide_eq_true_eq] at ha
  have hb := hb.symm
  simp only [isDots, Bool.or_eq_true, decide_eq_true_eq] at hb
  rcases ha with rfl | rfl <;> rcases hb with rfl | rfl
  · rfl
  · cases hlen
  · cases hlen
  · rfl

theorem answers_congr (h : sameName a b = true) (i : Nat) : answers d a i = answers d b i := by
  have hlong : ∀ L : Bytes, sameName L a = sameName L b := by
    intro L
    rw [Bool.eq_iff_iff]
    exact ⟨fun hL => sameName_trans hL h, fun hL => sameName_trans hL (sameName_symm h)⟩
  simp only [answers, fits83_congr h, to83_congr h, hlong]

theorem dirFind_congr (h : sameName a b = true) : dirFind d a = dirFind d b := by
  cases hdots : isDots a with
  | true => rw [isDots_eq hdots h]
  | false =>
    have hb := isDots_congr h
    rw [hdots] at hb
    have hans : answers d a = answers d b := funext fun i => answers_congr h i
    simp only [dirFind, hdots, ← hb, hans, Bool.false_eq_true, if_false]

/-! ## A long name is read from the slots in front -/

theorem take_succ_reverse {slots : List Dirent} (hj : j < slots.length) :
    (slots.take (j + 1)).reverse = slots.getD j Dirent.zero :: (slots.take j).reverse := by
  rw [List.take_succ_eq_append_getElem hj, List.reverse_append, List.reverse_singleton, List.singleton_append,
    List.getD_eq_getElem?_getD, List.getElem?_eq_getElem hj, Option.getD_some]

theorem lfnScan_stop {want : UInt8} (h : e.isLfn = false) (rest : List Dirent) (units : Nat → Nat) :
    lfnScan want (e :: rest) units = none := by
  rw [lfnScan, h]
  rfl

theorem lfnScan_alike (hj : j ≤ s.length) (hj' : j ≤ s'.length)
    (h : ∀ k < j, s.getD k Dirent.zero = s'.getD k Dirent.zero ∨
      ∃ t, k ≤ t ∧ t < j ∧ (s.getD t Dirent.zero).isLfn = false ∧ (s'.getD t Dirent.zero).isLfn = false)
    (want : UInt8) (units : Nat → Nat) :
    lfnScan want (s.take j).reverse units = lfnScan want (s'.take j).reverse units := by
  induction j generalizing units with
  | zero => rfl
  | succ j ih =>
    rw [take_succ_reverse (by omega), take_succ_reverse (by omega)]
    by_cases hstop : (s.getD j Dirent.zero).isLfn = false ∧ (s'.getD j Dirent.zero).isLfn = false
    · rw [lfnScan_stop hstop.1, lfnScan_stop hstop.2]
    · have hbelow : ∀ k < j, s.getD k Dirent.zero = s'.getD k Dirent.zero ∨
          ∃ t, k ≤ t ∧ t < j ∧ (s.getD t Dirent.zero).isLfn = false ∧ (s'.getD t Dirent.zero).isLfn = false := by
        intro k hk
        rcases h k (by omega) with heq | ⟨t, hkt, ht, hlfn, hlfn'⟩
        · exact .inl heq
        · rcases Nat.lt_succ_iff_lt_or_eq.mp ht with ht | rfl
          · exact .inr ⟨t, hkt, ht, hlfn, hlfn'⟩
          · exact absurd ⟨hlfn, hlfn'⟩ hstop
      have htop : s.getD j Dirent.zero = s'.getD j Dirent.zero := by
        rcases h j (by omega) with heq | ⟨t, hjt, ht, hlfn, hlfn'⟩
        · exact heq
        · rw [show t = j by omega] at hlfn hlfn'
          exact absurd ⟨hlfn, hlfn'⟩ hstop
      have hrest : ∀ units, lfnScan want (s.take j).reverse units = lfnScan want (s'.take j).reverse units :=
        fun units => ih (by omega) (by omega) hbelow units
      simp only [lfnScan, htop, hrest]

theorem longNameOf_alike (hj : j ≤ s.length) (hj' : j ≤ s'.length)
    (h : ∀ k < j, s.getD k Dirent.zero = s'.getD k Dirent.zero ∨
      ∃ t, k ≤ t ∧ t < j ∧ (s.getD t Dirent.zero).isLfn = false ∧ (s'.getD t Dirent.zero).isLfn = false)
    {e' : Dirent} (he : e.name = e'.name) : longNameOf s j e = longNameOf s' j e' := by
  rw [longNameOf, longNameOf, he, lfnScan_alike hj hj' h]

/-! ## Directories to write in -/

/-- What a directory is by the format: nothing after its end, only `.` and `..` with a dot in front, an entry
whose long name is a short one filed under it, and no long name with a part that is deleted. -/
structure Tidy (d : Dir) : Prop where
  closed : Closed d.slots
  dots : ∀ i < d.ending, entryIsReal (d.entry i) = true → (d.entry i).first = DOT → (d.entry i).isDir = true
  filed : ∀ i < d.ending, entryIsReal (d.entry i) = true → ∀ L, longNameOf d.slots i (d.entry i) = some L →
    fits83 L = true → needsLong L = false → (d.entry i).name = to83 L
  whole : ∀ i < d.ending, entryIsReal (d.entry i) = true → ∀ k < i, (d.entry k).usable = true →
    longNameOf (d.slots.set k Dirent.zero) i (d.entry i) = longNameOf d.slots i (d.entry i)

/-- A name to write under. The long way: every numbered alias is read back, and no character is filler. The
short way: it comes back from eleven bytes, and no long name is left over in front of the slot it gets. -/
def Nameable (d : Dir) (name : Bytes) : Prop :=
  isDots name = false ∧
    if needsLong name then
      Readable (aliasParts name) d.shorts ∧ ∀ us, utf8ToUnits name FAT_NAME_MAX = some us → 0xFFFF ∉ us
    else
      fits83 name = true ∧
        ∀ e : Dirent, e.name = to83 name → longNameOf d.slots (d.slots.findIdx Dirent.usable) e = none

/-- An entry put in at `slot`, its long name in the slots from `start` on. -/
structure Added (d d' : Dir) (name : Bytes) (start slot : Nat) : Prop where
  root : d'.root = d.root
  le : start ≤ slot
  lt : slot < d'.slots.length
  length : d.slots.length ≤ d'.slots.length
  parts : ∀ j, start ≤ j → j < slot → (d'.entry j).isLfn = true ∧ (d'.entry j).first ≠ ENT_FREE ∧
    (d'.entry j).first ≠ DOT
  same : ∀ j, j < start ∨ slot < j → d'.entry j = d.entry j
  usable : ∀ j, start ≤ j → j ≤ slot → (d.entry j).usable = true
  before : ∀ j < start, (d.entry j).first ≠ ENT_FREE
  real : entryIsReal (d'.entry slot) = true
  dot : (d'.entry slot).first ≠ DOT
  fresh : (d'.entry slot).name ∉ d.shorts
  long : needsLong name = true → longNameOf d'.slots slot (d'.entry slot) = some name ∧
    ∀ c ∈ (d'.entry slot).name, c ≠ DOT
  short : needsLong name = false → longNameOf d'.slots slot (d'.entry slot) = none ∧
    fits83 name = true ∧ (d'.entry slot).name = to83 name

section added
variable {d d' : Dir} {name m : Bytes} {start slot i j t : Nat}

theorem real_not_free (h : entryIsReal e = true) : e.first ≠ ENT_FREE := by
  intro hfree
  rw [not_real_free hfree] at h
  cases h

theorem entry_lt (h : (d.entry j).first ≠ ENT_FREE) : j < d.slots.length := by
  by_contra hge
  refine h ?_
  rw [Dir.entry, List.getD_eq_getElem?_getD, List.getElem?_eq_none (by omega)]
  rfl

section
variable (h : Added d d' name start slot)
include h

theorem Added.ending (hj : j ≤ slot ∨ j < d.ending) : j < d'.ending := by
  have hfree : ∀ k, (k ≤ slot ∨ k < d.ending) → (d'.entry k).first ≠ ENT_FREE := by
    intro k hk
    by_cases hlow : k < start
    · rw [h.same k (.inl hlow)]
      exact h.before k hlow
    · by_cases hin : k < slot
      · exact (h.parts k (by omega) hin).2.1
      · by_cases hat : k = slot
        · rw [hat]
          exact real_not_free h.real
        · rw [h.same k (.inr (by omega))]
          exact before_ending (by omega)
  refine lt_ending ?_ fun k hk => hfree k (by omega)
  have hlt := h.lt
  have hlen := h.length
  have hle := ending_le d
  omega

theorem Added.outside (hreal : entryIsReal (d.entry i) = true) : i < start ∨ slot < i := by
  by_contra hin
  have hdead := not_real_usable (h.usable i (by omega) (by omega))
  rw [hreal] at hdead
  cases hdead

theorem Added.longName (hd : Tidy d) (hi : i < d.ending)
    (hreal : entryIsReal (d.entry i) = true) :
    longNameOf d'.slots i (d.entry i) = longNameOf d.slots i (d.entry i) := by
  have hle := ending_le d
  have hlen := h.length
  rcases h.outside hreal with hlow | hhigh
  · refine (longNameOf_alike (by omega) (by omega) (fun k hk => .inl ?_) rfl).symm
    exact (h.same k (.inl (by omega))).symm
  · have hslot : (d.entry slot).usable = true := h.usable slot h.le le_rfl
    rw [← hd.whole i hi hreal slot hhigh hslot]
    refine (longNameOf_alike (by rw [List.length_set]; omega) (by omega) (fun k hk => ?_) rfl).symm
    have hzero : ((d.slots.set slot Dirent.zero).getD slot Dirent.zero).isLfn = false := by
      rw [getD_set_self (by omega)]
      rfl
    by_cases hin : start ≤ k ∧ k ≤ slot
    · exact .inr ⟨slot, hin.2, hhigh, hzero, not_lfn_real h.real⟩
    · have hle := h.le
      left
      rw [getD_set_other (by omega)]
      exact (h.same k (by omega)).symm

theorem Added.answers_old (hd : Tidy d) (hi : i < d.ending) (hout : i < start ∨ slot < i)
    (m : Bytes) : answers d' m i = answers d m i := by
  unfold answers
  rw [h.same i hout]
  cases hreal : entryIsReal (d.entry i) with
  | false => rw [Bool.false_and, Bool.false_and]
  | true => rw [h.longName hd hi hreal]

theorem Added.answers_part (hge : start ≤ i) (hlt : i < slot) (m : Bytes) :
    answers d' m i = false := by
  unfold answers
  rw [not_real_lfn (h.parts i hge hlt).1, Bool.false_and]

end

theorem needsLongFrom_plain {base ext : Nat} {s : Bytes} (hlow : ∀ c ∈ s, c < 0x80) (hdot : ∀ c ∈ s, c ≠ DOT)
    (hspace : ∀ c ∈ s, c ≠ SPACE) (dot : Bool) (rest : Bytes) :
    needsLongFrom base ext dot (s ++ rest) =
      if dot then needsLongFrom base (ext + s.length) dot rest else needsLongFrom (base + s.length) ext dot rest := by
  induction s generalizing base ext with
  | nil => cases dot <;> rfl
  | cons c s ih =>
    have hc := UInt8.not_le.mpr (hlow c List.mem_cons_self)
    have hrest := fun base ext => @ih base ext (fun x hx => hlow x (List.mem_cons_of_mem _ hx))
      (fun x hx => hdot x (List.mem_cons_of_mem _ hx)) fun x hx => hspace x (List.mem_cons_of_mem _ hx)
    rw [List.cons_append, needsLongFrom, if_neg hc, if_neg (hdot c List.mem_cons_self),
      if_neg (hspace c List.mem_cons_self), hrest, hrest, List.length_cons]
    cases dot with
    | false =>
      simp only [Bool.false_eq_true, if_false]
      rw [show base + 1 + s.length = base + (s.length + 1) by omega]
    | true =>
      simp only [if_true]
      rw [show ext + 1 + s.length = ext + (s.length + 1) by omega]

theorem downcase_ne {c x : UInt8} (hx : ∀ u, upcase u = x ↔ u = x) (h : c ≠ x) : downcase c ≠ x := by
  intro heq
  have hup := (hx (downcase c)).mpr heq
  rw [upcase_downcase] at hup
  exact h ((hx c).mp hup)

theorem needsLong_of_short (hfits : fits83 m = true) (hdot : ∀ c ∈ to83 m, c ≠ DOT) : needsLong m = false := by
  have hsame := fits83_same hfits
  have hlow : ∀ c ∈ from83 (to83 m), c < 0x80 := by
    have hall := (Bool.and_eq_true_iff.mp hfits).1
    rw [← all_low_congr hsame] at hall
    exact fun c hc => of_decide_eq_true (List.all_eq_true.mp hall c hc)
  have hpart : ∀ s : Bytes, (∀ c ∈ s, c ∈ to83 m) → ∀ c ∈ (s.takeWhile (· ≠ SPACE)).map downcase,
      c ≠ DOT ∧ c ≠ SPACE := by
    intro s hs c hc
    obtain ⟨x, hx, rfl⟩ := List.mem_map.mp hc
    have hspace : x ≠ SPACE := by simpa using List.mem_takeWhile_imp hx
    have hmem := hs x ((List.takeWhile_sublist _).subset hx)
    exact ⟨downcase_ne upcase_eq_dot (hdot x hmem), downcase_ne upcase_eq_space hspace⟩
  have hbase := hpart ((to83 m).take 8) fun c hc => List.mem_of_mem_take hc
  have hext := hpart (((to83 m).drop 8).take 3) fun c hc => List.mem_of_mem_drop (List.mem_of_mem_take hc)
  have hbaselen : (((((to83 m).take 8)).takeWhile (· ≠ SPACE)).map downcase).length ≤ 8 := by
    have hle := (List.takeWhile_sublist (l := (to83 m).take 8) (· ≠ SPACE)).length_le
    rw [List.length_take] at hle
    rw [List.length_map]
    omega
  have hextlen : (((((to83 m).drop 8).take 3).takeWhile (· ≠ SPACE)).map downcase).length ≤ 3 := by
    have hle := (List.takeWhile_sublist (l := ((to83 m).drop 8).take 3) (· ≠ SPACE)).length_le
    rw [List.length_take] at hle
    rw [List.length_map]
    omega
  rw [← needsLong_congr hsame]
  unfold from83 at hlow ⊢
  generalize (((to83 m).take 8).takeWhile (· ≠ SPACE)).map downcase = base at hbase hbaselen hlow ⊢
  generalize ((((to83 m).drop 8).take 3).takeWhile (· ≠ SPACE)).map downcase = ext at hext hextlen hlow ⊢
  rw [needsLong, needsLongFrom_plain (fun c hc => hlow c (List.mem_append_left _ hc)) (fun c hc => (hbase c hc).1)
    fun c hc => (hbase c hc).2]
  split at hlow
  · rename_i hnone
    rw [if_pos hnone]
    simp only [Bool.false_eq_true, if_false, needsLongFrom]
    simp only [Bool.or_eq_false_iff, decide_eq_false_iff_not]
    omega
  · rename_i hsome
    have hlowext : ∀ c ∈ ext, c < 0x80 := fun c hc => hlow c (List.mem_append_right _ (List.mem_cons_of_mem _ hc))
    have hrest := @needsLongFrom_plain (0 + base.length) 0 ext hlowext (fun c hc => (hext c hc).1)
      (fun c hc => (hext c hc).2) true []
    rw [List.append_nil] at hrest
    have hdot : ¬ DOT ≥ (0x80 : UInt8) := by decide
    rw [if_neg hsome, if_neg Bool.false_ne_true, needsLongFrom, if_neg hdot, if_pos rfl, if_neg Bool.false_ne_true, hrest, if_pos rfl,
      needsLongFrom]
    simp only [Bool.or_eq_false_iff, decide_eq_false_iff_not]
    omega

section
variable (h : Added d d' name start slot)
include h

theorem Added.not_taken (hd : Tidy d) (hdots : isDots m = false)
    (hnone : dirFind d name = none) (hfind : dirFind d m = some t) : answers d' m slot = false := by
  rw [Bool.eq_false_iff]
  intro hans
  have hname : sameName m name = false := by
    rw [Bool.eq_false_iff]
    intro hsame
    rw [dirFind_congr hsame, hnone] at hfind
    cases hfind
  unfold answers at hans
  obtain ⟨-, hans⟩ := Bool.and_eq_true_iff.mp hans
  rcases Bool.or_eq_true_iff.mp hans with hshort | hlong
  · obtain ⟨hfits, hshort⟩ := Bool.and_eq_true_iff.mp hshort
    have hshort : (d'.entry slot).name = to83 m := of_decide_eq_true hshort
    have hfresh := h.fresh
    rw [hshort] at hfresh
    unfold dirFind at hfind
    rw [hdots, if_neg Bool.false_ne_true] at hfind
    have ht := List.mem_range.mp (List.mem_of_find?_eq_some hfind)
    have hold := List.find?_some hfind
    unfold answers at hold
    obtain ⟨hreal, hold⟩ := Bool.and_eq_true_iff.mp hold
    have hmem : (d.entry t).name ∈ d.shorts := by
      rw [shorts_eq hd.closed]
      exact mem_live.mpr ⟨t, by have hle := ending_le d; omega, hreal, rfl⟩
    have hnot : (d.entry t).name ≠ to83 m := fun heq => hfresh (heq ▸ hmem)
    rw [decide_eq_false hnot, Bool.and_false, Bool.false_or] at hold
    cases hL : longNameOf d.slots t (d.entry t) with
    | none =>
      rw [hL] at hold
      cases hold
    | some L =>
      rw [hL] at hold
      dsimp only at hold
      cases hneeds : needsLong name with
      | true =>
        have hplain : needsLong m = false := by
          refine needsLong_of_short hfits ?_
          rw [← hshort]
          exact (h.long hneeds).2
        have hfiled := hd.filed t ht hreal L hL (by rw [fits83_congr hold]; exact hfits)
          (by rw [needsLong_congr hold]; exact hplain)
        exact hnot (hfiled.trans (to83_congr hold))
      | false =>
        obtain ⟨-, hfitsn, hpack⟩ := h.short hneeds
        have hsame := fits83_inj hfits hfitsn (hshort.symm.trans hpack)
        rw [hsame] at hname
        cases hname
  · cases hneeds : needsLong name with
    | true =>
      rw [(h.long hneeds).1] at hlong
      rw [sameName_symm hlong] at hname
      cases hname
    | false =>
      rw [(h.short hneeds).1] at hlong
      cases hlong

omit h in
theorem find_range (ht : t < n) (hp : p t = true) (hbefore : ∀ j < t, p j = false) :
    (List.range n).find? p = some t := by
  rw [List.find?_range_eq_some]
  exact ⟨hp, List.mem_range.mpr ht, fun j hj => by rw [hbefore j hj]; rfl⟩

omit h in
theorem of_find_range (h : (List.range n).find? p = some t) :
    t < n ∧ p t = true ∧ ∀ j < t, p j = false := by
  obtain ⟨hp, hmem, hbefore⟩ := List.find?_range_eq_some.mp h
  exact ⟨List.mem_range.mp hmem, hp, fun j hj => by simpa using hbefore j hj⟩

theorem Added.found (hd : Tidy d) (hdots : isDots name = false)
    (hnone : dirFind d name = none) : dirFind d' name = some slot := by
  unfold dirFind at hnone ⊢
  rw [hdots, if_neg Bool.false_ne_true] at hnone ⊢
  refine find_range (h.ending (.inl le_rfl)) ?_ fun j hj => ?_
  · unfold answers
    rw [h.real, Bool.true_and]
    cases hneeds : needsLong name with
    | true =>
      rw [(h.long hneeds).1]
      dsimp only
      rw [sameName_refl, Bool.or_true]
    | false =>
      obtain ⟨-, hfits, hpack⟩ := h.short hneeds
      rw [hfits, decide_eq_true hpack]
      rfl
  · by_cases hlow : j < start
    · have hend : j < d.ending := lt_ending (entry_lt (h.before j hlow)) fun k hk => h.before k (by omega)
      rw [h.answers_old hd hend (.inl hlow)]
      have hnot := List.find?_eq_none.mp hnone j (List.mem_range.mpr hend)
      simpa using hnot
    · exact h.answers_part (by omega) hj name

theorem Added.kept (hd : Tidy d) (hnone : dirFind d name = none)
    (hfind : dirFind d m = some t) : dirFind d' m = some t := by
  have hfound := dirFind_some hfind
  cases hdots : isDots m with
  | true =>
    unfold dirFind at hfind ⊢
    rw [hdots, if_pos rfl] at hfind ⊢
    rw [h.root]
    split at hfind
    · cases hfind
    · rename_i hroot
      obtain ⟨ht, hname, hbefore⟩ := of_find_range hfind
      have hname : (d.entry t).name = blanks 11 m := of_decide_eq_true hname
      have hdotted : byteAt (blanks 11 m) 0 = DOT := by
        simp only [isDots, Bool.or_eq_true, decide_eq_true_eq] at hdots
        rcases hdots with rfl | rfl <;> rfl
      have hkept : ∀ j, (d'.entry j).first = DOT → d'.entry j = d.entry j := by
        intro j hj
        by_cases hout : j < start ∨ slot < j
        · exact h.same j hout
        · by_cases hat : j = slot
          · rw [hat] at hj
            exact absurd hj h.dot
          · exact absurd hj (h.parts j (by omega) (by omega)).2.2
      have hout : t < start ∨ slot < t := by
        by_contra hin
        have huse := h.usable t (by omega) (by omega)
        have hfirst : (d.entry t).first = DOT := by
          rw [Dirent.first, hname]
          exact hdotted
        rw [Dirent.usable, hfirst] at huse
        exact absurd huse (by decide)
      have hlen := h.length
      rw [if_neg hroot]
      refine find_range (by omega) ?_ fun j hj => ?_
      · rw [h.same t hout]
        exact decide_eq_true hname
      · rw [decide_eq_false_iff_not]
        intro hj'
        have hfirst : (d'.entry j).first = DOT := by
          rw [Dirent.first, hj']
          exact hdotted
        rw [hkept j hfirst] at hj'
        exact absurd hj' (of_decide_eq_false (hbefore j hj))
  | false =>
    have hnot := h.not_taken hd hdots hnone hfind
    have hreal := hfound.2.2.1 hdots
    unfold dirFind at hfind ⊢
    rw [hdots, if_neg Bool.false_ne_true] at hfind ⊢
    obtain ⟨ht, hans, hbefore⟩ := of_find_range hfind
    refine find_range (h.ending (.inr ht)) ?_ fun j hj => ?_
    · rw [h.answers_old hd ht (h.outside hreal), hans]
    · by_cases hout : j < start ∨ slot < j
      · rw [h.answers_old hd (by omega) hout]
        exact hbefore j hj
      · by_cases hat : j = slot
        · rw [hat]
          exact hnot
        · exact h.answers_part (by omega) (by omega) m

theorem Added.listed : slot ∈ listed d' := by
  refine List.mem_filter.mpr ⟨List.mem_range.mpr (h.ending (.inl le_rfl)), ?_⟩
  rw [h.real, decide_eq_true h.dot]
  rfl

theorem Added.shown :
    (needsLong name = true → shownName d' slot = name) ∧ sameName (shownName d' slot) name = true := by
  unfold shownName
  cases hneeds : needsLong name with
  | true =>
    rw [(h.long hneeds).1]
    exact ⟨fun _ => rfl, sameName_refl name⟩
  | false =>
    obtain ⟨hlong, hfits, hpack⟩ := h.short hneeds
    rw [hlong, hpack]
    exact ⟨nofun, fits83_same hfits⟩

theorem Added.only (hd : Tidy d) (hnone : dirFind d m = none)
    (hfind : dirFind d' m = some t) : t = slot := by
  by_contra hne
  have hle := h.le
  obtain ⟨-, hfirst, hreal, -⟩ := dirFind_some hfind
  cases hdots : isDots m with
  | true =>
    unfold dirFind at hnone hfind
    rw [hdots, if_pos rfl] at hnone hfind
    rw [h.root] at hfind
    split at hfind
    · cases hfind
    · rename_i hroot
      obtain ⟨ht, hname, -⟩ := of_find_range hfind
      have hname : (d'.entry t).name = blanks 11 m := of_decide_eq_true hname
      have hdot : (d'.entry t).first = DOT := by
        rw [Dirent.first, hname]
        simp only [isDots, Bool.or_eq_true, decide_eq_true_eq] at hdots
        rcases hdots with rfl | rfl <;> rfl
      have hout : t < start ∨ slot < t := by
        by_contra hin
        exact (h.parts t (by omega) (by omega)).2.2 hdot
      rw [h.same t hout] at hname hfirst
      have hlt := entry_lt hfirst
      rw [if_neg hroot] at hnone
      have hnot := List.find?_eq_none.mp hnone t (List.mem_range.mpr (by omega))
      exact hnot (decide_eq_true hname)
  | false =>
    have hreal := hreal hdots
    unfold dirFind at hnone hfind
    rw [hdots, if_neg Bool.false_ne_true] at hnone hfind
    obtain ⟨-, hans, -⟩ := of_find_range hfind
    have hout : t < start ∨ slot < t := by
      by_contra hin
      rw [h.answers_part (by omega) (by omega)] at hans
      cases hans
    rw [h.same t hout] at hfirst
    have hlt := entry_lt hfirst
    have hend : t < d.ending := by
      refine lt_ending hlt fun j hj => ?_
      rcases Nat.lt_or_eq_of_le hj with hj | rfl
      · exact hd.closed.before hlt hfirst j hj
      · exact hfirst
    rw [h.answers_old hd hend hout] at hans
    exact List.find?_eq_none.mp hnone t (List.mem_range.mpr hend) hans

theorem Added.apart (hd : Tidy d) (hnone : dirFind d name = none) {m' : Bytes}
    (hne : dirFind d m ≠ dirFind d m') : dirFind d' m ≠ dirFind d' m' := by
  have hone : ∀ {a b : Bytes} {t : Nat}, dirFind d a = some t → dirFind d b = none → dirFind d' a ≠ dirFind d' b := by
    intro a b t ha hb heq
    rw [h.kept hd hnone ha] at heq
    have hat := h.only hd hb heq.symm
    obtain ⟨-, hfirst, -, hreal⟩ := dirFind_some ha
    have huse := h.usable slot h.le le_rfl
    rw [← hat] at huse
    rcases hreal with hreal | hdot
    · rw [not_real_usable huse] at hreal
      cases hreal
    · rw [Dirent.usable, hdot] at huse
      exact absurd huse (by decide)
  cases hm : dirFind d m with
  | some t =>
    cases hm' : dirFind d m' with
    | some t' =>
      rw [h.kept hd hnone hm, h.kept hd hnone hm', ← hm, ← hm']
      exact hne
    | none => exact hone hm hm'
  | none =>
    cases hm' : dirFind d m' with
    | some t' => exact (hone hm' hm).symm
    | none => exact absurd (hm.trans hm'.symm) hne

end

end added

/-! ## Where a name is put -/

section put
variable {d : Dir} {leaf : Leaf} {e : Dirent}

theorem writeRun_in (slots es : List Dirent) (hlen : i + es.length ≤ slots.length) (hi : i ≤ j)
    (hj : j < i + es.length) : (writeRun slots i es).getD j Dirent.zero ∈ es := by
  induction es generalizing slots i with
  | nil =>
    rw [List.length_nil] at hj
    omega
  | cons e es ih =>
    rw [List.length_cons] at hlen hj
    rw [writeRun]
    by_cases hat : j = i
    · rw [hat, writeRun_other _ _ (.inl (by omega)), getD_set_self (by omega)]
      exact List.mem_cons_self
    · exact List.mem_cons_of_mem _ (ih _ (by rw [List.length_set]; omega) (by omega) (by omega))

theorem writeRun_eq (slots es : List Dirent) (hlen : i + es.length ≤ slots.length) :
    writeRun slots i es = slots.take i ++ es ++ slots.drop (i + es.length) := by
  induction es generalizing slots i with
  | nil => rw [writeRun, List.append_nil, List.length_nil, Nat.add_zero, List.take_append_drop]
  | cons e es ih =>
    rw [List.length_cons] at hlen
    have htake : (slots.set i e).take (i + 1) = slots.take i ++ [e] := by
      rw [List.set_eq_take_append_cons_drop, if_pos (by omega), ← List.singleton_append, ← List.append_assoc,
        List.take_append_of_le_length (by simp; omega), List.take_of_length_le (by simp)]
    have hdrop : (slots.set i e).drop (i + 1 + es.length) = slots.drop (i + 1 + es.length) :=
      List.drop_set_of_lt (by omega)
    rw [writeRun, ih _ (by rw [List.length_set]; omega), htake, hdrop, List.length_cons, List.append_assoc,
      List.append_assoc, List.append_assoc, List.singleton_append, List.cons_append,
      show i + (es.length + 1) = i + 1 + es.length by omega]

theorem to83_dot (name : Bytes) : byteAt (to83 name) 0 ≠ DOT := by
  unfold to83
  cases hstem : stem name with
  | nil =>
    have hspace : SPACE ≠ DOT := by decide
    exact hspace
  | cons c s =>
    obtain ⟨-, hdot⟩ := stem_mem (show c ∈ stem name by rw [hstem]; exact List.mem_cons_self)
    have hup : upcase c ≠ DOT := fun heq => hdot ((upcase_eq_dot c).mp heq)
    exact hup

theorem lfnSlot_dot {us : List Nat} (hlen : us.length ≤ 63) (sum : UInt8) (hi : i < lfnSlots us) :
    (lfnSlot us sum i).first ≠ DOT := by
  intro hdot
  have hseq := lfnSlot_seq hlen sum hi
  obtain ⟨hsix, -, -⟩ := lfnSlots_bounds hlen
  have hmark : (DOT &&& 0x1F).toNat = 14 := by decide
  rw [Dirent.seq, hdot, hmark] at hseq
  omega

theorem grown_entry (hg : Grown d g) (j : Nat) : g.getD j Dirent.zero = d.entry j := by
  obtain ⟨n, rfl⟩ := hg
  exact getD_grown n j

theorem grown_length (hg : Grown d g) : d.slots.length ≤ g.length := by
  obtain ⟨n, rfl⟩ := hg
  rw [List.length_append]
  omega

theorem findIdx_usable (huse : (d.entry slot).usable = true) (hbefore : ∀ j < slot, (d.entry j).usable = false) :
    d.slots.findIdx Dirent.usable = slot ∧ slot ≤ d.slots.length := by
  have hle : slot ≤ d.slots.length := by
    by_contra hgt
    have hout := hbefore d.slots.length (by omega)
    rw [Dir.entry, List.getD_eq_getElem?_getD, List.getElem?_eq_none le_rfl] at hout
    cases hout
  refine ⟨?_, hle⟩
  have hall : ∀ j (hj : j < d.slots.length), j < slot → d.slots[j].usable = false := by
    intro j hj hjs
    have hnot := hbefore j hjs
    rwa [Dir.entry, List.getD_eq_getElem?_getD, List.getElem?_eq_getElem hj] at hnot
  rcases Nat.lt_or_eq_of_le hle with hlt | heq
  · rw [List.findIdx_eq hlt]
    rw [Dir.entry, List.getD_eq_getElem?_getD, List.getElem?_eq_getElem hlt] at huse
    exact ⟨huse, fun j hj => hall j (by omega) hj⟩
  · rw [heq, List.findIdx_eq_length]
    intro x hx
    obtain ⟨j, hj, rfl⟩ := List.getElem_of_mem hx
    exact hall j hj (by omega)

theorem put_added (hd : Tidy d) (hname : Nameable d leaf.name) (hnone : dirFind d leaf.name = none)
    (hput : Put d leaf.name (d', some (slot, e.name))) (hreal : entryIsReal e = true) :
    ∃ start, Added d ⟨d.root, d'.slots.set slot e⟩ leaf.name start slot := by
  generalize hshort' : e.name = short at hput
  cases hput with
  | @short g _ hg hshort hslot =>
    obtain ⟨hlt, huse, hbefore⟩ := freeSlot_some hslot
    have hlen := grown_length hg
    simp only [grown_entry hg] at huse hbefore
    rw [Nameable, hshort, if_neg Bool.false_ne_true] at hname
    obtain ⟨-, hfits, hclear⟩ := hname
    obtain ⟨hfind, hle⟩ := findIdx_usable huse hbefore
    have hself : (Dir.mk d.root (g.set slot e)).entry slot = e := getD_set_self hlt
    refine ⟨slot, rfl, le_rfl, by rwa [List.length_set], by rwa [List.length_set], fun j hge hj => by omega,
      fun j hj => ?_, fun j hge hj => ?_, fun j hj => free_of_not_usable (hbefore j hj), by rwa [hself], ?_, ?_, ?_, ?_⟩
    · rw [Dir.entry, getD_set_other (by omega), grown_entry hg]
    · rwa [show j = slot by omega]
    · rw [hself, Dirent.first, hshort']
      exact to83_dot leaf.name
    · rw [hself, hshort']
      exact dirFind_none hfits hshort hnone
    · intro hneeds
      rw [hshort] at hneeds
      cases hneeds
    · intro _
      rw [hself]
      refine ⟨?_, hfits, hshort'⟩
      rw [← hclear e hshort', hfind]
      refine longNameOf_alike (by rw [List.length_set]; exact hlt.le) hle (fun k hk => .inl ?_) rfl
      rw [getD_set_other (by omega), grown_entry hg]
      rfl
  | @long g us start _ hg hlong hlen hus hrun halias =>
    have hclosed : Closed g := by
      obtain ⟨n, rfl⟩ := hg
      exact hd.closed.grow n
    obtain ⟨hroom, husable, hbefore⟩ := freeRun_some hclosed (Nat.succ_pos _) hrun
    rw [Nameable, hlong, if_pos rfl] at hname
    obtain ⟨-, hread, hfill⟩ := hname
    have hname := needsLong_long hlong leaf.plain hlen hus (hfill us hus)
    obtain ⟨-, hunits, -, -⟩ := hname.facts
    have hglen := grown_length hg
    simp only [grown_entry hg] at husable hbefore
    have hbytes := aliasChoose_bytes leaf.plain halias
    generalize hparts : (List.range (lfnSlots us)).map (lfnSlot us (shortChecksum short)) = parts
    have hsize : parts.length = lfnSlots us := by rw [← hparts, List.length_map, List.length_range]
    have hrunlen := writeRun_length g parts start
    have hself : (Dir.mk d.root ((writeRun g start parts).set (start + lfnSlots us) e)).entry (start + lfnSlots us) = e :=
      getD_set_self (by rw [hrunlen]; omega)
    refine ⟨start, rfl, by omega, by rw [List.length_set, hrunlen]; omega, by rw [List.length_set, hrunlen]; exact hglen,
      fun j hge hj => ?_, fun j hj => ?_, fun j hge hj => husable j hge (by omega), hbefore, by rwa [hself], ?_, ?_, ?_, ?_⟩
    · have hin := writeRun_in g parts (i := start) (j := j) (by omega) hge (by omega)
      rw [Dir.entry, getD_set_other (by omega)]
      generalize (writeRun g start parts).getD j Dirent.zero = x at hin
      rw [← hparts] at hin
      have hlfn := lfnParts_dead x hin
      obtain ⟨k, hk, rfl⟩ := List.mem_map.mp hin
      have hk := List.mem_range.mp hk
      exact ⟨hlfn, (lfnSlot_kept hunits _ hk).1, lfnSlot_dot hunits _ hk⟩
    · rw [Dir.entry, getD_set_other (by omega), writeRun_other _ _ (by omega), grown_entry hg]
    · rw [hself, Dirent.first, hshort']
      exact hbytes.1.1
    · rw [hself, hshort']
      have hshorts : (⟨d.root, g⟩ : Dir).shorts = d.shorts := by
        rw [@shorts_eq ⟨d.root, g⟩ hclosed, shorts_eq hd.closed]
        exact live_grown hg
      rw [← hshorts]
      exact makeAlias_fresh (by rw [hshorts]; exact hread) halias
    · intro _
      rw [hself, hshort']
      refine ⟨?_, fun c hc => (hbytes.2 c hc).1⟩
      have hwritten := longNameOf_written hname (g.take start) (g.drop (start + parts.length)) e
      rw [hshort', hparts, ← writeRun_eq g parts (by omega), List.length_take, Nat.min_eq_left (by omega)] at hwritten
      rw [← hwritten]
      refine longNameOf_alike (by rw [List.length_set, hrunlen]; omega) (by rw [hrunlen]; omega) (fun k hk => .inl ?_) rfl
      rw [getD_set_other (by omega)]
    · intro hneeds
      rw [hlong] at hneeds
      cases hneeds

end put

/-! ## An entry written again -/

section rewrite
variable {d : Dir} {t : Nat} {e : Dirent}

section
variable (ht : t < d.slots.length)
include ht

theorem rewrite_entry (j : Nat) :
    (Dir.mk d.root (d.slots.set t e)).entry j = if j = t then e else d.entry j := by
  by_cases hj : j = t
  · rw [if_pos hj, hj]
    exact getD_set_self ht
  · rw [if_neg hj]
    exact getD_set_other (Ne.symm hj)

theorem rewrite_ending (hname : e.name = (d.entry t).name) :
    (Dir.mk d.root (d.slots.set t e)).ending = d.ending := by
  have hfirst : ∀ j, ((Dir.mk d.root (d.slots.set t e)).entry j).first = (d.entry j).first := by
    intro j
    rw [rewrite_entry ht]
    split
    · rename_i hj
      rw [hj, Dirent.first, Dirent.first, hname]
    · rfl
  have hlen : (Dir.mk d.root (d.slots.set t e)).slots.length = d.slots.length := List.length_set
  have hone := ending_le d
  have htwo := ending_le (Dir.mk d.root (d.slots.set t e))
  refine le_antisymm ?_ ?_
  · by_contra hlt
    have hin := @lt_ending d d.ending (by omega) fun j hj => by
      rw [← hfirst]
      exact before_ending (by omega)
    omega
  · by_contra hlt
    have hin := @lt_ending (Dir.mk d.root (d.slots.set t e)) (Dir.mk d.root (d.slots.set t e)).ending (by omega)
      fun j hj => by
        rw [hfirst]
        exact before_ending (by omega)
    omega

theorem rewrite_longName (hreal : entryIsReal (d.entry t) = true)
    (hattr : e.attr = (d.entry t).attr) (hi : i ≤ d.slots.length) {x y : Dirent} (hxy : x.name = y.name) :
    longNameOf (d.slots.set t e) i x = longNameOf d.slots i y := by
  refine longNameOf_alike (by rwa [List.length_set]) hi (fun k hk => ?_) hxy
  by_cases hkt : k = t
  · refine .inr ⟨t, hkt.le, by omega, ?_, not_lfn_real hreal⟩
    have hlfn := not_lfn_real hreal
    rw [getD_set_self ht, Dirent.isLfn, hattr]
    exact hlfn
  · exact .inl (getD_set_other (Ne.symm hkt))

theorem rewrite_answers (hreal : entryIsReal (d.entry t) = true)
    (hname : e.name = (d.entry t).name) (hattr : e.attr = (d.entry t).attr) (m : Bytes) :
    answers (Dir.mk d.root (d.slots.set t e)) m = answers d m := by
  funext i
  unfold answers
  rw [rewrite_entry ht]
  by_cases hi : i = t
  · subst hi
    have hsame : entryIsReal e = entryIsReal (d.entry i) := by
      rw [entryIsReal, entryIsReal, Dirent.first, Dirent.first, hname, hattr]
    rw [if_pos rfl, hsame, hname, rewrite_longName ht hreal hattr ht.le hname]
  · rw [if_neg hi]
    cases hlive : entryIsReal (d.entry i) with
    | false => rw [Bool.false_and, Bool.false_and]
    | true =>
      have hlt := entry_lt (real_not_free hlive)
      rw [rewrite_longName ht hreal hattr hlt.le rfl]

theorem rewrite_find (hreal : entryIsReal (d.entry t) = true)
    (hname : e.name = (d.entry t).name) (hattr : e.attr = (d.entry t).attr) (m : Bytes) :
    dirFind (Dir.mk d.root (d.slots.set t e)) m = dirFind d m := by
  have hnames : ∀ j, ((Dir.mk d.root (d.slots.set t e)).entry j).name = (d.entry j).name := by
    intro j
    rw [rewrite_entry ht]
    split
    · rename_i hj
      rw [hj, hname]
    · rfl
  simp only [dirFind, rewrite_answers ht hreal hname hattr, rewrite_ending ht hname, hnames, List.length_set]

end

end rewrite

/-! ## Both calls -/

theorem put_marks {leaf : Leaf} {short : Bytes} (h : Put d leaf.name (d', some (slot, short))) :
    Marks (byteAt short 0) := by
  cases h with
  | short hg hshort hslot => exact to83_marks leaf.plain (needsLongFrom_low hshort)
  | long hg hlong hlen hus hrun halias => exact aliasByte_marks (aliasChoose_bytes leaf.plain halias).1

theorem real_of_marks (h : Marks (byteAt e.name 0)) (hattr : e.attr = ATTR_ARCHIVE ∨ e.attr = ATTR_DIRECTORY) :
    entryIsReal e = true := by
  have hfirst : e.first ≠ ENT_FREE ∧ e.first ≠ ENT_DELETED := h
  rw [entryIsReal, decide_eq_true hfirst.1, decide_eq_true hfirst.2]
  rcases hattr with hattr | hattr
  · rw [hattr]
    decide
  · rw [hattr]
    decide

/-- What holds of the entry at `i` after a name was written under. -/
structure Written (v v' : Volume) (p : Nat) (leaf : Leaf) (i : Nat) : Prop where
  found : dirFind (v'.dir p) leaf.name = some i
  listed : i ∈ listed (v'.dir p)
  /-- under this name but for the case of its letters, or the name was its short one -/
  shown : sameName (shownName (v'.dir p) i) leaf.name = true ∨
    dirFind (v.dir p) leaf.name = some i ∧ ((v'.dir p).entry i).name = to83 leaf.name
  /-- a new entry that has to be long has exactly this name -/
  exact : dirFind (v.dir p) leaf.name = none → needsLong leaf.name = true → shownName (v'.dir p) i = leaf.name
  again : ∀ env size v'', fatWriteFile v' env p leaf size = (v'', true) →
    dirFind (v''.dir p) leaf.name = some i ∧ ∃ e, e.name = ((v'.dir p).entry i).name ∧
      e.attr = ((v'.dir p).entry i).attr ∧ v''.dirs p = (v'.dirs p).set i e
  once : ∀ env, fatMkdir v' env p leaf = (v', false)
  apart : ∀ m m', dirFind (v.dir p) m ≠ dirFind (v.dir p) m' → dirFind (v'.dir p) m ≠ dirFind (v'.dir p) m'

section calls
variable {v v' : Volume} {env : Env} {p size : Nat} {leaf : Leaf} {i : Nat}

theorem write_found (hfind : dirFind (v.dir p) leaf.name = some i) (h : fatWriteFile v env p leaf size = (v', true)) :
    ((v.dir p).entry i).isDir = false ∧ ∃ e, e.name = ((v.dir p).entry i).name ∧ e.attr = ((v.dir p).entry i).attr ∧
      v' = v.put p ((v.dirs p).set i e) := by
  unfold fatWriteFile at h
  split at h
  · cases h
  · rw [hfind] at h
    dsimp only at h
    split at h
    · cases h
    · rename_i hdir
      cases hchain : env.chain with
      | none =>
        rw [hchain] at h
        cases h
      | some first =>
        rw [hchain] at h
        cases h
        exact ⟨eq_false_of_ne_true hdir, _, by simp, by simp, rfl⟩

theorem put_dir (v : Volume) (p : Nat) (slots : List Dirent) : (v.put p slots).dir p = ⟨(v.dir p).root, slots⟩ := by
  rw [Volume.dir, put_self]
  rfl

theorem write_again (hfind : dirFind (v.dir p) leaf.name = some i) (hdots : isDots leaf.name = false) :
    ∀ env size v', fatWriteFile v env p leaf size = (v', true) →
      dirFind (v'.dir p) leaf.name = some i ∧ ∃ e, e.name = ((v.dir p).entry i).name ∧
        e.attr = ((v.dir p).entry i).attr ∧ v'.dirs p = (v.dirs p).set i e := by
  intro env size v' h
  obtain ⟨hlt, -, hreal, -⟩ := dirFind_some hfind
  obtain ⟨-, e, hname, hattr, rfl⟩ := write_found hfind h
  refine ⟨?_, e, hname, hattr, put_self _ _ _⟩
  rw [put_dir]
  exact (rewrite_find (d := v.dir p) hlt (hreal hdots) hname hattr leaf.name).trans hfind

theorem mkdir_once (hfind : dirFind (v.dir p) leaf.name = some i) (env : Env) : fatMkdir v env p leaf = (v, false) := by
  unfold fatMkdir
  rw [hfind, Option.isSome_some, if_pos rfl, ite_self]

theorem added_written {start : Nat} (hd : Tidy (v.dir p)) (hdots : isDots leaf.name = false)
    (hnone : dirFind (v.dir p) leaf.name = none) (hdir : v'.dir p = d')
    (h : Added (v.dir p) d' leaf.name start slot) : Written v v' p leaf slot := by
  subst hdir
  have hfound := h.found hd hdots hnone
  exact ⟨hfound, h.listed, .inl h.shown.2, fun _ => h.shown.1, write_again hfound hdots, mkdir_once hfound,
    fun _ _ hne => h.apart hd hnone hne⟩

theorem write_written (hd : Tidy (v.dir p)) (hname : Nameable (v.dir p) leaf.name)
    (h : fatWriteFile v env p leaf size = (v', true)) : ∃ i, Written v v' p leaf i := by
  have hdots := hname.1
  cases hfind : dirFind (v.dir p) leaf.name with
  | some t =>
    obtain ⟨hlt, -, hreal, -⟩ := dirFind_some hfind
    have hreal := hreal hdots
    obtain ⟨hdir, e, hename, hattr, rfl⟩ := write_found hfind h
    have hsame := rewrite_find (d := v.dir p) hlt hreal hename hattr
    have hfound := (hsame leaf.name).trans hfind
    have hself : (Dir.mk (v.dir p).root ((v.dirs p).set t e)).entry t = e := getD_set_self hlt
    have hlong := rewrite_longName (d := v.dir p) hlt hreal hattr hlt.le hename
    rw [← put_dir] at hfound hself
    have hsearch := hfind
    unfold dirFind at hsearch
    rw [hdots, if_neg Bool.false_ne_true] at hsearch
    obtain ⟨hend, hans, -⟩ := of_find_range hsearch
    have hdot : e.first ≠ DOT := by
      intro hdot
      rw [Dirent.first, hename] at hdot
      rw [hd.dots t hend hreal hdot] at hdir
      cases hdir
    have hlive : entryIsReal e = true := by
      rw [entryIsReal, Dirent.first, hename, hattr]
      exact hreal
    refine ⟨t, hfound, List.mem_filter.mpr ⟨List.mem_range.mpr ?_, ?_⟩, ?_, ?_, write_again hfound hdots,
      mkdir_once hfound, ?_⟩
    · have hending := rewrite_ending (d := v.dir p) hlt hename
      rw [put_dir]
      exact lt_of_lt_of_eq hend hending.symm
    · rw [hself, hlive, decide_eq_true hdot]
      rfl
    · unfold answers at hans
      obtain ⟨-, hans⟩ := Bool.and_eq_true_iff.mp hans
      rcases Bool.or_eq_true_iff.mp hans with hshort | hreal
      · refine .inr ⟨hfind, ?_⟩
        rw [hself, hename]
        exact of_decide_eq_true (Bool.and_eq_true_iff.mp hshort).2
      · left
        unfold shownName
        rw [hself, put_dir]
        rw [show longNameOf ((v.dirs p).set t e) t e = longNameOf (v.dir p).slots t ((v.dir p).entry t) from hlong]
        cases hL : longNameOf (v.dir p).slots t ((v.dir p).entry t) with
        | none =>
          rw [hL] at hreal
          cases hreal
        | some L =>
          rw [hL] at hreal
          exact hreal
    · intro hnone
      rw [hfind] at hnone
      cases hnone
    · intro m m' hne
      rw [put_dir]
      intro heq
      exact hne ((hsame m).symm.trans (heq.trans (hsame m')))
  | none =>
    unfold fatWriteFile at h
    split at h
    · cases h
    · rw [hfind] at h
      have hput := dirPutName_put (v.room env) (v.dir p) leaf.name
      cases hres : dirPutName (v.room env) (v.dir p) leaf.name with
      | mk d res =>
        rw [hres] at h hput
        cases res with
        | none => cases h
        | some res =>
          obtain ⟨slot, short⟩ := res
          dsimp only at h
          cases hchain : env.chain with
          | none =>
            rw [hchain] at h
            cases h
          | some first =>
            rw [hchain] at h
            dsimp only at h
            generalize he : stamp env.now true (setSize size (setEntCluster v.bits first
              { Dirent.zero with name := short, attr := ATTR_ARCHIVE })) = e at h
            have hename : e.name = short := by rw [← he, stamp_name, setSize_name, setEntCluster_name]
            have hattr : e.attr = ATTR_ARCHIVE := by rw [← he, stamp_attr, setSize_attr, setEntCluster_attr]
            rw [← hename] at hput
            cases h
            obtain ⟨start, hadded⟩ := put_added hd hname hfind hput
              (real_of_marks (put_marks hput) (.inl hattr))
            exact ⟨slot, added_written hd hdots hfind (put_dir _ _ _) hadded⟩

theorem mkdir_written (hd : Tidy (v.dir p)) (hname : Nameable (v.dir p) leaf.name)
    (h : fatMkdir v env p leaf = (v', true)) : ∃ i, Written v v' p leaf i := by
  unfold fatMkdir at h
  split at h
  · cases h
  · split at h
    · cases h
    · rename_i hfind
      have hfind : dirFind (v.dir p) leaf.name = none := by simpa using hfind
      cases hchain : env.chain with
      | none =>
        rw [hchain] at h
        cases h
      | some c =>
        rw [hchain] at h
        dsimp only at h
        have hput := dirPutName_put (v.room env) (v.dir p) leaf.name
        cases hres : dirPutName (v.room env) (v.dir p) leaf.name with
        | mk d res =>
          rw [hres] at h hput
          cases res with
          | none => cases h
          | some res =>
            obtain ⟨slot, short⟩ := res
            dsimp only at h
            generalize he : stamp env.now true (setSize 0 (setEntCluster v.bits c
              { Dirent.zero with name := short, attr := ATTR_DIRECTORY })) = e at h
            have hename : e.name = short := by rw [← he, stamp_name, setSize_name, setEntCluster_name]
            have hattr : e.attr = ATTR_DIRECTORY := by rw [← he, stamp_attr, setSize_attr, setEntCluster_attr]
            rw [← hename] at hput
            cases h
            obtain ⟨start, hadded⟩ := put_added hd hname hfind hput
              (real_of_marks (put_marks hput) (.inr hattr))
            refine ⟨slot, added_written hd hname.1 hfind ?_ hadded⟩
            rw [Volume.dir, put_self]
            rfl

/-- A name that is written under is found, listed, and written under again, and no other name is mixed up. -/
theorem written_found (hd : Tidy (v.dir p)) (hname : Nameable (v.dir p) leaf.name)
    (h : fatWriteFile v env p leaf size = (v', true) ∨ fatMkdir v env p leaf = (v', true)) :
    ∃ i, Written v v' p leaf i := by
  rcases h with h | h
  · exact write_written hd hname h
  · exact mkdir_written hd hname h

end calls

/-! ## A second name -/

theorem nameable_spaced (d : Dir) (name : Bytes) (h : isDots name = false ∧ needsLong name = true ∧
    TILDE ∉ (aliasParts name).base ∧ ∀ us ∈ utf8ToUnits name FAT_NAME_MAX, 0xFFFF ∉ us) : Nameable d name := by
  obtain ⟨hdots, hlong, htilde, hunits⟩ := h
  refine ⟨hdots, ?_⟩
  rw [if_pos hlong]
  exact ⟨readable_of_no_tilde htilde _, hunits⟩

/-- The root with `a b` in it. -/
def sampleHeld : Volume := (fatWriteFile (formatted 16 1 16) sampleEnv 0 leafSpaced 3).1

theorem sampleHeld_tidy : Tidy (sampleHeld.dir 0) := by
  have hchecked : (∀ j < (sampleHeld.dir 0).slots.length, ∀ i ≤ j, ((sampleHeld.dir 0).entry i).first = ENT_FREE →
      ((sampleHeld.dir 0).entry j).first = ENT_FREE) ∧
      ∀ i < (sampleHeld.dir 0).ending, entryIsReal ((sampleHeld.dir 0).entry i) = true →
        ((sampleHeld.dir 0).entry i).first ≠ DOT ∧
        (longNameOf (sampleHeld.dir 0).slots i ((sampleHeld.dir 0).entry i)).all needsLong = true ∧
        ∀ k < i, ((sampleHeld.dir 0).entry k).usable = false := by decide +kernel
  obtain ⟨hclosed, hreal⟩ := hchecked
  refine ⟨fun i j hij hj => hclosed j hj i hij, fun i hi hr hdot => absurd hdot (hreal i hi hr).1, ?_, ?_⟩
  · intro i hi hr L hL _ hshort
    have hlong := (hreal i hi hr).2.1
    rw [hL] at hlong
    exact absurd hlong (by simp [hshort])
  · intro i hi hr k hk hfree
    exact absurd hfree (by simp [(hreal i hi hr).2.2 k hk])

/-- `c d` -/
def leafOther : Leaf := ⟨[99, 32, 100], by decide, by decide⟩

theorem sampleWrite_found : ∃ i, Written sampleHeld (fatWriteFile sampleHeld sampleEnv 0 leafOther 5).1 0 leafOther i := by
  have hdone : (fatWriteFile sampleHeld sampleEnv 0 leafOther 5).2 = true := by decide +kernel
  exact written_found sampleHeld_tidy (nameable_spaced _ _ (by decide)) (.inl (Prod.ext rfl hdone))

/-- `ab~1` -/
def leafAlias : Leaf := ⟨[97, 98, 126, 49], by decide, by decide⟩

/-- A file written under the alias of one that is there is listed under the long name of that. -/
theorem sampleAlias_listed :
    let v := (fatWriteFile (formatted 16 1 16) sampleEnv 0 leafSpaced 0).1
    (fatWriteFile v sampleEnv 0 leafAlias 0).2 = true ∧
      ∀ i ∈ listed ((fatWriteFile v sampleEnv 0 leafAlias 0).1.dir 0),
        sameName (shownName ((fatWriteFile v sampleEnv 0 leafAlias 0).1.dir 0) i) leafAlias.name = false := by
  decide +kernel

end Zelr.Fat
