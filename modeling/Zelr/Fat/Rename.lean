import Zelr.Fat.Path

/-!
# A rename that is refused

Everything a rename can be refused for is looked at before anything is changed, but for two things:
whether a directory would go into itself, and whether there is a place for the new name.
-/

namespace Zelr.Fat

variable {d : Dir} {name : Bytes}

def fatRenamePath (v : Volume) (env : Env) (old new : Path) : Volume × Bool :=
  match resolveParent v old, resolveParent v new with
  | some (src, srcLeaf), some (dst, dstLeaf) => fatRename v env src srcLeaf dst dstLeaf
  | _, _ => (v, false)

/-! ## An entry taken out -/

section drop
variable {d : Dir} {slots : List Dirent} {name : Bytes} {i j t : Nat}

theorem dirDropLong_slot (sum : UInt8) (i : Nat) (slots : List Dirent) (j : Nat) :
    (dirDropLong sum i slots).getD j Dirent.zero = slots.getD j Dirent.zero ∨
      (slots.getD j Dirent.zero).isLfn = true ∧
        (dirDropLong sum i slots).getD j Dirent.zero = (slots.getD j Dirent.zero).deleted := by
  induction i generalizing slots with
  | zero => exact .inl rfl
  | succ i ih =>
    by_cases hij : j = i
    · subst hij
      unfold dirDropLong
      dsimp only
      split
      · exact .inl rfl
      · rename_i hlfn
        simp only [Bool.or_eq_true, Bool.not_eq_true', decide_eq_true_eq, not_or, Bool.not_eq_false] at hlfn
        have hlt : j < slots.length := by
          by_contra hge
          rw [List.getD_eq_getElem?_getD, List.getElem?_eq_none (by omega)] at hlfn
          exact absurd hlfn.1 (by decide)
        refine .inr ⟨hlfn.1, ?_⟩
        split
        · exact getD_set_self hlt
        · rw [dirDropLong_keeps _ _ (.inl le_rfl), getD_set_self hlt]
    · unfold dirDropLong
      dsimp only
      split
      · exact .inl rfl
      · split
        · exact .inl (getD_set_other (Ne.symm hij))
        · have hrest := ih (slots.set i (slots.getD i Dirent.zero).deleted)
          rwa [getD_set_other (Ne.symm hij)] at hrest

theorem dirDropLong_stop (sum : UInt8) (ht : t < i) (hlfn : (slots.getD t Dirent.zero).isLfn = false) (hj : j ≤ t) :
    (dirDropLong sum i slots).getD j Dirent.zero = slots.getD j Dirent.zero := by
  induction i generalizing slots with
  | zero => omega
  | succ i ih =>
    unfold dirDropLong
    dsimp only
    split
    · rfl
    · rename_i hgoes
      have hti : t ≠ i := by
        rintro rfl
        rw [hlfn] at hgoes
        exact hgoes rfl
      split
      · exact getD_set_other (by omega)
      · rw [ih (by omega) (by rwa [getD_set_other hti.symm]), getD_set_other (by omega)]

theorem dropEntry_self (ht : t < d.ending) : (dropEntry d t).entry t = (d.entry t).deleted := by
  have hle := ending_le d
  exact getD_set_self (by rw [dirDropLong_length]; omega)

theorem dropEntry_slot (hj : j ≠ t) : (dropEntry d t).entry j = d.entry j ∨
    (d.entry j).isLfn = true ∧ (dropEntry d t).entry j = (d.entry j).deleted := by
  have hother : (dropEntry d t).entry j =
      (dirDropLong (shortChecksum (d.entry t).name) t d.slots).getD j Dirent.zero := getD_set_other hj.symm
  rw [hother]
  exact dirDropLong_slot _ t d.slots j

theorem dropEntry_length (d : Dir) (t : Nat) : (dropEntry d t).slots.length = d.slots.length := by
  rw [dropEntry, List.length_set, dirDropLong_length]

theorem dropEntry_real (hj : j ≠ t) : entryIsReal ((dropEntry d t).entry j) = entryIsReal (d.entry j) ∧
    (entryIsReal (d.entry j) = true → (dropEntry d t).entry j = d.entry j) := by
  rcases dropEntry_slot hj with heq | ⟨hlfn, heq⟩
  · exact ⟨by rw [heq], fun _ => heq⟩
  · have hdead := not_real_lfn hlfn
    refine ⟨by rw [heq, not_real_deleted, hdead], fun hreal => ?_⟩
    rw [hdead] at hreal
    cases hreal

theorem dropEntry_ending (ht : t < d.ending) : (dropEntry d t).ending = d.ending := by
  have hlen := dropEntry_length d t
  have hle := ending_le d
  have hbefore : ∀ j < d.ending, ((dropEntry d t).entry j).first ≠ ENT_FREE := by
    intro j hj
    by_cases hjt : j = t
    · rw [hjt, dropEntry_self ht]
      exact deleted_first _
    · rcases dropEntry_slot hjt with heq | ⟨-, heq⟩
      · rw [heq]
        exact before_ending hj
      · rw [heq]
        exact deleted_first _
  rcases Nat.lt_trichotomy (dropEntry d t).ending d.ending with hlt | heq | hgt
  · have hend := List.findIdx_getElem (w := show (dropEntry d t).ending < (dropEntry d t).slots.length by omega)
    refine absurd ?_ (hbefore _ hlt)
    rw [Dir.entry, List.getD_eq_getElem?_getD, List.getElem?_eq_getElem (by omega)]
    exact of_decide_eq_true hend
  · exact heq
  · have hle' := ending_le (dropEntry d t)
    have hend := List.findIdx_getElem (w := show d.ending < d.slots.length by omega)
    refine absurd ?_ (before_ending hgt)
    have hkept : (dropEntry d t).entry d.ending = d.entry d.ending := by
      have hother : (dropEntry d t).entry d.ending =
        (dirDropLong (shortChecksum (d.entry t).name) t d.slots).getD d.ending Dirent.zero :=
        getD_set_other (by omega)
      rw [hother, dirDropLong_keeps _ _ (.inl ht.le)]
      rfl
    rw [hkept, Dir.entry, List.getD_eq_getElem?_getD, List.getElem?_eq_getElem (by omega)]
    exact of_decide_eq_true hend

theorem dropEntry_longName (ht : t < d.ending) (hreal : entryIsReal (d.entry t) = true) (hj : j < d.ending) (hjt : j ≠ t)
    (hjreal : entryIsReal (d.entry j) = true) :
    longNameOf (dropEntry d t).slots j (d.entry j) = longNameOf d.slots j (d.entry j) := by
  have hle := ending_le d
  have hlen := dropEntry_length d t
  refine longNameOf_alike (by omega) (by omega) (fun k hk => ?_) rfl
  have hnew : ((dropEntry d t).entry t).isLfn = false := by
    rw [dropEntry_self ht]
    have hold := not_lfn_real hreal
    exact hold
  by_cases htj : t < j
  · by_cases hkt : k ≤ t
    · exact .inr ⟨t, hkt, htj, hnew, not_lfn_real hreal⟩
    · have hother : (dropEntry d t).entry k =
        (dirDropLong (shortChecksum (d.entry t).name) t d.slots).getD k Dirent.zero := getD_set_other (by omega)
      exact .inl (hother.trans (dirDropLong_keeps _ _ (.inl (by omega))))
  · have hother : (dropEntry d t).entry k =
      (dirDropLong (shortChecksum (d.entry t).name) t d.slots).getD k Dirent.zero := getD_set_other (by omega)
    exact .inl (hother.trans (dirDropLong_stop _ (by omega) (not_lfn_real hjreal) hk.le))

theorem dropEntry_answers (ht : t < d.ending) (hreal : entryIsReal (d.entry t) = true) (hj : j < d.ending) (hjt : j ≠ t) :
    answers (dropEntry d t) name j = answers d name j := by
  obtain ⟨hsame, hkept⟩ := dropEntry_real (d := d) hjt
  unfold answers
  rw [hsame]
  cases hjreal : entryIsReal (d.entry j) with
  | false => rw [Bool.false_and, Bool.false_and]
  | true => rw [hkept hjreal, dropEntry_longName ht hreal hj hjt hjreal]

theorem dropEntry_find (ht : t < d.ending) (hreal : entryIsReal (d.entry t) = true) (hdots : isDots name = false)
    (hfind : dirFind d name = some i) (hit : i ≠ t) : dirFind (dropEntry d t) name = some i := by
  unfold dirFind at hfind ⊢
  rw [hdots, if_neg (by nofun)] at hfind ⊢
  obtain ⟨hi, hans, hbefore⟩ := of_find_range hfind
  rw [dropEntry_ending ht]
  refine find_range hi ?_ fun j hj => ?_
  · rw [dropEntry_answers ht hreal hi hit, hans]
  · by_cases hjt : j = t
    · rw [answers, hjt, dropEntry_self ht, not_real_deleted]
      rfl
    · rw [dropEntry_answers ht hreal (by omega) hjt, hbefore j hj]

theorem dropEntry_shown (ht : t < d.ending) (hreal : entryIsReal (d.entry t) = true) :
    (shown (dropEntry d t)).length + 1 = (shown d).length := by
  have hfilter : ((List.range d.ending).filter fun j => entryIsReal ((dropEntry d t).entry j)) =
      ((List.range d.ending).filter fun j => entryIsReal (d.entry j)).erase t := by
    rw [List.Nodup.erase_eq_filter (List.Pairwise.filter _ List.nodup_range), List.filter_filter]
    refine List.filter_congr fun j _ => ?_
    by_cases hjt : j = t
    · rw [hjt, dropEntry_self ht, not_real_deleted, bne_self_eq_false, Bool.false_and]
    · rw [(dropEntry_real hjt).1, bne_iff_ne.mpr hjt, Bool.true_and]
  have hmem : t ∈ (List.range d.ending).filter fun j => entryIsReal (d.entry j) :=
    List.mem_filter.mpr ⟨List.mem_range.mpr ht, hreal⟩
  rw [shown, shown, List.length_map, List.length_map, dropEntry_ending ht, hfilter, List.length_erase_of_mem hmem]
  have hpos := List.length_pos_of_mem hmem
  omega

end drop

/-! ## The two late refusals -/

def IntoItself (v : Volume) (src slot dst : Nat) : Prop :=
  ((v.dir src).entry slot).isDir = true ∧ 2 ≤ entCluster v.bits ((v.dir src).entry slot) ∧
    dirWithin v (entCluster v.bits ((v.dir src).entry slot)) 4096 dst = true

def NoPlace (r : Room) (d : Dir) (name : Bytes) : Prop := (dirPutName r d name).2 = none

theorem put_length {res : Dir × Option (Nat × Bytes)} (h : Put d name res) :
    d.slots.length ≤ res.1.slots.length := by
  cases h with
  | refused hg => exact grown_length hg
  | short hg _ _ => exact grown_length hg
  | long hg _ _ _ _ _ =>
    dsimp only
    rw [writeRun_length]
    exact grown_length hg

theorem Dotted.length (h : Dotted d) : 2 ≤ d.slots.length := by
  have hlt := h.lt_ending
  have hle := ending_le d
  omega

section refusals
variable {v : Volume} {env : Env} {src slot dst taken : Nat} {leaf : Leaf}

theorem put_length_le (v : Volume) {p : Nat} {slots : List Dirent} (h : (v.dirs p).length ≤ slots.length) (q : Nat) :
    (v.dirs q).length ≤ ((v.put p slots).dirs q).length := by
  by_cases hq : q = p
  · rw [hq, put_self]
    exact h
  · rw [put_other v slots hq]

theorem newEntry_refused (h : IntoItself v src slot dst ∨ NoPlace (v.room env) (v.dir dst) leaf.name) :
    ∃ g, Grown (v.dir dst) g ∧ renameByNewEntry v env src slot dst leaf = (v.put dst g, false) := by
  have hself : v.put dst (v.dirs dst) = v := by
    unfold Volume.put
    have hdirs : (fun q => if q = dst then v.dirs dst else v.dirs q) = v.dirs := by
      funext q
      split
      · rename_i hq
        rw [hq]
      · rfl
    rw [hdirs]
  unfold renameByNewEntry
  dsimp only
  split
  · exact ⟨_, grown_refl _, by rw [Volume.dir, hself]⟩
  · rename_i hnot
    have hplace : NoPlace (v.room env) (v.dir dst) leaf.name := h.resolve_left fun hinto => hnot (by
      rw [hinto.1, decide_eq_true hinto.2.1, hinto.2.2]
      rfl)
    have hput := dirPutName_put (v.room env) (v.dir dst) leaf.name
    unfold NoPlace at hplace
    generalize dirPutName (v.room env) (v.dir dst) leaf.name = res at hput hplace
    cases hput with
    | refused hg => exact ⟨_, hg, rfl⟩
    | short _ _ _ => cases hplace
    | long _ _ _ _ _ _ => cases hplace

theorem newEntry_done (hstands : ((v.dir src).entry slot).isDir = true → 2 ≤ entCluster v.bits ((v.dir src).entry slot) →
      2 ≤ (v.dirs (entCluster v.bits ((v.dir src).entry slot))).length)
    (hinto : ¬ IntoItself v src slot dst) (hplace : ¬ NoPlace (v.room env) (v.dir dst) leaf.name) :
    (renameByNewEntry v env src slot dst leaf).2 = true := by
  unfold renameByNewEntry
  dsimp only
  split
  · rename_i hwithin
    simp only [Bool.and_eq_true, decide_eq_true_eq] at hwithin
    exact absurd ⟨hwithin.1.1, hwithin.1.2, hwithin.2⟩ hinto
  · have hput := dirPutName_put (v.room env) (v.dir dst) leaf.name
    have hlen := put_length hput
    unfold NoPlace at hplace
    generalize dirPutName (v.room env) (v.dir dst) leaf.name = res at hput hplace hlen
    obtain ⟨d, _ | ⟨nslot, short⟩⟩ := res
    · exact absurd rfl hplace
    · dsimp only
      split
      · rename_i hup
        simp only [Bool.and_eq_true, decide_eq_true_eq, noUp] at hup
        obtain ⟨⟨⟨hdir, -⟩, hchain⟩, hup⟩ := hup
        have hlong := hstands hdir hchain
        refine absurd (hlong.trans ((put_length_le v ?_ _).trans (put_length_le _ ?_ _))) (Nat.not_le.mpr (Nat.lt_succ_of_le hup))
        · rwa [List.length_set]
        · rw [List.length_set, dirDropLong_length]
      · rfl

/-! ## The name is free first -/

theorem gone_up (hstand : Standing v dst) (ht : taken < (v.dir dst).ending)
    (hfile : ((v.dir dst).entry taken).isDir = false) {q : Nat} (hq : q ≠ 0) :
    ((v.put dst (dropEntry (v.dir dst) taken).slots).dir q).entry 1 = (v.dir q).entry 1 := by
  by_cases hqd : q = dst
  · subst hqd
    have hdotted := hstand.resolve_left hq
    have hne : 1 ≠ taken := by
      rintro rfl
      rw [hdotted.upDir] at hfile
      cases hfile
    rw [put_dir]
    exact (dropEntry_real hne).2 hdotted.upReal
  · rw [Volume.dir, put_other v _ hqd]
    rfl

theorem gone_within (hstand : Standing v dst) (ht : taken < (v.dir dst).ending)
    (hfile : ((v.dir dst).entry taken).isDir = false) (top guard here : Nat) :
    dirWithin (v.put dst (dropEntry (v.dir dst) taken).slots) top guard here = dirWithin v top guard here := by
  induction guard generalizing here with
  | zero => rfl
  | succ guard ih =>
    by_cases hroot : here = 0
    · rw [dirWithin, dirWithin, if_pos hroot, if_pos hroot]
    · rw [dirWithin, dirWithin, gone_up hstand ht hfile hroot, ih]
      rfl

theorem delete_gone (htarget : dirFind (v.dir dst) leaf.name = some taken) (hfile : ((v.dir dst).entry taken).isDir = false) :
    fatDeleteFile v dst leaf = (v.put dst (dropEntry (v.dir dst) taken).slots, true) := by
  unfold fatDeleteFile
  rw [htarget]
  dsimp only
  rw [hfile]
  rfl

theorem gone_source (ht : taken < (v.dir dst).ending)
    (hreal : entryIsReal ((v.dir dst).entry taken) = true) (hdots : isDots name = false)
    (hfind : dirFind (v.dir src) name = some slot) (hother : ¬ (src = dst ∧ taken = slot)) :
    dirFind ((v.put dst (dropEntry (v.dir dst) taken).slots).dir src) name = some slot ∧
      ((v.put dst (dropEntry (v.dir dst) taken).slots).dir src).entry slot = (v.dir src).entry slot := by
  by_cases hsd : src = dst
  · subst hsd
    have hne : slot ≠ taken := fun h => hother ⟨rfl, h.symm⟩
    rw [put_dir]
    exact ⟨dropEntry_find ht hreal hdots hfind hne, (dropEntry_real hne).2 (dirFind_ending hdots hfind).2⟩
  · rw [Volume.dir, put_other v _ hsd]
    exact ⟨hfind, rfl⟩

end refusals

/-! ## When something is lost -/

/-- A file other than the one to be renamed stands under the new name, and all that is looked at before it is
taken away is in order. -/
structure Displaced (v : Volume) (src : Nat) (srcLeaf : Leaf) (dst : Nat) (dstLeaf : Leaf) (slot taken : Nat) : Prop where
  named : srcLeaf.name ≠ [] ∧ dstLeaf.name ≠ []
  dots : isDots srcLeaf.name = false ∧ isDots dstLeaf.name = false
  madeHere : v.madeHere = true
  second : ¬ (src = dst ∧ fits83 dstLeaf.name = true)
  source : dirFind (v.dir src) srcLeaf.name = some slot
  target : dirFind (v.dir dst) dstLeaf.name = some taken
  other : ¬ (src = dst ∧ taken = slot)
  file : ((v.dir dst).entry taken).isDir = false

/-- The file under the new name goes, and the rename is refused then: a directory would go into itself, or there
is no place for the new name even so. -/
def LosesTarget (v : Volume) (env : Env) (old new : Path) : Prop :=
  ∃ src srcLeaf dst dstLeaf slot taken, resolveParent v old = some (src, srcLeaf) ∧
    resolveParent v new = some (dst, dstLeaf) ∧ Displaced v src srcLeaf dst dstLeaf slot taken ∧
    (IntoItself v src slot dst ∨ NoPlace (v.room env) (dropEntry (v.dir dst) taken) dstLeaf.name)

section rename
variable {v : Volume} {env : Env} {src slot dst taken : Nat} {srcLeaf dstLeaf : Leaf} {old new : Path}

theorem Displaced.gone (h : Displaced v src srcLeaf dst dstLeaf slot taken) :
    fatRename v env src srcLeaf dst dstLeaf = renameByNewEntry (v.put dst (dropEntry (v.dir dst) taken).slots) env
      src slot dst dstLeaf := by
  obtain ⟨ht, hreal⟩ := dirFind_ending h.dots.2 h.target
  have hnot : ¬ (src = dst ∧ sameName srcLeaf.name dstLeaf.name = true) := by
    rintro ⟨rfl, hsame⟩
    have hfind := h.source
    rw [dirFind_congr hsame, h.target] at hfind
    exact h.other ⟨rfl, Option.some.inj hfind⟩
  have hway : inTheWay v src slot dst dstLeaf = some taken := by
    unfold inTheWay
    dsimp only
    rw [h.target, if_neg (fun hsame => h.other ⟨hsame.1, Option.some.inj hsame.2⟩)]
  unfold fatRename
  rw [if_neg (by simp only [Bool.or_eq_true, decide_eq_true_eq, h.named.1, h.named.2, h.dots.1, h.dots.2]; simp),
    if_neg (by rw [h.madeHere, Bool.not_true, Bool.and_false]; nofun), h.source]
  dsimp only
  rw [if_neg (by simpa only [Bool.and_eq_true, decide_eq_true_eq] using hnot), hway]
  dsimp only
  rw [h.file, if_neg (by nofun), delete_gone h.target h.file]
  dsimp only
  rw [(gone_source ht hreal h.dots.1 h.source h.other).1]
  dsimp only
  rw [renameTo, if_neg h.second]

theorem Consistent.chain (h : Consistent v) (hi : slot < (v.dir src).ending)
    (hreal : entryIsReal ((v.dir src).entry slot) = true) (hdir : ((v.dir src).entry slot).isDir = true)
    (hchain : 2 ≤ entCluster v.bits ((v.dir src).entry slot)) :
    2 ≤ (v.dirs (entCluster v.bits ((v.dir src).entry slot))).length := by
  have hinside : v.inside ((v.dir src).entry slot) = entCluster v.bits ((v.dir src).entry slot) :=
    if_neg (Nat.not_lt.mpr hchain)
  have hdotted := h src slot hi hreal hdir (by omega)
  rw [hinside] at hdotted
  exact hdotted.length

theorem way_taken (h : inTheWay v src slot dst dstLeaf = some taken) :
    dirFind (v.dir dst) dstLeaf.name = some taken ∧ ¬ (src = dst ∧ taken = slot) := by
  unfold inTheWay at h
  dsimp only at h
  obtain ⟨hnot, htaken⟩ := Option.ite_none_left_eq_some.mp h
  exact ⟨htaken, fun hsame => hnot ⟨hsame.1, by rw [htaken, hsame.2]⟩⟩

theorem Displaced.late (h : Displaced v src srcLeaf dst dstLeaf slot taken) (hv : Consistent v) (hstand : Standing v dst) :
    ((IntoItself v src slot dst ∨ NoPlace (v.room env) (dropEntry (v.dir dst) taken) dstLeaf.name) →
      (fatRename v env src srcLeaf dst dstLeaf).2 = false ∧ ¬ Same v (fatRename v env src srcLeaf dst dstLeaf).1) ∧
    (¬ (IntoItself v src slot dst ∨ NoPlace (v.room env) (dropEntry (v.dir dst) taken) dstLeaf.name) →
      (fatRename v env src srcLeaf dst dstLeaf).2 = true) := by
  obtain ⟨ht, hreal⟩ := dirFind_ending h.dots.2 h.target
  obtain ⟨hi, hireal⟩ := dirFind_ending h.dots.1 h.source
  have hentry := (gone_source ht hreal h.dots.1 h.source h.other).2
  have hinto : IntoItself (v.put dst (dropEntry (v.dir dst) taken).slots) src slot dst ↔ IntoItself v src slot dst := by
    unfold IntoItself
    rw [hentry, gone_within hstand ht h.file]
    rfl
  have hdir : (v.put dst (dropEntry (v.dir dst) taken).slots).dir dst = dropEntry (v.dir dst) taken := by
    rw [put_dir]
    rfl
  rw [h.gone]
  refine ⟨fun hlate => ?_, fun hlate => ?_⟩
  · have hlate' : IntoItself (v.put dst (dropEntry (v.dir dst) taken).slots) src slot dst ∨
        NoPlace ((v.put dst (dropEntry (v.dir dst) taken).slots).room env)
          ((v.put dst (dropEntry (v.dir dst) taken).slots).dir dst) dstLeaf.name :=
      hlate.imp hinto.mpr fun hplace => by rw [hdir]; exact hplace
    obtain ⟨g, hg, heq⟩ := newEntry_refused hlate'
    rw [heq]
    refine ⟨rfl, fun hsame => ?_⟩
    have hshown := hsame dst
    rw [put_dir, grown_shown hg, hdir] at hshown
    have hless := dropEntry_shown ht hreal
    rw [hshown] at hless
    omega
  · refine newEntry_done ?_ (fun h => hlate (.inl (hinto.mp h))) fun hplace => hlate (.inr (by rw [← hdir]; exact hplace))
    rw [hentry]
    intro hisDir hchain
    refine (hv.chain hi hireal hisDir hchain).trans (put_length_le v ?_ _)
    rw [dropEntry_length]
    rfl

theorem refused_same (hv : Consistent v) (hstand : Standing v dst)
    (hnone : ∀ slot taken, Displaced v src srcLeaf dst dstLeaf slot taken →
      ¬ (IntoItself v src slot dst ∨ NoPlace (v.room env) (dropEntry (v.dir dst) taken) dstLeaf.name))
    (hrefused : (fatRename v env src srcLeaf dst dstLeaf).2 = false) :
    Same v (fatRename v env src srcLeaf dst dstLeaf).1 := by
  by_cases hdisplaced : ∃ slot taken, Displaced v src srcLeaf dst dstLeaf slot taken
  · obtain ⟨slot, taken, h⟩ := hdisplaced
    rw [(h.late hv hstand).2 (hnone slot taken h)] at hrefused
    cases hrefused
  · unfold fatRename at hrefused ⊢
    split
    · exact Same.refl v
    · rename_i hnames
      rw [if_neg hnames] at hrefused
      simp only [Bool.or_eq_true, decide_eq_true_eq, not_or, Bool.not_eq_true] at hnames
      split
      · exact Same.refl v
      · rename_i hsecond
        rw [if_neg hsecond] at hrefused
        split
        · exact Same.refl v
        · rename_i slot hsource
          rw [hsource] at hrefused
          dsimp only at hrefused
          obtain ⟨hi, hireal⟩ := dirFind_ending hnames.1.2 hsource
          split
          · exact Same.refl v
          · rename_i hsame
            rw [if_neg hsame] at hrefused
            split
            · rename_i hway
              rw [hway] at hrefused
              dsimp only at hrefused
              unfold renameTo at hrefused ⊢
              split
              · rename_i hplace
                rw [if_pos hplace] at hrefused
                cases hrefused
              · rename_i hplace
                rw [if_neg hplace] at hrefused
                by_cases hlate : IntoItself v src slot dst ∨ NoPlace (v.room env) (v.dir dst) dstLeaf.name
                · obtain ⟨g, hg, heq⟩ := newEntry_refused hlate
                  rw [heq]
                  exact put_same (grown_shown hg)
                · rw [newEntry_done (fun hdir hchain => hv.chain hi hireal hdir hchain) (fun h => hlate (.inl h))
                    fun h => hlate (.inr h)] at hrefused
                  cases hrefused
            · rename_i taken hway
              split
              · exact Same.refl v
              · rename_i hfile
                obtain ⟨htarget, hother⟩ := way_taken hway
                rw [Bool.not_eq_true] at hfile
                obtain ⟨ht, hreal⟩ := dirFind_ending hnames.2 htarget
                by_cases hplace : src = dst ∧ fits83 dstLeaf.name = true
                · rw [hway] at hrefused
                  dsimp only at hrefused
                  rw [hfile, if_neg (by nofun), delete_gone htarget hfile] at hrefused
                  dsimp only at hrefused
                  rw [(gone_source ht hreal hnames.1.2 hsource hother).1] at hrefused
                  dsimp only at hrefused
                  rw [renameTo, if_pos hplace] at hrefused
                  cases hrefused
                · refine absurd ⟨slot, taken, ?_⟩ hdisplaced
                  have hmade : v.madeHere = true := by
                    by_contra hnot
                    refine hsecond ?_
                    rw [Bool.not_eq_true] at hnot
                    rw [hnot, Bool.not_false, Bool.and_true, Bool.not_eq_true', Bool.and_eq_false_iff, decide_eq_false_iff_not]
                    by_cases hsd : src = dst
                    · exact .inr (Bool.not_eq_true _ ▸ fun hfits => hplace ⟨hsd, hfits⟩)
                    · exact .inl hsd
                  exact ⟨⟨hnames.1.1.1, hnames.1.1.2⟩, ⟨hnames.1.2, hnames.2⟩, hmade, hplace, hsource, htarget, hother, hfile⟩

/-- **A rename that is refused leaves every file and directory as it was, unless the file under the new name is
gone by then.** -/
theorem rename_refused_iff (hv : Consistent v) (env : Env) (old new : Path) :
    ((fatRenamePath v env old new).2 = false → Same v (fatRenamePath v env old new).1) ↔ ¬ LosesTarget v env old new := by
  unfold fatRenamePath
  cases hold : resolveParent v old with
  | none =>
    refine ⟨?_, fun _ _ => Same.refl v⟩
    rintro - ⟨src, srcLeaf, dst, dstLeaf, slot, taken, hsrc, -⟩
    rw [hold] at hsrc
    cases hsrc
  | some source =>
    obtain ⟨src, srcLeaf⟩ := source
    cases hnew : resolveParent v new with
    | none =>
      refine ⟨?_, fun _ _ => Same.refl v⟩
      rintro - ⟨src, srcLeaf, dst, dstLeaf, slot, taken, -, hdst, -⟩
      rw [hnew] at hdst
      cases hdst
    | some target =>
      obtain ⟨dst, dstLeaf⟩ := target
      have hstand := resolveParent_standing hv hnew
      refine ⟨?_, fun hkept hrefused => refused_same hv hstand ?_ hrefused⟩
      · rintro hsame ⟨src', srcLeaf', dst', dstLeaf', slot, taken, hsrc, hdst, hdisplaced, hlate⟩
        rw [hold] at hsrc
        cases hsrc
        rw [hnew] at hdst
        cases hdst
        obtain ⟨hrefused, hlost⟩ := (hdisplaced.late hv hstand).1 hlate
        exact hlost (hsame hrefused)
      · exact fun slot taken hdisplaced hlate =>
          hkept ⟨src, srcLeaf, dst, dstLeaf, slot, taken, hold, hnew, hdisplaced, hlate⟩

end rename

/-! ## A directory over a file in it -/

/-- The directory `d`, and in it the file `x`. -/
@[irreducible] def sampleTree : Volume :=
  let d := setEntCluster 16 2 { Dirent.zero with name := to83 [100], attr := ATTR_DIRECTORY }
  let x := setSize 5 (setEntCluster 16 3 { Dirent.zero with name := to83 [120], attr := ATTR_ARCHIVE })
  { formatted 16 1 16 with
    dirs := fun p =>
      if p = 0 then d :: List.replicate 15 Dirent.zero
      else if p = 2 then (newDir (formatted 16 1 16) sampleEnv 0 2).set 2 x
      else [] }

/-- `/d` -/
def pathD : Path := ⟨[47, 100], by decide⟩

/-- `/d/x` -/
def pathDX : Path := ⟨[47, 100, 47, 120], by decide⟩

theorem sampleTree_consistent : Consistent sampleTree := by
  have hd : Dotted (sampleTree.dir 2) :=
    ⟨by decide +kernel, by decide +kernel, by decide +kernel, by decide +kernel⟩
  have hroot : ∀ i < (sampleTree.dir 0).ending, entryIsReal ((sampleTree.dir 0).entry i) = true →
      sampleTree.inside ((sampleTree.dir 0).entry i) = 2 := by decide +kernel
  have hsub : ∀ i < (sampleTree.dir 2).ending, ((sampleTree.dir 2).entry i).isDir = true →
      sampleTree.inside ((sampleTree.dir 2).entry i) = 0 ∨ sampleTree.inside ((sampleTree.dir 2).entry i) = 2 := by
    decide +kernel
  intro p i hi hreal hdir hne
  by_cases h0 : p = 0
  · subst h0
    rw [hroot i hi hreal]
    exact hd
  · by_cases h2 : p = 2
    · subst h2
      rw [(hsub i hi hdir).resolve_left hne]
      exact hd
    · have hnone : (sampleTree.dir p).ending = 0 := by
        unfold sampleTree
        rw [Volume.dir, Dir.ending]
        dsimp only
        rw [if_neg h0, if_neg h2]
        rfl
      omega

/-- Renamed into the directory itself, over the file: refused, and the file is gone. -/
theorem sampleRename_lost : Consistent sampleTree ∧ (fatRenamePath sampleTree sampleEnv pathD pathDX).2 = false ∧
    ¬ Same sampleTree (fatRenamePath sampleTree sampleEnv pathD pathDX).1 := by
  refine ⟨sampleTree_consistent, by decide +kernel, fun hsame => ?_⟩
  exact absurd (hsame 2) (by decide +kernel)

/-- `/d/y` -/
def pathDY : Path := ⟨[47, 100, 47, 121], by decide⟩

/-- Into itself under a name that nothing has: refused by the last check. -/
theorem rename_refused_sample : (fatRenamePath sampleTree sampleEnv pathD pathDY).2 = false ∧
    Same sampleTree (fatRenamePath sampleTree sampleEnv pathD pathDY).1 := by
  have hrefused : (fatRenamePath sampleTree sampleEnv pathD pathDY).2 = false := by decide +kernel
  have hfree : (resolveParent sampleTree pathDY).bind (fun r => dirFind (sampleTree.dir r.1) r.2.name) = none := by
    decide +kernel
  refine ⟨hrefused, (rename_refused_iff sampleTree_consistent sampleEnv pathD pathDY).2 ?_ hrefused⟩
  rintro ⟨src, srcLeaf, dst, dstLeaf, slot, taken, -, hnew, hdisplaced, -⟩
  rw [hnew, Option.bind_some, hdisplaced.target] at hfree
  cases hfree

end Zelr.Fat
