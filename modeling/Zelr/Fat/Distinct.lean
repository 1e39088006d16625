import Zelr.Fat.Unique

/-!
# Runs of calls

Every call keeps every directory sound when the names it is given make no trouble, and so does a run.
-/

namespace Zelr.Fat

variable {v : Volume} {env : Env} {p : Nat} {leaf : Leaf}

def VolSound (v : Volume) : Prop := ∀ p, Sound (v.dirs p)

theorem VolSound.put (h : VolSound v) {slots : List Dirent} (hslots : Sound slots) (p : Nat) :
    VolSound (v.put p slots) := by
  intro q
  by_cases hq : q = p
  · rw [hq, put_self]
    exact hslots
  · rw [put_other _ _ hq]
    exact h q

variable {slot dst src : Nat} {d : Dir} {name : Bytes}

theorem Slot.sound {slots : List Dirent} {e : Dirent} (h : Slot slots slot e.name) (hsound : Sound slots)
    (hlfn : e.isLfn = false) : Sound (slots.set slot e) :=
  hsound.set h.lt h.before h.marks.1 (Sane.of_not_lfn hlfn) fun _ hmem => h.fresh (others_subset h.lt hmem)

/-! ## One call -/

section
variable (h : VolSound v)
include h

theorem fatWriteFile_sound (size : Nat)
    (hname : dirFind (v.dir p) leaf.name = none → Ordinary (v.dir p) leaf.name) :
    VolSound (fatWriteFile v env p leaf size).1 := by
  unfold fatWriteFile
  split
  · exact h
  · cases hfind : dirFind (v.dir p) leaf.name with
    | some slot =>
      obtain ⟨hlt, hfirst, -, hreal⟩ := dirFind_some hfind
      dsimp only
      split
      · exact h
      · cases env.chain with
        | none => exact h
        | some first =>
          refine h.put ((h p).rewrite hlt hfirst ?_ ?_ (sane_same hreal ?_ ?_)) p <;> simp [Dir.entry, Volume.dir]
    | none =>
      obtain ⟨hsound, -, hslot⟩ := put_slot (h p) (hname hfind) (fun _ => .inl hfind)
        (dirPutName_put (v.room env) (v.dir p) leaf.name)
      cases hput : dirPutName (v.room env) (v.dir p) leaf.name with
      | mk d res =>
        rw [hput] at hsound hslot
        cases res with
        | none => exact h.put hsound p
        | some res =>
          have hslot := hslot res.1 res.2 rfl
          dsimp only
          cases env.chain with
          | none => exact h.put hsound p
          | some first =>
            refine h.put (Slot.sound ?_ hsound ?_) p
            · simpa using hslot
            · simp only [Dirent.isLfn, stamp_attr, setSize_attr, setEntCluster_attr]
              decide

omit h in
theorem zero_replicate_sound (n : Nat) : Sound (List.replicate n Dirent.zero) := by
  refine ⟨?_, fun e he => ?_, ?_⟩
  · intro i j _ hj _
    rw [List.getD_eq_getElem?_getD, List.getElem?_replicate]
    split <;> rfl
  · rw [List.eq_of_mem_replicate he]
    exact Sane.of_not_lfn zero_not_lfn
  · rw [live_zeros]
    exact List.nodup_nil

omit h in
theorem newDir_sound (v : Volume) (env : Env) (p c : Nat) : Sound (newDir v env p c) := by
  generalize hdot : stamp env.now true
    (setEntCluster v.bits c { Dirent.zero with name := blanks 11 [DOT], attr := ATTR_DIRECTORY }) = dot
  have hname : dot.name = blanks 11 [DOT] := by rw [← hdot, stamp_name, setEntCluster_name]
  have hattr : dot.attr = ATTR_DIRECTORY := by rw [← hdot, stamp_attr, setEntCluster_attr]
  have hlfn : ∀ e : Dirent, e.attr = ATTR_DIRECTORY → e.isLfn = false := by
    intro e he
    rw [Dirent.isLfn, he]
    decide
  generalize hup : setEntCluster v.bits p { dot with name := blanks 11 [DOT, DOT] } = up
  have hupname : up.name = blanks 11 [DOT, DOT] := by rw [← hup, setEntCluster_name]
  have hupattr : up.attr = ATTR_DIRECTORY := by rw [← hup, setEntCluster_attr, hattr]
  have hreal : ∀ e : Dirent, e.attr = ATTR_DIRECTORY → e.first = DOT → entryIsReal e = true := by
    intro e he hfirst
    rw [entryIsReal, he, hfirst]
    decide
  have heq : newDir v env p c = dot :: up :: List.replicate (v.entriesPerCluster - 2) Dirent.zero := by
    rw [newDir, hdot, hup]
  have hzero := zero_replicate_sound (v.entriesPerCluster - 2)
  rw [heq]
  refine ⟨?_, fun e he => ?_, ?_⟩
  · intro i j hij hj hfree
    rcases i with _ | _ | i
    · have hfirst : dot.first = DOT := by rw [Dirent.first, hname]; rfl
      rw [List.getD_cons_zero, hfirst] at hfree
      exact absurd hfree (by decide)
    · have hfirst : up.first = DOT := by rw [Dirent.first, hupname]; rfl
      rw [List.getD_cons_succ, List.getD_cons_zero, hfirst] at hfree
      exact absurd hfree (by decide)
    · obtain ⟨j, rfl⟩ : ∃ k, j = k + 2 := ⟨j - 2, by omega⟩
      rw [List.getD_cons_succ, List.getD_cons_succ] at hfree ⊢
      exact hzero.ended i j (by omega) (by simpa using hj) hfree
  · rcases List.mem_cons.mp he with rfl | he
    · exact Sane.of_not_lfn (hlfn _ hattr)
    · rcases List.mem_cons.mp he with rfl | he
      · exact Sane.of_not_lfn (hlfn _ hupattr)
      · exact hzero.sane e he
  · have hdotreal := hreal dot hattr (by rw [Dirent.first, hname]; rfl)
    have hupreal := hreal up hupattr (by rw [Dirent.first, hupname]; rfl)
    rw [live_cons, live_cons up, live_real hdotreal, live_real hupreal, live_zeros, hname, hupname]
    decide

theorem fatMkdir_sound (hname : dirFind (v.dir p) leaf.name = none → Ordinary (v.dir p) leaf.name) :
    VolSound (fatMkdir v env p leaf).1 := by
  unfold fatMkdir
  split
  · exact h
  · split
    · exact h
    · rename_i hfind
      have hfind : dirFind (v.dir p) leaf.name = none := by simpa using hfind
      obtain ⟨hsound, -, hslot⟩ := put_slot (h p) (hname hfind) (fun _ => .inl hfind)
        (dirPutName_put (v.room env) (v.dir p) leaf.name)
      cases env.chain with
      | none => exact h
      | some c =>
        have hmade := h.put (newDir_sound v env p c) c
        dsimp only
        cases hput : dirPutName (v.room env) (v.dir p) leaf.name with
        | mk d res =>
          rw [hput] at hsound hslot
          cases res with
          | none => exact hmade.put hsound p
          | some res =>
            have hslot := hslot res.1 res.2 rfl
            refine hmade.put (Slot.sound ?_ hsound ?_) p
            · simpa using hslot
            · simp only [Dirent.isLfn, stamp_attr, setSize_attr, setEntCluster_attr]
              decide

omit h in
theorem dropEntry_sound (h : Sound d.slots) {i : Nat} (hfind : dirFind d name = some i) :
    Sound (dropEntry d i).slots := by
  obtain ⟨hlt, hfirst, -, -⟩ := dirFind_some hfind
  exact (drop_sound _ h hlt hfirst _).1

theorem fatDeleteFile_sound : VolSound (fatDeleteFile v p leaf).1 := by
  unfold fatDeleteFile
  cases hfind : dirFind (v.dir p) leaf.name with
  | none => exact h
  | some slot =>
    dsimp only
    split
    · exact h
    · exact h.put (dropEntry_sound (d := v.dir p) (h p) hfind) p

theorem fatRmdir_sound : VolSound (fatRmdir v p leaf).1 := by
  unfold fatRmdir
  split
  · exact h
  · cases hfind : dirFind (v.dir p) leaf.name with
    | none => exact h
    | some slot =>
      dsimp only
      split
      · exact h
      · split
        · exact h
        · exact h.put (dropEntry_sound (d := v.dir p) (h p) hfind) p

/-! ## Renaming -/

theorem dirPointUp_sound {c : Nat} (hup : noUp v c = false) (p : Nat) :
    VolSound (dirPointUp v c p) ∧ ∀ q i, (((dirPointUp v c p).dirs q).getD i Dirent.zero).name =
      ((v.dirs q).getD i Dirent.zero).name ∧ (((dirPointUp v c p).dirs q).getD i Dirent.zero).attr =
        ((v.dirs q).getD i Dirent.zero).attr ∧ ((dirPointUp v c p).dirs q).length = (v.dirs q).length := by
  have hlen : 1 < (v.dirs c).length := by simpa [noUp] using hup
  unfold dirPointUp
  dsimp only
  split
  · rename_i hisup
    obtain ⟨hdot, -⟩ := Bool.and_eq_true_iff.mp hisup
    have hdot : ((v.dirs c).getD 1 Dirent.zero).first = DOT := of_decide_eq_true hdot
    have hfirst : ((v.dirs c).getD 1 Dirent.zero).first ≠ ENT_FREE := by
      rw [hdot]
      decide
    have hsound := (h c).rewrite (e := setEntCluster v.bits p ((v.dir c).entry 1)) hlen hfirst rfl rfl
      (sane_of_dot (e := setEntCluster v.bits p ((v.dir c).entry 1)) hdot)
    refine ⟨h.put hsound c, fun q i => ?_⟩
    by_cases hq : q = c
    · rw [hq, put_self, List.length_set]
      by_cases hi : 1 = i
      · rw [← hi, getD_set_self hlen]
        exact ⟨rfl, rfl, rfl⟩
      · rw [getD_set_other hi]
        exact ⟨rfl, rfl, rfl⟩
    · rw [put_other _ _ hq]
      exact ⟨rfl, rfl, rfl⟩
  · exact ⟨h, fun _ _ => ⟨rfl, rfl, rfl⟩⟩

theorem renameInPlace_sound (hlt : slot < (v.dirs p).length)
    (hreal : entryIsReal ((v.dir p).entry slot) = true) (hfirst : ((v.dir p).entry slot).first ≠ ENT_FREE)
    (hfits : fits83 leaf.name = true)
    (hnew : to83 leaf.name ∉ live (v.dirs p) ∨ ((v.dir p).entry slot).name = to83 leaf.name) :
    VolSound (renameInPlace v p slot leaf) := by
  have hfirst' : ((v.dirs p).getD slot Dirent.zero).first ≠ ENT_FREE := hfirst
  obtain ⟨hsound, hsame⟩ := dirDropLong_sound (shortChecksum ((v.dir p).entry slot).name) (h p) hlt.le
    ((h p).ended.before hlt hfirst')
  generalize hslots : dirDropLong (shortChecksum ((v.dir p).entry slot).name) slot (v.dirs p) = slots at hsound hsame
  have hlen : slot < slots.length := by rwa [← hslots, dirDropLong_length]
  have hget : slots.getD slot Dirent.zero = (v.dir p).entry slot := by
    rw [← hslots, dirDropLong_keeps _ _ (.inl le_rfl)]
    rfl
  have hmarks := to83_marks leaf.plain (fits83_low hfits)
  unfold renameInPlace
  dsimp only
  rw [hslots]
  refine h.put (hsound.set (e := { (v.dir p).entry slot with name := to83 leaf.name }) hlen
    (hsound.ended.before hlen (by rwa [hget])) hmarks.1 ?_ fun _ hmem => ?_) p
  · have hlfn := not_lfn_real hreal
    exact Sane.of_not_lfn hlfn
  · rcases hnew with hnew | hname
    · exact hnew ((hsame _).mp (others_subset hlen hmem))
    · have hnodup := (live_perm hlen).nodup_iff.mp hsound.distinct
      rw [hget, live_real hreal, hname] at hnodup
      exact (List.nodup_cons.mp hnodup).1 hmem

theorem renameByNewEntry_sound (hlt : slot < (v.dirs src).length)
    (hreal : entryIsReal ((v.dir src).entry slot) = true) (hfirst : ((v.dir src).entry slot).first ≠ ENT_FREE)
    (hname : Ordinary (v.dir dst) leaf.name)
    (hnone : needsLong leaf.name = false →
      dirFind (v.dir dst) leaf.name = none ∨ to83 leaf.name ∉ (v.dir dst).shorts) :
    VolSound (renameByNewEntry v env src slot dst leaf).1 := by
  unfold renameByNewEntry
  dsimp only
  split
  · exact h
  · have hput := dirPutName_put (v.room env) (v.dir dst) leaf.name
    obtain ⟨hsound, -, hslot⟩ := put_slot (h dst) hname hnone hput
    have hkeeps : src = dst → slot < (dirPutName (v.room env) (v.dir dst) leaf.name).1.slots.length ∧
        (dirPutName (v.room env) (v.dir dst) leaf.name).1.slots.getD slot Dirent.zero = (v.dir dst).entry slot := by
      rintro rfl
      exact put_keeps (d := v.dir src) (h src).ended hput hlt hreal
    cases hres : dirPutName (v.room env) (v.dir dst) leaf.name with
    | mk d res =>
      rw [hres] at hsound hslot hkeeps
      cases res with
      | none => exact h.put hsound dst
      | some res =>
        obtain ⟨nslot, short⟩ := res
        have hslot := hslot nslot short rfl
        dsimp only
        generalize hold : (v.dir src).entry slot = old at hreal hfirst hkeeps
        have holdlfn : old.isLfn = false := not_lfn_real hreal
        -- both entries are there
        have hwith : VolSound (v.put dst (d.slots.set nslot (setNt NT_RENAMING { setNt 0 old with name := short }))) :=
          h.put (Slot.sound (e := setNt NT_RENAMING { setNt 0 old with name := short }) hslot hsound holdlfn) dst
        generalize hv : v.put dst (d.slots.set nslot (setNt NT_RENAMING { setNt 0 old with name := short })) = w at hwith
        have hne : src = dst → nslot ≠ slot := by
          rintro rfl rfl
          have hdead := hslot.dead
          rw [(hkeeps rfl).2] at hdead
          rw [show (v.dir src).entry nslot = old from hold, hreal] at hdead
          cases hdead
        have hnew : nslot < (w.dirs dst).length ∧ (w.dirs dst).getD nslot Dirent.zero =
            setNt NT_RENAMING { setNt 0 old with name := short } := by
          rw [← hv, put_self, List.length_set, getD_set_self hslot.lt]
          exact ⟨hslot.lt, rfl⟩
        have hthere : slot < (w.dirs src).length ∧ (w.dirs src).getD slot Dirent.zero = old := by
          rw [← hv]
          by_cases hsame : src = dst
          · subst hsame
            rw [put_self, List.length_set, getD_set_other (hne rfl), (hkeeps rfl).2]
            exact ⟨(hkeeps rfl).1, hold⟩
          · rw [put_other _ _ hsame]
            exact ⟨hlt, hold⟩
        -- and then the old one is not
        have hgone : VolSound (w.put src ((dirDropLong (shortChecksum old.name) slot (w.dirs src)).set slot old.deleted)) :=
          hwith.put (drop_sound _ (hwith src) hthere.1 (by rwa [hthere.2]) old).1 src
        have hstays : ∀ u, u = w.put src ((dirDropLong (shortChecksum old.name) slot (w.dirs src)).set slot old.deleted) →
            nslot < (u.dirs dst).length ∧ (u.dirs dst).getD nslot Dirent.zero =
              setNt NT_RENAMING { setNt 0 old with name := short } := by
          rintro u rfl
          by_cases hsame : src = dst
          · subst hsame
            rw [put_self, List.length_set, dirDropLong_length, getD_set_other (hne rfl).symm,
              dirDropLong_keeps _ _ (.inr (by rw [hnew.2]; exact holdlfn))]
            exact hnew
          · rw [put_other _ _ (Ne.symm hsame)]
            exact hnew
        generalize hu : w.put src ((dirDropLong (shortChecksum old.name) slot (w.dirs src)).set slot old.deleted) = u at hgone
        have hstays := hstays u hu.symm
        have hlast : ∀ x : Volume, VolSound x → ((x.dirs dst).getD nslot Dirent.zero).name = short →
            ((x.dirs dst).getD nslot Dirent.zero).attr = old.attr → nslot < (x.dirs dst).length →
            VolSound (x.put dst ((x.dirs dst).set nslot (setNt 0 { setNt 0 old with name := short }))) := by
          intro x hx hxname hxattr hxlen
          refine hx.put ((hx dst).rewrite (e := setNt 0 { setNt 0 old with name := short }) hxlen ?_ ?_ ?_
            (Sane.of_not_lfn holdlfn)) dst
          · rw [Dirent.first, hxname]
            exact hslot.marks.1
          · exact hxname.symm
          · exact hxattr.symm
        split
        · exact hgone
        · rename_i hup
          split
          · rename_i hmoved
            have hup : noUp u (entCluster v.bits old) = false := by
              rw [Bool.eq_false_iff]
              intro hno
              exact hup (by rw [Bool.and_eq_true_iff]; exact ⟨by simpa using hmoved, hno⟩)
            obtain ⟨hsound', hsame⟩ := dirPointUp_sound hgone hup dst
            obtain ⟨hn, ha, hl⟩ := hsame dst nslot
            exact hlast _ hsound' (by rw [hn, hstays.2]; rfl) (by rw [ha, hstays.2]; rfl) (by rw [hl]; exact hstays.1)
          · exact hlast _ hgone (by rw [hstays.2]; rfl) (by rw [hstays.2]; rfl) hstays.1

theorem renameTo_sound (hlt : slot < (v.dirs src).length)
    (hreal : entryIsReal ((v.dir src).entry slot) = true) (hfirst : ((v.dir src).entry slot).first ≠ ENT_FREE)
    (hplace : src = dst ∧ fits83 leaf.name = true →
      to83 leaf.name ∉ live (v.dirs dst) ∨ ((v.dir src).entry slot).name = to83 leaf.name)
    (hentry : ¬ (src = dst ∧ fits83 leaf.name = true) → Ordinary (v.dir dst) leaf.name ∧
      (needsLong leaf.name = false → dirFind (v.dir dst) leaf.name = none ∨ to83 leaf.name ∉ (v.dir dst).shorts)) :
    VolSound (renameTo v env src slot dst leaf).1 := by
  unfold renameTo
  split
  · rename_i hin
    obtain ⟨rfl, hfits⟩ := hin
    exact renameInPlace_sound h hlt hreal hfirst hfits (hplace ⟨rfl, hfits⟩)
  · rename_i hout
    obtain ⟨hname, hnone⟩ := hentry hout
    exact renameByNewEntry_sound h hlt hreal hfirst hname hnone

end

def Renameable (v : Volume) (src dst : Nat) (name : Bytes) : Prop :=
  if src = dst ∧ fits83 name then needsLong name = false ∨ to83 name ∉ (v.dir dst).shorts
  else Ordinary (v.dir dst) name

theorem ordinary_mono {d' : Dir} (h : Ordinary d name) (hsub : ∀ x ∈ d'.shorts, x ∈ d.shorts) :
    Ordinary d' name := by
  unfold Ordinary at h ⊢
  split
  · rename_i hlong
    rw [if_pos hlong] at h
    exact ⟨fun n hpos hn hmem => h.1 n hpos hn (hsub _ hmem), h.2⟩
  · rename_i hlong
    rw [if_neg hlong] at h
    exact h.imp id fun hnot hmem => hnot (hsub _ hmem)

theorem dirFind_short (h : Sound d.slots) (hfits : fits83 name = true)
    (hlong : needsLong name = false) {i : Nat} (hfind : dirFind d name = some i) : (d.entry i).name = to83 name := by
  unfold dirFind at hfind
  rw [fits83_not_dots hfits hlong, if_neg Bool.false_ne_true] at hfind
  have hans := List.find?_some hfind
  exact answers_short h hfits hlong hans

theorem fatRename_sound (h : VolSound v) {srcLeaf : Leaf} (hname : Renameable v src dst leaf.name) :
    VolSound (fatRename v env src srcLeaf dst leaf).1 := by
  unfold fatRename
  split
  · exact h
  · rename_i hleaf
    have hdots : isDots srcLeaf.name = false ∧ isDots leaf.name = false := by
      simp only [Bool.or_eq_true, not_or, Bool.not_eq_true] at hleaf
      exact ⟨hleaf.1.2, hleaf.2⟩
    split
    · exact h
    · cases hfind : dirFind (v.dir src) srcLeaf.name with
      | none => exact h
      | some slot =>
        obtain ⟨hlt, hfirst, hreal, -⟩ := dirFind_some hfind
        have hreal := hreal hdots.1
        dsimp only
        split
        · exact h
        · cases hway : inTheWay v src slot dst leaf with
          | none =>
            unfold inTheWay at hway
            dsimp only at hway
            refine renameTo_sound h hlt hreal hfirst ?_ ?_
            · rintro ⟨rfl, hfits⟩
              rw [Renameable, if_pos ⟨rfl, hfits⟩] at hname
              rcases hname with hlong | hnew
              · split at hway
                · rename_i htaken
                  exact .inr (dirFind_short (d := v.dir src) (h src) hfits hlong htaken.2)
                · have hfresh := dirFind_none hfits hlong hway
                  rw [shorts_eq (h src).ended] at hfresh
                  exact .inl hfresh
              · rw [shorts_eq (h src).ended] at hnew
                exact .inl hnew
            · intro hout
              rw [Renameable, if_neg hout] at hname
              refine ⟨hname, fun hlong => ?_⟩
              split at hway
              · rename_i htaken
                rw [Ordinary, hlong, if_neg Bool.false_ne_true] at hname
                exact .inr (hname.resolve_left fun hfits => hout ⟨htaken.1, hfits⟩)
              · exact .inl hway
          | some taken =>
            have htaken : dirFind (v.dir dst) leaf.name = some taken := by
              unfold inTheWay at hway
              dsimp only at hway
              split at hway
              · cases hway
              · exact hway
            dsimp only
            split
            · exact h
            · rename_i hdir
              obtain ⟨hlt', hfirst', hreal', -⟩ := dirFind_some htaken
              have hreal' := hreal' hdots.2
              have hdelete : fatDeleteFile v dst leaf = (v.put dst (dropEntry (v.dir dst) taken).slots, true) := by
                unfold fatDeleteFile
                rw [htaken]
                exact if_neg hdir
              have hafter := h.put (dropEntry_sound (d := v.dir dst) (h dst) htaken) dst
              have hleft : ∀ x ∈ live ((v.put dst (dropEntry (v.dir dst) taken).slots).dirs dst),
                  x ∈ live (v.dirs dst) ∧ x ≠ ((v.dir dst).entry taken).name := by
                intro x hx
                rw [put_self] at hx
                obtain ⟨hmem, hne⟩ := drop_live _ (h dst) hlt' hfirst' _ hx
                exact ⟨hmem, hne hreal'⟩
              rw [hdelete]
              dsimp only
              generalize v.put dst (dropEntry (v.dir dst) taken).slots = w at hafter hleft
              have hsub : ∀ x ∈ (w.dir dst).shorts, x ∈ (v.dir dst).shorts := by
                intro x hx
                rw [@shorts_eq (w.dir dst) (hafter dst).ended] at hx
                rw [@shorts_eq (v.dir dst) (h dst).ended]
                exact (hleft x hx).1
              -- a short name that was in the way is so no longer
              have hfree : needsLong leaf.name = false → fits83 leaf.name = true →
                  to83 leaf.name ∉ live (w.dirs dst) := by
                intro hlong hfits hmem
                exact (hleft _ hmem).2 (dirFind_short (d := v.dir dst) (h dst) hfits hlong htaken).symm
              cases hagain : dirFind (w.dir src) srcLeaf.name with
              | none => exact hafter
              | some slot =>
                obtain ⟨hlt, hfirst, hreal, -⟩ := dirFind_some hagain
                refine renameTo_sound hafter hlt (hreal hdots.1) hfirst ?_ ?_
                · rintro ⟨rfl, hfits⟩
                  rw [Renameable, if_pos ⟨rfl, hfits⟩] at hname
                  rcases hname with hlong | hnew
                  · exact .inl (hfree hlong hfits)
                  · rw [@shorts_eq (v.dir src) (h src).ended] at hnew
                    exact .inl fun hmem => hnew (hleft _ hmem).1
                · intro hout
                  rw [Renameable, if_neg hout] at hname
                  refine ⟨ordinary_mono hname hsub, fun hlong => .inr ?_⟩
                  rw [Ordinary, hlong, if_neg Bool.false_ne_true] at hname
                  rcases hname with hfits | hnew
                  · rw [@shorts_eq (w.dir dst) (hafter dst).ended]
                    exact hfree hlong hfits
                  · exact fun hmem => hnew (hsub _ hmem)

/-! ## Every run -/

/-- The names a call puts into a directory make no trouble there. -/
def Call.Kept (v : Volume) : Call → Prop
  | .writeFile _ p leaf _ | .mkdir _ p leaf => dirFind (v.dir p) leaf.name = none → Ordinary (v.dir p) leaf.name
  | .rename _ src _ dst dstLeaf => Renameable v src dst dstLeaf.name
  | .deleteFile _ _ | .rmdir _ _ => True

def RunKept : Volume → List Call → Prop
  | _, [] => True
  | v, call :: calls => call.Kept v ∧ RunKept (step v call) calls

theorem step_sound (h : VolSound v) {call : Call} (hkept : call.Kept v) : VolSound (step v call) := by
  cases call with
  | writeFile env p leaf size => exact fatWriteFile_sound h size hkept
  | deleteFile p leaf => exact fatDeleteFile_sound h
  | mkdir env p leaf => exact fatMkdir_sound h hkept
  | rmdir p leaf => exact fatRmdir_sound h
  | rename env src srcLeaf dst dstLeaf => exact fatRename_sound h hkept

theorem run_sound (h : VolSound v) {calls : List Call} (hkept : RunKept v calls) : VolSound (run v calls) := by
  induction calls generalizing v with
  | nil => exact h
  | cons call calls ih => exact ih (step_sound h hkept.1) hkept.2

theorem formatted_sound (bits sectorsPerCluster rootEntries : Nat) :
    VolSound (formatted bits sectorsPerCluster rootEntries) := by
  intro p
  unfold formatted
  dsimp only
  by_cases hp : p = 0
  · rw [if_pos hp]
    exact zero_replicate_sound rootEntries
  · rw [if_neg hp]
    exact zero_replicate_sound 0

/-- In every directory of a volume made here and used with such names, no two entries have one short name,
and no alias is made that an entry has. -/
theorem shortNames_unique (bits sectorsPerCluster rootEntries : Nat) (calls : List Call)
    (hkept : RunKept (formatted bits sectorsPerCluster rootEntries) calls) (p : Nat) :
    let d := (run (formatted bits sectorsPerCluster rootEntries) calls).dir p
    d.shorts.Nodup ∧ ∀ name a, Readable (aliasParts name) d.shorts → makeAlias d name = some a → a ∉ d.shorts := by
  have hsound := run_sound (formatted_sound bits sectorsPerCluster rootEntries) hkept p
  refine ⟨?_, fun name a hread halias => makeAlias_fresh hread halias⟩
  rw [@shorts_eq (Volume.dir _ p) hsound.ended]
  exact hsound.distinct

def sampleEnv : Env := ⟨true, some 0, none⟩

/-- `foo` -/
def leafFoo : Leaf := ⟨[102, 111, 111], by decide, by decide⟩

/-- `foo.` -/
def leafFooDot : Leaf := ⟨[102, 111, 111, 46], by decide, by decide⟩

/-- `a b` -/
def leafSpaced : Leaf := ⟨[97, 32, 98], by decide, by decide⟩

/-- `a~1234567` -/
def leafTilde : Leaf := ⟨[97, 126, 49, 50, 51, 52, 53, 54, 55], by decide, by decide⟩

/-- `a~1234568` -/
def leafTilde' : Leaf := ⟨[97, 126, 49, 50, 51, 52, 53, 54, 56], by decide, by decide⟩

def sampleCalls : List Call :=
  [.writeFile sampleEnv 0 leafFoo 0, .mkdir sampleEnv 0 leafSpaced, .deleteFile 0 leafFoo]

theorem sampleRun_unique : ((run (formatted 16 1 16) sampleCalls).dir 0).shorts.Nodup := by
  have hkept : RunKept (formatted 16 1 16) sampleCalls := by
    refine ⟨fun _ => ?_, fun _ => ?_, trivial, trivial⟩
    · rw [Ordinary, if_neg (by decide)]
      exact .inl (by decide)
    · rw [Ordinary, if_pos (by decide)]
      refine ⟨readable_of_no_tilde (by decide) _, fun us hus => ?_⟩
      have hunits : utf8ToUnits leafSpaced.name FAT_NAME_MAX = some [97, 32, 98] := by decide
      rw [hunits] at hus
      cases hus
      decide
  exact (shortNames_unique 16 1 16 sampleCalls hkept 0).1

/-- `foo` and `foo.` are filed alike, and so are two names with a tilde where the number is looked for. -/
theorem shortNames_shared :
    ¬ ((run (formatted 16 1 16) [.writeFile sampleEnv 0 leafFoo 0, .writeFile sampleEnv 0 leafFooDot 0]).dir 0).shorts.Nodup ∧
      ¬ ((run (formatted 16 1 16) [.writeFile sampleEnv 0 leafTilde 0,
        .writeFile sampleEnv 0 leafTilde' 0]).dir 0).shorts.Nodup := by
  decide +kernel

end Zelr.Fat
