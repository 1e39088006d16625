import Zelr.Files.Counts

/-!
# Open files over whole runs

What every task's calls together leave of the table of descriptions.
-/

namespace Zelr.Files

variable {s s' : Fds} {held : List Nat} {v : Outside} {me fd i q : Nat} {f : OFile} {x : Int}

/-! ## `fd_pipe` -/

theorem Counted.unreserve (h : Counted held s') (htables : s'.tables = s.tables) (hme : me < s.tables.length)
    (hfd : fd < FD_MAX) (hslot : s.slot me fd = 0) : Counted held (s'.setSlot me fd (-1)) := by
  have hread : s'.slot me fd = 0 := by rw [← hslot, Fds.slot, Fds.slot, Fds.table, Fds.table, htables]
  exact h.setSlot_plain (by rw [htables]; exact hme) hfd (by omega) le_rfl (by decide)

theorem abandon_sound (hme : me < s.tables.length) (hfd : fd < FD_MAX) (hslot : s.slot me fd = 0)
    (hfresh : s.pipes q = none) (hcounted : Counted [] s') (htables : s'.tables = s.tables)
    (hpipes : s'.pipes = Function.update s.pipes q (some pipeNew))
    (hends : ∀ t : Fds, t.pipes = s.pipes → t.ofiles = s'.ofiles → Piped t) :
    Sound (closeEnd (some q) true (closeEnd (some q) false (s'.setSlot me fd (-1)))) := by
  have hback := hcounted.unreserve htables hme hfd hslot
  have hfalse := closeEnd_tables (some q) false (s'.setSlot me fd (-1))
  have htrue := closeEnd_tables (some q) true (closeEnd (some q) false (s'.setSlot me fd (-1)))
  refine ⟨hback.of_eq (htrue.1.trans hfalse.1) (htrue.2.trans hfalse.2), hends _ ?_ (htrue.2.trans hfalse.2)⟩
  exact closeEnd_both hfresh hpipes

theorem pair_sound (h : Sound s) (hme : me < s.tables.length) {r w ri wi : Nat} (hr : r < FD_MAX) (hw : w < FD_MAX)
    (hslot : s.slot me r = 0) (hempty : s.slot me w < 0) (hfresh : s.pipes q = none) {t : Fds}
    (hri : ofAlloc .pipe (s.setPipe q (some pipeNew)) = (some ri, t)) {u : Fds} (hwi : ofAlloc .pipe t = (some wi, u)) :
    Sound ((((u.setFile ri { u.file ri with pipe := some q, writing := false }).setFile wi
      { (u.setFile ri { u.file ri with pipe := some q, writing := false }).file wi with
        pipe := some q, writing := true }).setSlot me r ri).setSlot me w wi) := by
  have hzero : Counted [] (s.setPipe q (some pipeNew)) := h.counted.of_eq rfl rfl
  have hone := Counted.ofAlloc hzero (by decide) (by decide) hri
  have htwo := Counted.ofAlloc hone (by decide) (by decide) hwi
  obtain ⟨hipos, hilt, hifree, rfl⟩ := ofAlloc_some hzero hri
  obtain ⟨hwpos, hwlt, hwfree, rfl⟩ := ofAlloc_some hone hwi
  have hne : wi ≠ ri := by
    rintro rfl
    rw [file_setFile hilt, if_pos rfl] at hwfree
    cases hwfree
  rw [file_setFile hilt, if_neg hne] at hwfree
  rw [setFile_length] at hwlt
  generalize hu : (((s.setPipe q (some pipeNew)).setFile ri _).setFile wi _ : Fds) = u at htwo
  have hofiles : u.ofiles = (s.ofiles.set ri { OFile.zero with kind := .pipe, refs := 1 }).set wi
      { OFile.zero with kind := .pipe, refs := 1 } := by
    rw [← hu]
    rfl
  have hulen : u.ofiles.length = s.ofiles.length := by rw [hofiles, List.length_set, List.length_set]
  have hfile : ∀ j, u.file j = if j = wi ∨ j = ri then { OFile.zero with kind := .pipe, refs := 1 } else s.file j := by
    intro j
    rw [← hu, file_setFile (by rw [setFile_length]; exact hwlt), file_setFile hilt]
    by_cases hj : j = wi
    · rw [if_pos hj, if_pos (.inl hj)]
    · by_cases hj' : j = ri
      · rw [if_neg hj, if_pos hj', if_pos (.inr hj')]
      · rw [if_neg hj, if_neg hj', if_neg (by simp [hj, hj'])]
        rfl
  have hilt' : ri < u.ofiles.length := by
    rw [hulen]
    exact hilt
  have hwlt' : ∀ f, wi < (u.setFile ri f).ofiles.length := by
    intro f
    rw [setFile_length, hulen]
    exact hwlt
  let a : OFile := { OFile.zero with kind := .pipe, refs := 1, pipe := some q, writing := false }
  let b : OFile := { OFile.zero with kind := .pipe, refs := 1, pipe := some q, writing := true }
  have ha : { u.file ri with pipe := some q, writing := false } = a := by rw [hfile, if_pos (.inr rfl)]
  have hb : { (u.setFile ri a).file wi with pipe := some q, writing := true } = b := by
    rw [file_setFile hilt', if_neg hne, hfile, if_pos (.inl rfl)]
  rw [ha, hb]
  have hthree : Counted [wi, ri] (u.setFile ri a) := by
    refine htwo.setFile hilt' ?_ ?_
    · rw [hfile, if_pos (.inr rfl)]
    · rw [hfile, if_pos (.inr rfl)]
  have hfour : Counted [wi, ri] ((u.setFile ri a).setFile wi b) := by
    refine hthree.setFile (hwlt' _) ?_ ?_
    · rw [file_setFile hilt', if_neg hne, hfile, if_pos (.inl rfl)]
    · rw [file_setFile hilt', if_neg hne, hfile, if_pos (.inl rfl)]
  have htables : ((u.setFile ri a).setFile wi b).tables = s.tables := by
    rw [← hu]
    rfl
  have hread : ∀ k, ((u.setFile ri a).setFile wi b).slot me k = s.slot me k := by
    intro k
    rw [Fds.slot, Fds.slot, Fds.table, Fds.table, htables]
  have hpiped : Piped ((u.setFile ri a).setFile wi b) := by
    refine (h.piped.pair hfresh hilt hwlt hne ?_ ?_ ⟨rfl, rfl, rfl⟩ ⟨rfl, rfl, rfl⟩ (a := a) (b := b)).of_eq ?_ ?_
    · rw [show s.file ri = (s.setPipe q (some pipeNew)).file ri from rfl, hifree]
      intro hkind
      cases hkind
    · rw [show s.file wi = (s.setPipe q (some pipeNew)).file wi from rfl, hwfree]
      intro hkind
      cases hkind
    · rw [← hu]
      rfl
    · show (u.ofiles.set ri a).set wi b = (s.ofiles.set ri a).set wi b
      rw [hofiles, List.set_comm _ _ hne, List.set_set, List.set_set]
  have hlen : me < ((u.setFile ri a).setFile wi b).tables.length := by
    rw [htables]
    exact hme
  have hheld : Counted (keep (ri : Int) [wi]) ((u.setFile ri a).setFile wi b) := by
    rw [keep_natCast hipos]
    exact hfour.congr fun j _ => (List.Perm.swap wi ri []).count_eq j
  have hfive := hheld.setSlot hlen hr (by omega)
  rw [hread, keep_of_nonpos (by omega), ← keep_natCast hwpos] at hfive
  have hrw : w ≠ r := by
    rintro rfl
    omega
  have hsix := hfive.setSlot (by rw [setSlot_length]; exact hlen) hw (by omega)
  rw [slot_setSlot hlen (by rw [(hheld.table hlen).2]; exact hr), if_neg hrw, hread, keep_of_nonpos (by omega)] at hsix
  exact ⟨hsix, (hpiped.setSlot _ _ _).setSlot _ _ _⟩

theorem fdPipe_sound (h : Sound s) (hme : me < s.tables.length) (hfresh : ∀ q, v.kcalloc = some q → s.pipes q = none) :
    Sound (fdPipe v me s).2 := by
  unfold fdPipe
  cases hfree : lowestFree s me with
  | none => exact h
  | some r =>
    obtain ⟨hr, hempty⟩ := lowestFree_some hfree
    dsimp only
    have hreserved : Sound (s.setSlot me r OF_CONSOLE_SLOT) :=
      ⟨h.counted.setSlot_plain hme hr (by omega) (by decide) (by decide), h.piped.setSlot _ _ _⟩
    have hread := slot_setSlot hme (by rw [(h.counted.table hme).2]; exact hr) OF_CONSOLE_SLOT
    have hlen : me < (s.setSlot me r OF_CONSOLE_SLOT).tables.length := by rw [setSlot_length]; exact hme
    have hfresh' : ∀ q, v.kcalloc = some q → (s.setSlot me r OF_CONSOLE_SLOT).pipes q = none := hfresh
    generalize (s.setSlot me r OF_CONSOLE_SLOT) = t at hreserved hread hlen hfresh' ⊢
    have hslot : t.slot me r = 0 := by
      rw [hread, if_pos rfl]
      rfl
    have hundo : Sound (t.setSlot me r (-1)) :=
      ⟨hreserved.counted.unreserve rfl hlen hr hslot, hreserved.piped.setSlot _ _ _⟩
    cases hfree' : lowestFree t me with
    | none => exact hundo
    | some w =>
      obtain ⟨hw, hwempty⟩ := lowestFree_some hfree'
      cases hq : v.kcalloc with
      | none => exact hundo
      | some q =>
        have hgone := hfresh' q hq
        have hzero : Counted [] (t.setPipe q (some pipeNew)) := hreserved.counted.of_eq rfl rfl
        dsimp only
        rcases hri : ofAlloc .pipe (t.setPipe q (some pipeNew)) with ⟨_ | ri, t'⟩
        · rw [ofAlloc_none hzero hri]
          exact abandon_sound hlen hr hslot hgone hzero rfl rfl fun u hp hf => hreserved.piped.of_eq hp hf
        · dsimp only
          have hone := Counted.ofAlloc hzero (by decide) (by decide) hri
          rcases hwi : ofAlloc .pipe t' with ⟨_ | wi, u⟩
          · rw [ofAlloc_none hone hwi]
            obtain ⟨hipos, hilt, hifree, rfl⟩ := ofAlloc_some hzero hri
            have hlast := (hzero.live ri hipos).mp hifree
            refine abandon_sound hlen hr hslot hgone
              (hone.drop hipos (by rw [setFile_length]; exact hilt) hlast rfl) rfl rfl fun u hp hf => ?_
            rw [setFile_setFile] at hf
            refine (hreserved.piped.setFile_other (i := ri) hilt ?_ ?_).of_eq hp hf
            · rw [show t.file ri = (t.setPipe q (some pipeNew)).file ri from rfl, hifree]
              nofun
            · nofun
          · exact pair_sound hreserved hlen hr hw hslot hwempty hgone hri hwi

/-! ## Tasks come and go -/

theorem cloneSlot_tables (s : Fds) (x : Int) : (cloneSlot s x).tables = s.tables := by
  unfold cloneSlot
  split <;> rfl

theorem foldl_cloneSlot_tables (src : List Int) (s : Fds) : (src.foldl cloneSlot s).tables = s.tables := by
  induction src generalizing s with
  | nil => rfl
  | cons x src ih => rw [List.foldl_cons, ih, cloneSlot_tables]

theorem Counted.clone (h : Counted held s) (hp : Piped s) {src : List Int}
    (hlive : ∀ x ∈ src, 0 < x → (s.file x.toNat).kind ≠ .free)
    (hfew : ∀ i : Nat, 0 < i → s.slots i + held.count i + src.count (i : Int) < 2 ^ 16) :
    ∃ held', (∀ i : Nat, 0 < i → held'.count i = held.count i + src.count (i : Int)) ∧
      Counted held' (src.foldl cloneSlot s) ∧ Piped (src.foldl cloneSlot s) := by
  induction src generalizing s held with
  | nil => exact ⟨held, fun _ _ => rfl, h, hp⟩
  | cons x src ih =>
    rw [List.foldl_cons]
    have hrest : ∀ y ∈ src, 0 < y → (s.file y.toNat).kind ≠ .free := fun y hy => hlive y (List.mem_cons_of_mem _ hy)
    by_cases hpos : 0 < x
    · have hx := hlive x List.mem_cons_self hpos
      have hlt := lt_of_kind hx
      have hsize := h.size
      have hone : cloneSlot s x = Files.ofRef x.toNat s := if_pos ⟨hpos, by omega, hx⟩
      have hhead := hfew x.toNat (by omega)
      rw [Int.toNat_of_nonneg (by omega), List.count_cons_self] at hhead
      have hkinds : ∀ i, ((Files.ofRef x.toNat s).file i).kind = (s.file i).kind := by
        intro i
        rw [Files.ofRef, file_setFile hlt]
        split
        · rename_i heq
          rw [heq]
        · rfl
      have hcount : ∀ i : Nat, (x.toNat :: held).count i + src.count (i : Int) = held.count i + (x :: src).count (i : Int) := by
        intro i
        rw [List.count_cons, List.count_cons]
        simp only [beq_iff_eq]
        split <;> split <;> omega
      obtain ⟨held', hheld', hcounted, hpiped⟩ := ih (h.ofRef (by omega) hx (by omega)) (hp.ofRef hlt)
        (fun y hy hy' => by rw [hkinds]; exact hrest y hy hy') (fun i hi => by
          have hthis := hfew i hi
          have heq := hcount i
          rw [show (Files.ofRef x.toNat s).slots i = s.slots i from rfl]
          omega)
      rw [hone]
      exact ⟨held', fun i hi => (hheld' i hi).trans (hcount i), hcounted, hpiped⟩
    · have hone : cloneSlot s x = s := if_neg fun hall => hpos hall.1
      have hcount : ∀ i : Nat, 0 < i → (x :: src).count (i : Int) = src.count (i : Int) :=
        fun i hi => List.count_cons_of_ne (by omega)
      obtain ⟨held', hheld', hcounted, hpiped⟩ := ih h hp hrest (fun i hi => by
        have hthis := hfew i hi
        rw [hcount i hi] at hthis
        exact hthis)
      rw [hone]
      exact ⟨held', fun i hi => (hheld' i hi).trans (by rw [hcount i hi]), hcounted, hpiped⟩

theorem Counted.join (h : Counted held s) {l : List Int} (hl : l.length = FD_MAX ∧ ∀ x ∈ l, -1 ≤ x)
    (hheld : ∀ i : Nat, 0 < i → held.count i = l.count (i : Int)) :
    Counted [] { s with tables := s.tables ++ [l] } := by
  have hslots : ∀ i : Nat, 0 < i →
      ({ s with tables := s.tables ++ [l] } : Fds).slots i + 0 = s.slots i + held.count i := by
    intro i hi
    rw [hheld i hi, Fds.slots, tally_append, tally_singleton]
    rfl
  refine ⟨h.size, h.console, h.others, fun m hm => ?_, fun i hi hkind => ?_, fun i hi => ?_⟩
  · rcases List.mem_append.mp hm with hm | hm
    · exact h.tables m hm
    · cases List.mem_singleton.mp hm
      exact hl
  · rw [List.count_nil, hslots i hi]
    exact h.refs i hi hkind
  · rw [List.count_nil, hslots i hi]
    exact h.live i hi

theorem fork_sound (h : Sound s) (hme : me < s.tables.length) {child : List Int}
    (hclone : fdTableClone (s.table me) s = (child, s'))
    (hfew : ∀ i : Nat, 0 < i → ({ s' with tables := s'.tables ++ [child] } : Fds).slots i < 2 ^ 16) :
    Sound { s' with tables := s'.tables ++ [child] } := by
  unfold fdTableClone at hclone
  rw [h.counted.ensureConsole] at hclone
  cases hclone
  obtain ⟨hget, hlen⟩ := h.counted.table hme
  have hmem := List.mem_of_getElem? hget
  have htables := foldl_cloneSlot_tables (s.table me) s
  obtain ⟨held, hheld, hcounted, hpiped⟩ := @Counted.clone s [] h.counted h.piped (s.table me)
    (fun x hx hpos hfree => by
      have hzero := (h.counted.live x.toNat (by omega)).mp hfree
      have htally := tally_pos_of_mem hmem hx
      rw [Fds.slots, Int.toNat_of_nonneg (by omega)] at hzero
      omega)
    (fun i hi => by
      have hthis := hfew i hi
      rw [Fds.slots, htables, tally_append, tally_singleton] at hthis
      rw [List.count_nil, Fds.slots]
      omega)
  exact ⟨hcounted.join ⟨hlen, (h.counted.tables _ hmem).2⟩ fun i hi => by rw [hheld i hi, List.count_nil, Nat.zero_add],
    hpiped.of_eq rfl rfl⟩

theorem spawn_sound (h : Sound s) : Sound { s with tables := s.tables ++ [fdTableInit] } := by
  refine ⟨h.counted.join ⟨rfl, by decide⟩ fun i hi => ?_, h.piped.of_eq rfl rfl⟩
  rw [List.count_nil, eq_comm, List.count_eq_zero]
  intro hmem
  unfold fdTableInit at hmem
  rcases List.mem_append.mp hmem with hmem | hmem
  · have hzero := List.eq_of_mem_replicate hmem
    rw [OF_CONSOLE_SLOT] at hzero
    omega
  · have hneg := List.eq_of_mem_replicate hmem
    omega

theorem releaseFrom_sound (h : Sound s) (hme : me < s.tables.length) {k : Nat} (hfd : fd + k ≤ FD_MAX) :
    Sound (releaseFrom v me fd k s) := by
  induction k generalizing fd s with
  | zero => exact h
  | succ k ih =>
    unfold releaseFrom
    dsimp only
    have hslot : fd < FD_MAX := by omega
    by_cases hopen : s.slot me fd ≥ 0
    · rw [if_pos hopen]
      have hdone := h.release hme hslot v
      rw [ofUnref_setSlot] at hdone
      refine ih hdone ?_ (by omega)
      rw [setSlot_length, ofUnref_tables]
      exact hme
    · rw [if_neg hopen]
      refine ih ⟨h.counted.setSlot_plain hme hslot (by omega) le_rfl (by decide), h.piped.setSlot _ _ _⟩ ?_ (by omega)
      rw [setSlot_length]
      exact hme

/-! ## Runs -/

/-- The number of slots that point at one description fits its counter. -/
def Uncrowded (s : Fds) : Prop := ∀ i, 0 < i → s.slots i < 2 ^ 16

theorem fdStep_sound (h : Sound s) {op : Op} (hstep : fdStep v me op s = some s') (hfew : Uncrowded s') : Sound s' := by
  unfold fdStep at hstep
  split at hstep
  · cases hstep
  · have hme : me < s.tables.length := by omega
    cases op with
    | «open» path flags =>
      obtain ⟨⟨r, t⟩, hopen, rfl⟩ := Option.map_eq_some_iff.mp hstep
      exact fdOpen_sound h hme hopen
    | dup fd =>
      cases hstep
      exact fdDup_sound h hme fd hfew
    | dup2 fd dst =>
      cases hstep
      exact fdDup2_sound h hme v fd dst hfew
    | pipe =>
      dsimp only at hstep
      split at hstep
      · rename_i hfresh
        cases hstep
        refine fdPipe_sound h hme fun q hq => ?_
        rw [hq] at hfresh
        exact Option.isNone_iff_eq_none.mp hfresh
      · cases hstep
    | close fd =>
      cases hstep
      exact fdClose_sound h hme v fd
    | fork room =>
      cases room with
      | true =>
        cases hstep
        exact fork_sound h hme rfl hfew
      | false =>
        cases hstep
        exact h
    | spawn =>
      cases hstep
      rw [h.counted.ensureConsole]
      exact spawn_sound h
    | exit =>
      rw [← Option.some.inj hstep]
      exact releaseFrom_sound h hme (Nat.zero_add _).le

/-- From the start of the machine, through states that are all `ok`. -/
inductive Fds.Run (ok : Fds → Prop) : Fds → Prop where
  | start : Fds.Run ok fdInit
  | step {s s' : Fds} {v : Outside} {me : Nat} {op : Op} (h : Fds.Run ok s)
      (hstep : fdStep v me op s = some s') (hok : ok s') : Fds.Run ok s'

theorem fdInit_sound : Sound fdInit := by
  have hfile : ∀ i, 0 < i → fdInit.file i = .zero := by
    intro i hi
    have hcons : fdInit.ofiles = { OFile.zero with kind := .console, refs := 1 } :: List.replicate 31 .zero := rfl
    rw [Fds.file, hcons, List.getD_eq_getElem?_getD]
    obtain ⟨j, rfl⟩ : ∃ j, i = j + 1 := ⟨i - 1, by omega⟩
    rw [List.getElem?_cons_succ, List.getElem?_replicate]
    split <;> rfl
  have hslots : ∀ i : Nat, 0 < i → fdInit.slots i = 0 := by
    intro i hi
    have htables : fdInit.tables = [fdTableInit] := rfl
    rw [Fds.slots, htables, tally_singleton, List.count_eq_zero]
    intro hmem
    rcases List.mem_append.mp hmem with hmem | hmem
    · have hzero := List.eq_of_mem_replicate hmem
      rw [OF_CONSOLE_SLOT] at hzero
      omega
    · have hneg := List.eq_of_mem_replicate hmem
      omega
  have hends : ∀ q we, fdInit.ends q we = 0 := by
    intro q we
    rw [Fds.ends, List.countP_eq_zero]
    intro f hf
    have hkind : ∀ f ∈ fdInit.ofiles, f.kind ≠ .pipe := by decide
    rw [isEnd_of_kind (hkind f hf)]
    exact Bool.false_ne_true
  refine ⟨⟨by decide, by decide, fun i hi => ?_, by decide, fun i hi hkind => ?_, fun i hi => ?_⟩,
    ⟨fun q p hp => ?_, fun q hq we => hends q we, fun i hi => ?_⟩⟩
  · rw [hfile i hi]
    intro hkind
    cases hkind
  · rw [hfile i hi] at hkind
    exact absurd rfl hkind
  · rw [hfile i hi, hslots i hi]
    exact ⟨fun _ => rfl, fun _ => rfl⟩
  · cases hp
  · rcases Nat.eq_zero_or_pos i with rfl | hpos
    · rw [show (fdInit.file 0).kind = .console from rfl] at hi
      cases hi
    · rw [hfile i hpos] at hi
      cases hi

theorem Fds.Run.sound (h : s.Run Uncrowded) : Sound s := by
  induction h with
  | start => exact fdInit_sound
  | step h hstep hok ih => exact fdStep_sound ih hstep hok

/-- A description other than the console's counts the slots that point at it and is free exactly when there are none,
and a pipe counts the descriptions of its ends; the console is never freed. -/
theorem descriptions_counted (s : Fds) (h : s.Run Uncrowded) :
    (∀ i, 0 < i → ((s.file i).kind = .free ↔ s.slots i = 0) ∧
      ((s.file i).kind ≠ .free → (s.file i).refs = s.slots i)) ∧
    (s.file 0).kind = .console ∧
    (∀ l ∈ s.tables, ∀ x ∈ l, x ≠ -1 → ∃ i : Nat, i < OF_MAX ∧ x = i ∧ (s.file i).kind ≠ .free) ∧
    (∀ q p, s.pipes q = some p → p.readers = s.ends q false ∧ p.writers = s.ends q true) ∧
    ∀ i, (s.file i).kind = .pipe → ∃ q p, (s.file i).pipe = some q ∧ s.pipes q = some p := by
  obtain ⟨hcounted, hpiped⟩ := h.sound
  refine ⟨fun i hi => ⟨hcounted.live i hi, hcounted.refs i hi⟩, hcounted.console.1, fun l hl x hx hne => ?_,
    fun q p hp => ⟨(hpiped.count q p hp).1, (hpiped.count q p hp).2.1⟩, fun i hi => ?_⟩
  · have hlow := (hcounted.tables l hl).2 x hx
    refine ⟨x.toNat, ?_⟩
    rcases Int.le_iff_eq_or_lt.mp (show 0 ≤ x by omega) with hzero | hpos
    · rw [← hzero]
      refine ⟨by decide, rfl, ?_⟩
      rw [show (0 : Int).toNat = 0 from rfl, hcounted.console.1]
      nofun
    · have hkind : (s.file x.toNat).kind ≠ .free := by
        intro hfree
        have hzero := (hcounted.live x.toNat (by omega)).mp hfree
        have htally := tally_pos_of_mem hl hx
        rw [Fds.slots, Int.toNat_of_nonneg (by omega)] at hzero
        omega
      have hlt := lt_of_kind hkind
      rw [hcounted.size] at hlt
      exact ⟨hlt, by omega, hkind⟩
  · obtain ⟨q, hq⟩ := Option.ne_none_iff_exists'.mp (hpiped.ptr i hi)
    cases hp : s.pipes q with
    | some p => exact ⟨q, p, hq, hp⟩
    | none =>
      have hzero := hpiped.gone q hp (s.file i).writing
      rw [Fds.ends, List.countP_eq_zero] at hzero
      have hlt : i < s.ofiles.length := by
        by_contra hge
        rw [file_of_le (by omega)] at hi
        cases hi
      have hmem : s.file i ∈ s.ofiles := by
        rw [Fds.file, List.getD_eq_getElem?_getD, List.getElem?_eq_getElem hlt, Option.getD_some]
        exact List.getElem_mem hlt
      exact absurd (decide_eq_true ⟨hi, hq, rfl⟩) (hzero _ hmem)

theorem uncrowded_of_few (h : (s.tables.map List.length).sum < 2 ^ 16) : Uncrowded s :=
  fun i _ => lt_of_le_of_lt (tally_le (i : Int) s.tables) h

def quiet : Outside where
  resolve := some
  volumeMissing _ := false
  stat _ := none
  generated _ := false
  read _ _ := none
  write _ _ := true
  kmalloc _ := true
  kcalloc := none

/-- A program makes a pipe, forks, and closes its own reading end. -/
theorem sampleFds_counted : ∃ s : Fds, s.Run Uncrowded ∧ s.slots 1 = 1 ∧ (s.file 1).refs = s.slots 1 ∧
    s.slots 2 = 2 ∧ (s.file 2).refs = s.slots 2 ∧ (s.pipes 7).map (fun p => (p.readers, p.writers)) = some (1, 1) := by
  have hspawn := @Fds.Run.step Uncrowded _ _ quiet 0 .spawn .start rfl (uncrowded_of_few (by decide +kernel))
  have hpipe := @Fds.Run.step _ _ _ { quiet with kcalloc := some 7 } 1 .pipe hspawn rfl
    (uncrowded_of_few (by decide +kernel))
  have hfork := @Fds.Run.step _ _ _ quiet 1 (.fork true) hpipe rfl (uncrowded_of_few (by decide +kernel))
  have hclose := @Fds.Run.step _ _ _ quiet 1 (.close 3) hfork rfl (uncrowded_of_few (by decide +kernel))
  obtain ⟨hcount, -, -, -, -⟩ := descriptions_counted _ hclose
  exact ⟨_, hclose, by decide +kernel, (hcount 1 (by decide)).2 (by decide +kernel), by decide +kernel,
    (hcount 2 (by decide)).2 (by decide +kernel), by decide +kernel⟩

/-- When no slot of any table points at anything but the console, every other description is free and no pipe is left. -/
theorem nothing_leaks (s : Fds) (h : s.Run Uncrowded) (hnone : ∀ l ∈ s.tables, ∀ x ∈ l, x ≤ 0) :
    (∀ i, 0 < i → (s.file i).kind = .free) ∧ ∀ q, s.pipes q = none := by
  obtain ⟨hcounted, hpiped⟩ := h.sound
  have hfree : ∀ i, 0 < i → (s.file i).kind = .free := by
    intro i hi
    rw [hcounted.live i hi]
    have hzero : s.slots i = 0 := by
      rw [Fds.slots, tally, List.sum_eq_zero_iff]
      intro n hn
      obtain ⟨l, hl, rfl⟩ := List.mem_map.mp hn
      rw [List.count_eq_zero]
      intro hmem
      have := hnone l hl _ hmem
      omega
    rw [hzero]
    rfl
  refine ⟨hfree, fun q => ?_⟩
  have hends : ∀ we, s.ends q we = 0 := by
    intro we
    rw [Fds.ends, List.countP_eq_zero]
    intro f hf
    obtain ⟨i, hi, rfl⟩ := List.getElem_of_mem hf
    have hfile : s.file i = s.ofiles[i] := by
      rw [Fds.file, List.getD_eq_getElem?_getD, List.getElem?_eq_getElem hi, Option.getD_some]
    rw [← hfile, isEnd_of_kind]
    · exact Bool.false_ne_true
    · rcases Nat.eq_zero_or_pos i with rfl | hpos
      · rw [hcounted.console.1]
        decide
      · rw [hfree i hpos]
        decide
  rw [Option.eq_none_iff_forall_ne_some]
  intro p hp
  obtain ⟨hreaders, hwriters, hpos⟩ := hpiped.count q p hp
  rw [hreaders, hwriters, hends, hends] at hpos
  exact absurd hpos (lt_irrefl _)

/-- A program makes a pipe and ends. -/
theorem nothing_leaks_sample : ∃ s t : Fds, s.Run Uncrowded ∧ (s.file 1).kind = .pipe ∧
    fdStep quiet 1 .exit s = some t ∧ (t.file 1).kind = .free ∧ t.pipes 7 = none := by
  have hspawn := @Fds.Run.step Uncrowded _ _ quiet 0 .spawn .start rfl (uncrowded_of_few (by decide +kernel))
  have hpipe := @Fds.Run.step _ _ _ { quiet with kcalloc := some 7 } 1 .pipe hspawn rfl
    (uncrowded_of_few (by decide +kernel))
  have hexit := @Fds.Run.step _ _ _ quiet 1 .exit hpipe rfl (uncrowded_of_few (by decide +kernel))
  obtain ⟨hfiles, hpipes⟩ := nothing_leaks _ hexit (by decide +kernel)
  exact ⟨_, _, hpipe, by decide +kernel, rfl, hfiles 1 (by decide), hpipes 7⟩

/-! ## More slots than a counter can count -/

def crowd (refs n : Nat) : Fds where
  ofiles := { OFile.zero with kind := .console, refs := 1 } ::
    { OFile.zero with kind := .file, refs, path := ascii "/log", writable := true, dirty := true } ::
      List.replicate 30 .zero
  pipes _ := none
  tables := fdTableInit :: List.replicate (n + 1) (List.replicate FD_MAX 1)

theorem crowd_cloneSlot (r n : Nat) : cloneSlot (crowd r n) 1 = crowd ((r + 1) % 2 ^ 16) n := rfl

theorem crowd_clone (k r n : Nat) : (List.replicate k 1).foldl cloneSlot (crowd (r % 2 ^ 16) n) = crowd ((r + k) % 2 ^ 16) n := by
  induction k generalizing r with
  | zero => rfl
  | succ k ih =>
    rw [List.replicate_succ, List.foldl_cons, crowd_cloneSlot, Nat.mod_add_mod, ih]
    congr 2
    omega

theorem crowd_fork (r n : Nat) :
    fdStep quiet 1 (.fork true) (crowd (r % 2 ^ 16) n) = some (crowd ((r + FD_MAX) % 2 ^ 16) (n + 1)) := by
  have htable : (crowd (r % 2 ^ 16) n).table 1 = List.replicate FD_MAX 1 := rfl
  unfold fdStep
  rw [if_neg (by simp [crowd])]
  dsimp only [if_true]
  rw [if_pos rfl, fdTableClone, htable, show ensureConsole (crowd (r % 2 ^ 16) n) = crowd (r % 2 ^ 16) n from rfl,
    crowd_clone]
  unfold crowd
  simp only [List.cons_append, List.replicate_succ' (n := n + 1)]

def runCalls (s : Fds) : List Op → Option Fds
  | [] => some s
  | op :: ops => (fdStep quiet 1 op s).bind fun s => runCalls s ops

theorem Fds.Run.calls {ok : Fds → Prop} (hok : ∀ s, ok s) (h : s.Run ok) {ops : List Op}
    (hrun : runCalls s ops = some s') : s'.Run ok := by
  induction ops generalizing s with
  | nil =>
    cases hrun
    exact h
  | cons op ops ih =>
    obtain ⟨t, hstep, hrest⟩ := Option.bind_eq_some_iff.mp hrun
    exact ih (h.step hstep (hok t)) hrest

def fillTable : List Op :=
  .open (ascii "/log") O_CREATE :: .dup2 3 0 :: .dup2 3 1 :: .dup2 3 2 :: List.replicate 12 (.dup 3)

theorem fillTable_run : (fdStep quiet 0 .spawn fdInit).bind (fun s => runCalls s fillTable) = some (crowd 16 0) := rfl

theorem crowd_run (n : Nat) : (crowd ((16 * (n + 1)) % 2 ^ 16) n).Run fun _ => True := by
  induction n with
  | zero =>
    obtain ⟨s, hspawn, hcalls⟩ := Option.bind_eq_some_iff.mp fillTable_run
    exact (Fds.Run.start.step hspawn trivial).calls (fun _ => trivial) hcalls
  | succ n ih =>
    have hnext := ih.step (crowd_fork _ _) trivial
    rwa [show 16 * (n + 1) + FD_MAX = 16 * (n + 1 + 1) from rfl] at hnext

theorem crowd_slots (r n : Nat) : (crowd r n).slots 1 = 16 * (n + 1) := by
  have hfirst : fdTableInit.count ((1 : Nat) : Int) = 0 := by decide
  have hothers : ∀ k, tally ((1 : Nat) : Int) (List.replicate k (List.replicate FD_MAX (1 : Int))) = FD_MAX * k := by
    intro k
    induction k with
    | zero => rfl
    | succ k ih =>
      rw [List.replicate_succ, tally, List.map_cons, List.sum_cons]
      rw [tally] at ih
      rw [ih, show ((1 : Nat) : Int) = 1 from rfl, List.count_replicate_self]
      ring
  have hall : (crowd r n).slots 1 = fdTableInit.count ((1 : Nat) : Int) +
      tally ((1 : Nat) : Int) (List.replicate (n + 1) (List.replicate FD_MAX (1 : Int))) := rfl
  rw [hall, hfirst, hothers, Nat.zero_add]
  rfl

/-- The console counts one whatever points at it, and a counter that has come round says nothing points at
a file in every slot of four thousand tables. -/
theorem fdInit_miscounted :
    ((fdInit.file 0).kind = .console ∧ (fdInit.file 0).refs = 1 ∧ fdInit.slots 0 = 3) ∧
      ∃ s : Fds, s.Run (fun _ => True) ∧ (s.file 1).kind = .file ∧ (s.file 1).refs = 0 ∧ s.slots 1 = 65536 := by
  refine ⟨⟨rfl, rfl, rfl⟩, _, crowd_run 4095, rfl, ?_, crowd_slots _ _⟩
  show (16 * (4095 + 1)) % 2 ^ 16 = 0
  decide

end Zelr.Files
