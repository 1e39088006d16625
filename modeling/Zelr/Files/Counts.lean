import Zelr.Base.Tally
import Zelr.Files.Fd

/-!
# References to open files

A description counts the slots that point at it.
-/

namespace Zelr.Files

variable {kind : OfKind} {flags : Nat} {r : Option Nat}

namespace Fds

def slots (s : Fds) (i : Nat) : Nat := tally (i : Int) s.tables

end Fds

def keep (v : Int) (held : List Nat) : List Nat := if 0 < v then v.toNat :: held else held

/-- What the table of descriptions says about the slots and the references held besides. -/
structure Counted (held : List Nat) (s : Fds) : Prop where
  size : s.ofiles.length = OF_MAX
  console : (s.file 0).kind = .console ∧ (s.file 0).refs = 1
  others : ∀ i, 0 < i → (s.file i).kind ≠ .console
  tables : ∀ l ∈ s.tables, l.length = FD_MAX ∧ ∀ v ∈ l, -1 ≤ v
  refs : ∀ i, 0 < i → (s.file i).kind ≠ .free → (s.file i).refs = s.slots i + held.count i
  live : ∀ i, 0 < i → ((s.file i).kind = .free ↔ s.slots i + held.count i = 0)

variable {s s' : Fds} {held held' : List Nat} {v : Outside} {me fd dst i q : Nat} {f : OFile} {x : Int}

/-! ## Reading and writing -/

theorem file_setFile (hi : i < s.ofiles.length) (f : OFile) (j : Nat) :
    (s.setFile i f).file j = if j = i then f else s.file j := by
  unfold Fds.file Fds.setFile
  dsimp only
  rw [List.getD_eq_getElem?_getD, List.getD_eq_getElem?_getD]
  split
  · subst j
    rw [List.getElem?_set_self hi, Option.getD_some]
  · rw [List.getElem?_set_ne (Ne.symm ‹_›)]

@[simp] theorem setFile_length (i : Nat) (f : OFile) : (s.setFile i f).ofiles.length = s.ofiles.length :=
  List.length_set

theorem file_of_le (h : s.ofiles.length ≤ i) : s.file i = .zero := by
  rw [Fds.file, List.getD_eq_getElem?_getD, List.getElem?_eq_none h, Option.getD_none]

theorem Counted.table (h : Counted held s) (hme : me < s.tables.length) :
    s.tables[me]? = some (s.table me) ∧ (s.table me).length = FD_MAX := by
  have hget : s.tables[me]? = some (s.table me) := by
    rw [Fds.table, List.getD_eq_getElem?_getD, List.getElem?_eq_getElem hme, Option.getD_some]
  exact ⟨hget, (h.tables _ (List.mem_of_getElem? hget)).1⟩

theorem Counted.slot (h : Counted held s) (hme : me < s.tables.length) (hfd : fd < FD_MAX) :
    (s.table me)[fd]? = some (s.slot me fd) := by
  have hlen := (h.table hme).2
  rw [Fds.slot, List.getD_eq_getElem?_getD, List.getElem?_eq_getElem (by omega), Option.getD_some]

theorem table_setSlot (hme : me < s.tables.length) (x : Int) : (s.setSlot me fd x).table me = (s.table me).set fd x := by
  unfold Fds.setSlot Fds.setTable
  rw [Fds.table, List.getD_eq_getElem?_getD, List.getElem?_set_self hme, Option.getD_some]

theorem slot_setSlot (hme : me < s.tables.length) (hfd : fd < (s.table me).length) (x : Int) (k : Nat) :
    (s.setSlot me fd x).slot me k = if k = fd then x else s.slot me k := by
  rw [Fds.slot, table_setSlot hme, List.getD_eq_getElem?_getD]
  split
  · subst k
    rw [List.getElem?_set_self hfd, Option.getD_some]
  · rw [List.getElem?_set_ne (Ne.symm ‹_›), Fds.slot, List.getD_eq_getElem?_getD]

theorem setSlot_setSlot (hme : me < s.tables.length) (x y : Int) :
    (s.setSlot me fd x).setSlot me fd y = s.setSlot me fd y := by
  rw [Fds.setSlot, table_setSlot hme, List.set_set]
  unfold Fds.setSlot Fds.setTable
  dsimp only
  rw [List.set_set]

theorem slots_setSlot (h : Counted held s) (hme : me < s.tables.length) (hfd : fd < FD_MAX) (x : Int) (i : Nat) :
    (s.setSlot me fd x).slots i + (if s.slot me fd = i then 1 else 0) =
      s.slots i + if x = i then 1 else 0 :=
  tally_set _ (h.table hme).1 (h.slot hme hfd) x

theorem count_keep (v : Int) (held : List Nat) (hi : 0 < i) :
    (keep v held).count i = held.count i + if v = i then 1 else 0 := by
  unfold keep
  split
  · rw [List.count_cons]
    congr 1
    simp only [beq_iff_eq]
    split <;> split <;> omega
  · rw [if_neg (by omega)]
    rfl

theorem keep_of_nonpos (h : x ≤ 0) : keep x held = held := if_neg (by omega)

theorem keep_natCast (hi : 0 < i) : keep (i : Int) held = i :: held := by
  rw [keep, if_pos (by omega), Int.toNat_natCast]

/-! ## What each step of a call does to the counts -/

section
variable (h : Counted held s)
include h

theorem Counted.congr (heq : ∀ i, 0 < i → held'.count i = held.count i) : Counted held' s where
  size := h.size
  console := h.console
  others := h.others
  tables := h.tables
  refs i hi hkind := by rw [h.refs i hi hkind, heq i hi]
  live i hi := by rw [h.live i hi, heq i hi]

omit h in
theorem Counted.setSlot (h : Counted (keep x held) s) (hme : me < s.tables.length) (hfd : fd < FD_MAX)
    (hx : -1 ≤ x) : Counted (keep (s.slot me fd) held) (s.setSlot me fd x) := by
  have hsum : ∀ i, 0 < i → (s.setSlot me fd x).slots i + (keep (s.slot me fd) held).count i =
      s.slots i + (keep x held).count i := by
    intro i hi
    have hslots := slots_setSlot h hme hfd x i
    rw [count_keep _ _ hi, count_keep _ _ hi]
    omega
  refine ⟨h.size, h.console, h.others, fun l hl => ?_, fun i hi hkind => ?_, fun i hi => ?_⟩
  · rcases List.mem_or_eq_of_mem_set hl with hl | rfl
    · exact h.tables l hl
    · obtain ⟨hlen, hlow⟩ := h.tables _ (List.mem_of_getElem? (h.table hme).1)
      refine ⟨(List.length_set).trans hlen, fun y hy => ?_⟩
      rcases List.mem_or_eq_of_mem_set hy with hy | rfl
      · exact hlow y hy
      · exact hx
  · rw [hsum i hi]
    exact h.refs i hi hkind
  · rw [hsum i hi]
    exact h.live i hi

omit h in
theorem lt_of_kind (hkind : (s.file i).kind ≠ .free) : i < s.ofiles.length := by
  by_contra hge
  exact hkind (by rw [file_of_le (by omega)]; rfl)

theorem Counted.setFile (hlt : i < s.ofiles.length)
    (hkind : f.kind = (s.file i).kind) (hrefs : f.refs = (s.file i).refs) : Counted held (s.setFile i f) := by
  have hfile : ∀ j, ((s.setFile i f).file j).kind = (s.file j).kind ∧
      ((s.setFile i f).file j).refs = (s.file j).refs := by
    intro j
    rw [file_setFile hlt]
    split
    · subst j
      exact ⟨hkind, hrefs⟩
    · exact ⟨rfl, rfl⟩
  refine ⟨(List.length_set).trans h.size, ?_, fun j hj => ?_, h.tables, fun j hj => ?_, fun j hj => ?_⟩
  · rw [(hfile 0).1, (hfile 0).2]
    exact h.console
  · rw [(hfile j).1]
    exact h.others j hj
  · rw [(hfile j).1, (hfile j).2]
    exact h.refs j hj
  · rw [(hfile j).1]
    exact h.live j hj

theorem Counted.recount (hi : 0 < i) (hlt : i < s.ofiles.length)
    (hothers : ∀ j, j ≠ i → held'.count j = held.count j) (hconsole : f.kind ≠ .console)
    (hrefs : f.kind ≠ .free → f.refs = s.slots i + held'.count i)
    (hlive : f.kind = .free ↔ s.slots i + held'.count i = 0) : Counted held' (s.setFile i f) := by
  refine ⟨(List.length_set).trans h.size, ?_, fun j hj => ?_, h.tables, fun j hj => ?_, fun j hj => ?_⟩
  · rw [file_setFile hlt, if_neg (by omega)]
    exact h.console
  · rw [file_setFile hlt]
    split
    · exact hconsole
    · exact h.others j hj
  · rw [file_setFile hlt]
    split
    · subst j
      exact hrefs
    · rw [hothers j ‹_›]
      exact h.refs j hj
  · rw [file_setFile hlt]
    split
    · subst j
      exact hlive
    · rw [hothers j ‹_›]
      exact h.live j hj

theorem Counted.ensureConsole : ensureConsole s = s := if_pos h.console.1

theorem Counted.ofRef (hi : 0 < i) (hkind : (s.file i).kind ≠ .free)
    (hfits : s.slots i + held.count i + 1 < 2 ^ 16) : Counted (i :: held) (ofRef i s) := by
  have hrefs := h.refs i hi hkind
  refine h.recount hi (lt_of_kind hkind) (fun j hj => List.count_cons_of_ne hj.symm) (h.others i hi) (fun _ => ?_) ?_
  · show ((s.file i).refs + 1) % 2 ^ 16 = _
    rw [List.count_cons_self, hrefs, Nat.mod_eq_of_lt hfits]
    omega
  · rw [List.count_cons_self]
    exact ⟨fun hfree => absurd hfree hkind, fun hzero => by omega⟩

theorem ofAlloc_some (hsome : ofAlloc kind s = (some i, s')) :
    0 < i ∧ i < s.ofiles.length ∧ (s.file i).kind = .free ∧
      s' = s.setFile i { OFile.zero with kind, refs := 1 } := by
  unfold ofAlloc at hsome
  rw [h.ensureConsole] at hsome
  dsimp only at hsome
  split at hsome
  · rename_i j hfind
    cases hsome
    have hmem := List.mem_range'_1.mp (List.mem_of_find?_eq_some hfind)
    have hfree := List.find?_some hfind
    have hsize := h.size
    have hmax : OF_MAX = 32 := rfl
    exact ⟨by omega, by omega, of_decide_eq_true hfree, rfl⟩
  · cases hsome

theorem ofAlloc_none (hnone : ofAlloc kind s = (none, s')) : s' = s := by
  unfold ofAlloc at hnone
  rw [h.ensureConsole] at hnone
  dsimp only at hnone
  split at hnone
  · cases hnone
  · cases hnone
    rfl

theorem Counted.ofAlloc (hfree : kind ≠ .free) (hconsole : kind ≠ .console)
    (hsome : ofAlloc kind s = (some i, s')) : Counted (i :: held) s' := by
  obtain ⟨hi, hlt, hkind, rfl⟩ := ofAlloc_some h hsome
  have hnone := (h.live i hi).mp hkind
  refine h.recount hi hlt (fun j hj => List.count_cons_of_ne hj.symm) hconsole (fun _ => ?_) ?_
  · rw [List.count_cons_self]
    show 1 = _
    omega
  · rw [List.count_cons_self]
    exact ⟨fun h => absurd h hfree, fun hzero => by omega⟩

omit h in
theorem Counted.drop (h : Counted (i :: held) s) (hi : 0 < i) (hlt : i < s.ofiles.length)
    (hlast : s.slots i + held.count i = 0) (hfree : f.kind = .free) : Counted held (s.setFile i f) := by
  refine h.recount hi hlt (fun j hj => (List.count_cons_of_ne hj.symm).symm) ?_ (fun hne => absurd hfree hne) ?_
  · rw [hfree]
    nofun
  · exact ⟨fun _ => hlast, fun _ => hfree⟩

omit h in
theorem closeEnd_tables (q : Option Nat) (we : Bool) (s : Fds) :
    (closeEnd q we s).tables = s.tables ∧ (closeEnd q we s).ofiles = s.ofiles := by
  unfold closeEnd
  split
  · exact ⟨rfl, rfl⟩
  · split <;> exact ⟨rfl, rfl⟩

theorem Counted.of_eq (htables : s'.tables = s.tables) (hofiles : s'.ofiles = s.ofiles) :
    Counted held s' := by
  have hfile : ∀ i, s'.file i = s.file i := fun i => by rw [Fds.file, Fds.file, hofiles]
  have hslots : ∀ i, s'.slots i = s.slots i := fun i => by rw [Fds.slots, Fds.slots, htables]
  exact ⟨hofiles ▸ h.size, hfile 0 ▸ h.console, fun i hi => hfile i ▸ h.others i hi, htables ▸ h.tables,
    fun i hi => by rw [hfile, hslots]; exact h.refs i hi, fun i hi => by rw [hfile, hslots]; exact h.live i hi⟩

end

theorem ofUnref_cases (v : Outside) (x : Int) (s : Fds) :
    ((x ≤ 0 ∨ OF_MAX ≤ x ∨ (s.file x.toNat).kind = .free) ∧ (ofUnref v x s).2 = s) ∨
      (0 < x ∧ x < OF_MAX ∧ (s.file x.toNat).kind ≠ .free ∧ 1 < (s.file x.toNat).refs ∧
        (ofUnref v x s).2 = s.setFile x.toNat { s.file x.toNat with refs := (s.file x.toNat).refs - 1 }) ∨
      (0 < x ∧ x < OF_MAX ∧ (s.file x.toNat).kind ≠ .free ∧ (s.file x.toNat).refs ≤ 1 ∧
        (ofUnref v x s).2 = (if (s.file x.toNat).kind = .pipe then
          closeEnd (s.file x.toNat).pipe (s.file x.toNat).writing s else s).setFile x.toNat .zero) := by
  unfold ofUnref
  by_cases hrange : x ≤ OF_CONSOLE_SLOT ∨ x ≥ OF_MAX
  · rw [if_pos hrange]
    rcases hrange with hlow | hhigh
    · exact .inl ⟨.inl hlow, rfl⟩
    · exact .inl ⟨.inr (.inl hhigh), rfl⟩
  · have hpos : 0 < x ∧ x < OF_MAX := by
      rw [OF_CONSOLE_SLOT] at hrange
      omega
    rw [if_neg hrange]
    dsimp only
    by_cases hfree : (s.file x.toNat).kind = .free
    · rw [if_pos hfree]
      exact .inl ⟨.inr (.inr hfree), rfl⟩
    · rw [if_neg hfree]
      by_cases hmany : (s.file x.toNat).refs > 1
      · rw [if_pos hmany]
        exact .inr (.inl ⟨hpos.1, hpos.2, hfree, hmany, rfl⟩)
      · rw [if_neg hmany]
        refine .inr (.inr ⟨hpos.1, hpos.2, hfree, by omega, ?_⟩)
        cases hkind : (s.file x.toNat).kind with
        | free => exact absurd hkind hfree
        | console => rfl
        | file => rfl
        | pipe => rfl

theorem Counted.ofUnref (h : Counted (keep x held) s) (v : Outside) : Counted held (ofUnref v x s).2 := by
  rcases ofUnref_cases v x s with ⟨hnone, heq⟩ | ⟨hpos, hlt, hkind, hmany, heq⟩ | ⟨hpos, hlt, hkind, hlast, heq⟩
  · rw [heq]
    by_cases hpos : 0 < x
    · -- a reference that is held is to a live description
      have hfree : (s.file x.toNat).kind = .free := by
        rcases hnone with hle | hge | hfree
        · omega
        · rw [file_of_le (by have := h.size; omega)]
          rfl
        · exact hfree
      have hzero := (h.live x.toNat (by omega)).mp hfree
      rw [count_keep _ _ (by omega), if_pos (by omega)] at hzero
      omega
    · rw [keep_of_nonpos (by omega)] at h
      exact h
  · rw [heq]
    rw [keep, if_pos hpos] at h
    have hi : 0 < x.toNat := by omega
    have hrefs := h.refs _ hi hkind
    rw [List.count_cons_self] at hrefs
    refine h.recount hi (lt_of_kind hkind) (fun j hj => (List.count_cons_of_ne hj.symm).symm) (h.others _ hi)
      (fun _ => ?_) ?_
    · show (s.file x.toNat).refs - 1 = _
      omega
    · exact ⟨fun hfree => absurd hfree hkind, fun hzero => by omega⟩
  · rw [heq]
    rw [keep, if_pos hpos] at h
    have hi : 0 < x.toNat := by omega
    have hrefs := h.refs _ hi hkind
    rw [List.count_cons_self] at hrefs
    split
    · obtain ⟨htables, hofiles⟩ := closeEnd_tables (s.file x.toNat).pipe (s.file x.toNat).writing s
      refine (h.of_eq htables hofiles).drop hi (by rw [hofiles]; exact lt_of_kind hkind) ?_ rfl
      rw [Fds.slots, htables]
      show s.slots _ + _ = 0
      omega
    · exact h.drop hi (lt_of_kind hkind) (by omega) rfl

/-! ## The ends of pipes -/

def isEnd (q : Nat) (writeEnd : Bool) (f : OFile) : Bool :=
  f.kind = .pipe ∧ f.pipe = some q ∧ f.writing = writeEnd

/-- How many descriptions there are of one end of a pipe. -/
def Fds.ends (s : Fds) (q : Nat) (writeEnd : Bool) : Nat := s.ofiles.countP (isEnd q writeEnd)

/-- A pipe knows its ends, and is there as long as it has one. -/
structure Piped (s : Fds) : Prop where
  count : ∀ q p, s.pipes q = some p →
    p.readers = s.ends q false ∧ p.writers = s.ends q true ∧ 0 < p.readers + p.writers
  gone : ∀ q, s.pipes q = none → ∀ writeEnd, s.ends q writeEnd = 0
  ptr : ∀ i, (s.file i).kind = .pipe → (s.file i).pipe ≠ none

theorem ends_setFile (hi : i < s.ofiles.length) (f : OFile) (q : Nat) (we : Bool) :
    (s.setFile i f).ends q we + (if isEnd q we (s.file i) then 1 else 0) =
      s.ends q we + if isEnd q we f then 1 else 0 :=
  countP_set_add _ (by rw [Fds.file, List.getD_eq_getElem?_getD, List.getElem?_eq_getElem hi, Option.getD_some]) f

theorem Piped.setFile (h : Piped s) (hi : i < s.ofiles.length)
    (hend : ∀ q we, isEnd q we f = isEnd q we (s.file i)) (hptr : f.kind = .pipe → f.pipe ≠ none) :
    Piped (s.setFile i f) := by
  have hends : ∀ q we, (s.setFile i f).ends q we = s.ends q we := by
    intro q we
    have hsum := ends_setFile hi f q we
    rw [hend] at hsum
    omega
  refine ⟨fun q p hp => ?_, fun q hq we => ?_, fun j hj => ?_⟩
  · rw [hends, hends]
    exact h.count q p hp
  · rw [hends]
    exact h.gone q hq we
  · rw [file_setFile hi] at hj ⊢
    split at hj
    · rw [if_pos ‹_›]
      exact hptr hj
    · rw [if_neg ‹_›]
      exact h.ptr j hj

theorem isEnd_of_kind (h : f.kind ≠ .pipe) (q : Nat) (we : Bool) : isEnd q we f = false :=
  decide_eq_false fun hall => h hall.1

theorem isEnd_eq (hkind : f.kind = .pipe) (hpipe : f.pipe = some q) (q' : Nat) (we : Bool) :
    isEnd q' we f = decide (q' = q ∧ we = f.writing) := by
  unfold isEnd
  rw [hkind, hpipe]
  refine decide_eq_decide.mpr ⟨fun h => ⟨(Option.some.inj h.2.1).symm, h.2.2.symm⟩, fun h => ?_⟩
  exact ⟨rfl, by rw [h.1], h.2.symm⟩

theorem Piped.setFile_other (h : Piped s) (hi : i < s.ofiles.length) (hold : (s.file i).kind ≠ .pipe)
    (hnew : f.kind ≠ .pipe) : Piped (s.setFile i f) :=
  h.setFile hi (fun q we => by rw [isEnd_of_kind hnew, isEnd_of_kind hold]) fun hkind => absurd hkind hnew

theorem Piped.of_eq (h : Piped s) (hpipes : s'.pipes = s.pipes) (hofiles : s'.ofiles = s.ofiles) : Piped s' := by
  have hfile : ∀ i, s'.file i = s.file i := fun i => by rw [Fds.file, Fds.file, hofiles]
  have hends : ∀ q we, s'.ends q we = s.ends q we := fun q we => by rw [Fds.ends, Fds.ends, hofiles]
  refine ⟨fun q p hp => ?_, fun q hq we => ?_, fun j hj => ?_⟩
  · rw [hends, hends]
    exact h.count q p (hpipes ▸ hp)
  · rw [hends]
    exact h.gone q (hpipes ▸ hq) we
  · rw [hfile] at hj ⊢
    exact h.ptr j hj

theorem Piped.ofRef (h : Piped s) (hi : i < s.ofiles.length) : Piped (ofRef i s) :=
  h.setFile hi (fun _ _ => rfl) (h.ptr i)

theorem pipeClose_cases (p : Pipe) (we : Bool) :
    (pipeClose p we = none ∧ (if we then p.readers else p.readers - 1) = 0 ∧
        (if we then p.writers - 1 else p.writers) = 0) ∨
      ∃ p', pipeClose p we = some p' ∧ p'.readers = (if we then p.readers else p.readers - 1) ∧
        p'.writers = (if we then p.writers - 1 else p.writers) ∧ 0 < p'.readers + p'.writers := by
  unfold pipeClose
  cases we with
  | true =>
    by_cases hzero : p.readers = 0 ∧ p.writers - 1 = 0
    · exact .inl ⟨if_pos hzero, hzero⟩
    · exact .inr ⟨_, if_neg hzero, rfl, rfl, by
        simp only [if_true]
        omega⟩
  | false =>
    by_cases hzero : p.readers - 1 = 0 ∧ p.writers = 0
    · exact .inl ⟨if_pos hzero, hzero⟩
    · exact .inr ⟨_, if_neg hzero, rfl, rfl, by
        simp only [Bool.false_eq_true, if_false]
        omega⟩

/-- The last reference to an end of a pipe goes, and the pipe with it when it was the last end. -/
theorem Piped.close (h : Piped s) (hi : i < s.ofiles.length) (hkind : (s.file i).kind = .pipe) :
    Piped ((closeEnd (s.file i).pipe (s.file i).writing s).setFile i .zero) := by
  obtain ⟨q, hq⟩ := Option.ne_none_iff_exists'.mp (h.ptr i hkind)
  have hself : isEnd q (s.file i).writing (s.file i) = true := decide_eq_true ⟨hkind, hq, rfl⟩
  have hsum := fun q' we => ends_setFile hi .zero q' we
  simp only [isEnd_of_kind (f := OFile.zero) nofun] at hsum
  generalize hwe : (s.file i).writing = we at hself
  have hone : (s.setFile i .zero).ends q we + 1 = s.ends q we := by
    have hq := hsum q we
    rw [hself] at hq
    exact hq
  have hsame : ∀ q' we', (q', we') ≠ (q, we) → (s.setFile i .zero).ends q' we' = s.ends q' we' := by
    intro q' we' hne
    have hother : isEnd q' we' (s.file i) = false := by
      refine decide_eq_false fun hall => hne ?_
      rw [hq, hwe] at hall
      rw [Option.some.inj hall.2.1, hall.2.2]
    have hq := hsum q' we'
    rw [hother] at hq
    exact hq
  cases hpipe : s.pipes q with
  | none =>
    have hzero := h.gone q hpipe we
    omega
  | some p =>
    obtain ⟨hreaders, hwriters, -⟩ := h.count q p hpipe
    have hclose : (closeEnd (s.file i).pipe we s).setFile i .zero =
        (s.setFile i .zero).setPipe q (pipeClose p we) := by
      rw [hq]
      unfold closeEnd
      dsimp only
      rw [hpipe]
      rfl
    rw [hclose]
    have hfile : ∀ j, (((s.setFile i .zero).setPipe q (pipeClose p we)).file j).kind = .pipe →
        (((s.setFile i .zero).setPipe q (pipeClose p we)).file j).pipe ≠ none := by
      intro j hj
      have heq : ((s.setFile i .zero).setPipe q (pipeClose p we)).file j = (s.setFile i .zero).file j := rfl
      rw [heq, file_setFile hi] at hj ⊢
      split at hj
      · cases hj
      · rw [if_neg ‹_›]
        exact h.ptr j hj
    have hends : ∀ q' we', ((s.setFile i .zero).setPipe q (pipeClose p we)).ends q' we' =
        (s.setFile i .zero).ends q' we' := fun _ _ => rfl
    have hreaders' : (if we then p.readers else p.readers - 1) = (s.setFile i .zero).ends q false := by
      cases we with
      | true =>
        rw [if_pos rfl, hsame q false (by simp), hreaders]
      | false =>
        simp only [Bool.false_eq_true, if_false]
        omega
    have hwriters' : (if we then p.writers - 1 else p.writers) = (s.setFile i .zero).ends q true := by
      cases we with
      | true =>
        rw [if_pos rfl]
        omega
      | false =>
        rw [hsame q true (by simp), hwriters]
        rfl
    refine ⟨fun q' p' hp' => ?_, fun q' hq' we' => ?_, hfile⟩
    · rw [hends, hends]
      by_cases hqq : q' = q
      · subst hqq
        have hp'' : pipeClose p we = some p' := (Function.update_self q' _ s.pipes).symm.trans hp'
        rcases pipeClose_cases p we with ⟨hnone, -⟩ | ⟨p₂, hsome, hr, hw, hpos⟩
        · rw [hnone] at hp''
          cases hp''
        · cases hsome.symm.trans hp''
          exact ⟨hr.trans hreaders', hw.trans hwriters', hpos⟩
      · have hold : s.pipes q' = some p' := by
          rw [← hp']
          exact (Function.update_of_ne hqq _ _).symm
        rw [hsame q' false (by simp [hqq]), hsame q' true (by simp [hqq])]
        exact h.count q' p' hold
    · rw [hends]
      by_cases hqq : q' = q
      · subst hqq
        have hnone : pipeClose p we = none := (Function.update_self q' _ s.pipes).symm.trans hq'
        rcases pipeClose_cases p we with ⟨-, hr, hw⟩ | ⟨p₂, hsome, -⟩
        · cases we' with
          | false => exact hreaders'.symm.trans hr
          | true => exact hwriters'.symm.trans hw
        · rw [hsome] at hnone
          cases hnone
      · have hold : s.pipes q' = none := by
          rw [← hq']
          exact (Function.update_of_ne hqq _ _).symm
        rw [hsame q' we' (by simp [hqq])]
        exact h.gone q' hold we'

theorem Piped.ofUnref (h : Piped s) (hsize : s.ofiles.length = OF_MAX) (v : Outside) (x : Int) :
    Piped (ofUnref v x s).2 := by
  have hlt : 0 < x → x < OF_MAX → x.toNat < s.ofiles.length := by
    intro hpos hx
    omega
  rcases ofUnref_cases v x s with ⟨-, heq⟩ | ⟨hpos, hx, -, -, heq⟩ | ⟨hpos, hx, -, -, heq⟩
  · rw [heq]
    exact h
  · rw [heq]
    exact h.setFile (hlt hpos hx) (fun _ _ => rfl) (h.ptr _)
  · rw [heq]
    by_cases hkind : (s.file x.toNat).kind = .pipe
    · rw [if_pos hkind]
      exact h.close (hlt hpos hx) hkind
    · rw [if_neg hkind]
      exact h.setFile_other (hlt hpos hx) hkind nofun

/-! ## Calls -/

structure Sound (s : Fds) : Prop where
  counted : Counted [] s
  piped : Piped s

theorem lowestFree_some (h : lowestFree s me = some fd) : fd < FD_MAX ∧ s.slot me fd < 0 := by
  unfold lowestFree at h
  have hempty := List.find?_some h
  exact ⟨List.mem_range.mp (List.mem_of_find?_eq_some h), of_decide_eq_true hempty⟩

theorem slot_mem (h : Counted held s) (hme : me < s.tables.length) (hfd : fd < FD_MAX) :
    ∃ l ∈ s.tables, s.slot me fd ∈ l :=
  ⟨_, List.mem_of_getElem? (h.table hme).1, List.mem_of_getElem? (h.slot hme hfd)⟩

theorem Counted.slot_live (h : Counted held s) (hme : me < s.tables.length) (hfd : fd < FD_MAX)
    (hpos : 0 < s.slot me fd) : (s.file (s.slot me fd).toNat).kind ≠ .free := by
  obtain ⟨l, hl, hmem⟩ := slot_mem h hme hfd
  intro hfree
  have hzero := (h.live _ (by omega)).mp hfree
  have htally := tally_pos_of_mem hl hmem
  rw [Fds.slots, Int.toNat_of_nonneg (by omega)] at hzero
  omega

theorem Piped.setSlot (h : Piped s) (me fd : Nat) (x : Int) : Piped (s.setSlot me fd x) := h.of_eq rfl rfl

theorem setSlot_length (me fd : Nat) (x : Int) : (s.setSlot me fd x).tables.length = s.tables.length :=
  List.length_set

theorem share_sound (h : Sound s) (hme : me < s.tables.length) (hfd : fd < FD_MAX) (hdst : dst < FD_MAX)
    (hempty : s.slot me dst < 0) (hlow : 0 ≤ s.slot me fd) (hfew : ∀ i, 0 < i → (share me fd dst s).slots i < 2 ^ 16) :
    Sound (share me fd dst s) := by
  by_cases hpos : 0 < s.slot me fd
  · have hshare : share me fd dst s = (ofRef (s.slot me fd).toNat s).setSlot me dst (s.slot me fd) := if_pos hpos
    have hi : 0 < (s.slot me fd).toNat := by omega
    have hlive := h.counted.slot_live hme hfd hpos
    have hfew' := hfew _ hi
    have hslots := slots_setSlot h.counted hme hdst (s.slot me fd) (s.slot me fd).toNat
    rw [if_neg (by omega), if_pos (by omega)] at hslots
    have hsame : (share me fd dst s).slots (s.slot me fd).toNat =
        (s.setSlot me dst (s.slot me fd)).slots (s.slot me fd).toNat := by
      rw [hshare]
      rfl
    have hheld := h.counted.ofRef hi hlive (by rw [List.count_nil]; omega)
    rw [← keep_natCast hi, Int.toNat_of_nonneg hlow] at hheld
    have hdone := hheld.setSlot (show me < (ofRef (s.slot me fd).toNat s).tables.length from hme) hdst (by omega)
    rw [show (ofRef (s.slot me fd).toNat s).slot me dst = s.slot me dst from rfl, keep_of_nonpos (by omega)] at hdone
    rw [hshare]
    exact ⟨hdone, (h.piped.ofRef (lt_of_kind hlive)).setSlot _ _ _⟩
  · have hshare : share me fd dst s = s.setSlot me dst (s.slot me fd) := if_neg hpos
    have hheld : Counted (keep (s.slot me fd) []) s := by
      rw [keep_of_nonpos (by omega)]
      exact h.counted
    have hdone := hheld.setSlot hme hdst (by omega)
    rw [keep_of_nonpos (by omega)] at hdone
    rw [hshare]
    exact ⟨hdone, h.piped.setSlot _ _ _⟩

theorem lookup_eq (h : Counted held s) (me : Nat) (fd : Int) : (lookup me fd s).2 = s := by
  unfold lookup
  split
  · rfl
  · dsimp only
    split
    · rfl
    · rw [h.ensureConsole]
      split <;> rfl

theorem lookup_some (h : Counted held s) {fd : Int} (hsome : lookup me fd s = (some f, s')) :
    s' = s ∧ 0 ≤ fd ∧ fd < FD_MAX ∧ 0 ≤ s.slot me fd.toNat := by
  have heq := lookup_eq h me fd
  rw [hsome] at heq
  refine ⟨heq, ?_⟩
  unfold lookup at hsome
  split at hsome
  · cases hsome
  · dsimp only at hsome
    split at hsome
    · cases hsome
    · omega

theorem lookup_none (h : Counted held s) {fd : Int} (hnone : lookup me fd s = (none, s')) : s' = s := by
  have heq := lookup_eq h me fd
  rw [hnone] at heq
  exact heq

theorem fdDup_sound (h : Sound s) (hme : me < s.tables.length) (fd : Int)
    (hfew : ∀ i, 0 < i → (fdDup me fd s).2.slots i < 2 ^ 16) : Sound (fdDup me fd s).2 := by
  unfold fdDup at hfew ⊢
  rcases hlookup : lookup me fd s with ⟨_ | f, s'⟩
  · rw [lookup_none h.counted hlookup]
    exact h
  · obtain ⟨rfl, hlow, hhigh, hslot⟩ := lookup_some h.counted hlookup
    rw [hlookup] at hfew
    dsimp only at hfew ⊢
    cases hfree : lowestFree s' me with
    | none => exact h
    | some dst =>
      obtain ⟨hdst, hempty⟩ := lowestFree_some hfree
      rw [hfree] at hfew
      exact share_sound h hme (by omega) hdst hempty hslot hfew

theorem ofUnref_setSlot (v : Outside) (x y : Int) (me fd : Nat) (s : Fds) :
    (ofUnref v x (s.setSlot me fd y)).2 = (ofUnref v x s).2.setSlot me fd y := by
  have hclose : ∀ q we, closeEnd q we (s.setSlot me fd y) = (closeEnd q we s).setSlot me fd y := by
    intro q we
    unfold closeEnd
    cases q with
    | none => rfl
    | some q =>
      dsimp only
      rw [show (s.setSlot me fd y).pipes = s.pipes from rfl]
      cases s.pipes q <;> rfl
  have hfile : (s.setSlot me fd y).file x.toNat = s.file x.toNat := rfl
  unfold ofUnref
  dsimp only
  rw [hfile]
  split
  · rfl
  · split
    · rfl
    · split
      · rfl
      · cases (s.file x.toNat).kind with
        | pipe =>
          dsimp only
          rw [hclose]
          rfl
        | free => rfl
        | console => rfl
        | file => rfl

theorem ofUnref_tables (v : Outside) (x : Int) (s : Fds) : (ofUnref v x s).2.tables = s.tables := by
  rcases ofUnref_cases v x s with ⟨-, heq⟩ | ⟨-, -, -, -, heq⟩ | ⟨-, -, -, -, heq⟩
  · rw [heq]
  · rw [heq]
    rfl
  · rw [heq]
    split
    · exact (closeEnd_tables _ _ _).1
    · rfl

theorem Sound.release (h : Sound s) (hme : me < s.tables.length) (hfd : fd < FD_MAX) (v : Outside) :
    Sound (ofUnref v (s.slot me fd) (s.setSlot me fd (-1))).2 := by
  have hheld : Counted (keep (-1) []) s := by
    rw [keep_of_nonpos (by omega)]
    exact h.counted
  exact ⟨(hheld.setSlot hme hfd le_rfl).ofUnref v, (h.piped.setSlot _ _ _).ofUnref h.counted.size v _⟩

theorem fdClose_sound (h : Sound s) (hme : me < s.tables.length) (v : Outside) (fd : Int) :
    Sound (fdClose v me fd s).2 := by
  unfold fdClose
  split
  · exact h
  · split
    · exact h
    · exact h.release hme (by omega) v

theorem fdDup2_sound (h : Sound s) (hme : me < s.tables.length) (v : Outside) (fd dst : Int)
    (hfew : ∀ i, 0 < i → (fdDup2 v me fd dst s).2.slots i < 2 ^ 16) : Sound (fdDup2 v me fd dst s).2 := by
  unfold fdDup2 at hfew ⊢
  by_cases hrange : dst < 0 ∨ dst ≥ FD_MAX
  · rw [if_pos hrange]
    exact h
  · rw [if_neg hrange] at hfew ⊢
    rcases hlookup : lookup me fd s with ⟨_ | f, s'⟩
    · rw [lookup_none h.counted hlookup]
      exact h
    · obtain ⟨rfl, hlow, hhigh, hslot⟩ := lookup_some h.counted hlookup
      rw [hlookup] at hfew
      dsimp only at hfew ⊢
      by_cases hself : fd = dst
      · rw [if_pos hself]
        exact h
      · rw [if_neg hself] at hfew ⊢
        have hdst : dst.toNat < FD_MAX := by omega
        by_cases hopen : s'.slot me dst.toNat ≥ 0
        · -- as if the slot had been emptied first
          rw [if_pos hopen] at hfew ⊢
          have hempty := h.release hme hdst v
          rw [ofUnref_setSlot] at hempty
          generalize ht : (ofUnref v (s'.slot me dst.toNat) s').2 = t at *
          have htables : t.tables = s'.tables := by rw [← ht, ofUnref_tables]
          have hslots : ∀ k, t.slot me k = s'.slot me k := fun k => by
            rw [Fds.slot, Fds.slot, Fds.table, Fds.table, htables]
          have hmet : me < t.tables.length := by rw [htables]; exact hme
          have hread := @slot_setSlot t me dst.toNat hmet
            (by rw [Fds.table, htables]; exact (h.counted.table hme).2.symm ▸ hdst) (-1)
          have hfdslot : (t.setSlot me dst.toNat (-1)).slot me fd.toNat = t.slot me fd.toNat := by
            rw [hread, if_neg (by omega)]
          have hshare : share me fd.toNat dst.toNat (t.setSlot me dst.toNat (-1)) = share me fd.toNat dst.toNat t := by
            unfold share
            dsimp only
            rw [hfdslot, setSlot_setSlot hmet]
          rw [← hshare] at hfew ⊢
          refine share_sound hempty (by rw [setSlot_length]; exact hmet) (by omega) hdst ?_ ?_ hfew
          · rw [hread, if_pos rfl]
            decide
          · rw [hfdslot, hslots]
            exact hslot
        · rw [if_neg hopen] at hfew ⊢
          exact share_sound h hme (by omega) hdst (by omega) hslot hfew

/-! ## Opening a file -/

theorem growTo_some {need : Nat} {f' : OFile} (h : growTo v f need = some (some f')) :
    f'.kind = f.kind ∧ f'.refs = f.refs := by
  unfold growTo at h
  split at h
  · cases h
    exact ⟨rfl, rfl⟩
  · obtain ⟨cap, -, hcap⟩ := Option.map_eq_some_iff.mp h
    split at hcap
    · cases hcap
      exact ⟨rfl, rfl⟩
    · cases hcap

theorem open_give (h : Counted [i] s) (hp : Piped s) (hi : 0 < i) (hlt : i < s.ofiles.length)
    (hkind : (s.file i).kind = .file) (hf : f.kind = .file ∧ f.refs = (s.file i).refs)
    (hme : me < s.tables.length) (hfd : fd < FD_MAX) (hempty : s.slot me fd < 0) :
    Sound ((s.setFile i f).setSlot me fd i) := by
  have hheld : Counted (keep (i : Int) []) (s.setFile i f) := by
    rw [keep_natCast hi]
    exact h.setFile hlt (hf.1.trans hkind.symm) hf.2
  have hdone := hheld.setSlot (show me < (s.setFile i f).tables.length from hme) hfd (by omega)
  rw [show (s.setFile i f).slot me fd = s.slot me fd from rfl, keep_of_nonpos (by omega)] at hdone
  refine ⟨hdone, (hp.setFile_other hlt ?_ ?_).setSlot _ _ _⟩
  · rw [hkind]
    nofun
  · rw [hf.1]
    nofun

theorem open_fail (h : Counted [i] s) (hp : Piped s) (hi : 0 < i) (hlt : i < s.ofiles.length)
    (hkind : (s.file i).kind = .file) (hf : f.kind = .file ∧ f.refs = (s.file i).refs) (v : Outside) :
    Sound (ofUnref v i (s.setFile i f)).2 := by
  have hheld : Counted (keep (i : Int) []) (s.setFile i f) := by
    rw [keep_natCast hi]
    exact h.setFile hlt (hf.1.trans hkind.symm) hf.2
  have hpiped : Piped (s.setFile i f) := by
    refine hp.setFile_other hlt ?_ ?_
    · rw [hkind]
      nofun
    · rw [hf.1]
      nofun
  exact ⟨hheld.ofUnref v, hpiped.ofUnref hheld.size v _⟩

theorem openInto_sound {abs : Bytes} {found : Option (Nat × Bool)}
    (h : Counted [i] s) (hp : Piped s) (hi : 0 < i) (hlt : i < s.ofiles.length) (hkind : (s.file i).kind = .file)
    (hme : me < s.tables.length) (hfd : fd < FD_MAX) (hempty : s.slot me fd < 0)
    (hopen : openInto v me fd i abs found flags s = some (r, s')) : Sound s' := by
  unfold openInto at hopen
  dsimp only at hopen
  split at hopen
  · split at hopen
    · obtain ⟨grown, hgrow, heq⟩ := Option.map_eq_some_iff.mp hopen
      split at heq
      · cases heq
        refine open_fail h hp hi hlt hkind ⟨?_, ?_⟩ v
        · exact hkind
        · rfl
      · obtain ⟨hk, hr⟩ := growTo_some hgrow
        split at heq
        · cases heq
          exact open_fail h hp hi hlt hkind ⟨hk.trans hkind, hr⟩ v
        · cases heq
          exact open_give h hp hi hlt hkind ⟨hk.trans hkind, hr⟩ hme hfd hempty
    · cases hopen
      exact open_give h hp hi hlt hkind ⟨hkind, rfl⟩ hme hfd hempty
  · cases hopen
    exact open_give h hp hi hlt hkind ⟨hkind, rfl⟩ hme hfd hempty

theorem fdOpen_sound (h : Sound s) (hme : me < s.tables.length) {path : Bytes}
    (hopen : fdOpen v me path flags s = some (r, s')) : Sound s' := by
  unfold fdOpen at hopen
  split at hopen
  · cases hopen
    exact h
  · split at hopen
    · cases hopen
      exact h
    · dsimp only at hopen
      split at hopen
      · cases hopen
        exact h
      · split at hopen
        · cases hopen
          exact h
        · split at hopen
          · cases hopen
            exact h
          · split at hopen
            · cases hopen
              exact h
            · rename_i fd hfree
              obtain ⟨hfd, hempty⟩ := lowestFree_some hfree
              split at hopen
              · rename_i t hnone
                cases hopen
                rw [ofAlloc_none h.counted hnone]
                exact h
              · rename_i i t hsome
                have hcounted := Counted.ofAlloc h.counted (by decide) (by decide) hsome
                obtain ⟨hi, hlt, hfree, rfl⟩ := ofAlloc_some h.counted hsome
                have hfile : ((s.setFile i { OFile.zero with kind := .file, refs := 1 }).file i).kind = .file := by
                  rw [file_setFile hlt, if_pos rfl]
                refine openInto_sound hcounted (h.piped.setFile_other hlt ?_ nofun) hi
                  (by rw [setFile_length]; exact hlt)
                  hfile hme hfd hempty hopen
                rw [hfree]
                nofun

/-! ## Making a pipe -/

theorem setFile_setFile (i : Nat) (f g : OFile) : (s.setFile i f).setFile i g = s.setFile i g := by
  unfold Fds.setFile
  dsimp only
  rw [List.set_set]

theorem Counted.setSlot_plain (h : Counted held s) (hme : me < s.tables.length) (hfd : fd < FD_MAX)
    (hold : s.slot me fd ≤ 0) (hx : -1 ≤ x) (hnew : x ≤ 0) : Counted held (s.setSlot me fd x) := by
  rw [← @keep_of_nonpos held x hnew] at h
  have hdone := h.setSlot hme hfd hx
  rw [keep_of_nonpos hold] at hdone
  exact hdone

theorem closeEnd_both (hfresh : s.pipes q = none) (hq : s'.pipes = Function.update s.pipes q (some pipeNew)) :
    (closeEnd (some q) true (closeEnd (some q) false s')).pipes = s.pipes := by
  have hone : closeEnd (some q) false s' = s'.setPipe q (some { pipeNew with readers := 0 }) := by
    unfold closeEnd
    dsimp only
    rw [hq, Function.update_self]
    rfl
  have htwo : closeEnd (some q) true (s'.setPipe q (some { pipeNew with readers := 0 })) =
      (s'.setPipe q (some { pipeNew with readers := 0 })).setPipe q none := by
    unfold closeEnd Fds.setPipe
    dsimp only
    rw [Function.update_self]
    rfl
  rw [hone, htwo]
  unfold Fds.setPipe
  dsimp only
  rw [Function.update_idem, hq, Function.update_idem]
  exact Function.update_eq_self_iff.mpr hfresh.symm

theorem Piped.pair (h : Piped s) (hfresh : s.pipes q = none) {ri wi : Nat} {a b : OFile} (hr : ri < s.ofiles.length)
    (hw : wi < s.ofiles.length) (hne : wi ≠ ri) (hrold : (s.file ri).kind ≠ .pipe) (hwold : (s.file wi).kind ≠ .pipe)
    (ha : a.kind = .pipe ∧ a.pipe = some q ∧ a.writing = false)
    (hb : b.kind = .pipe ∧ b.pipe = some q ∧ b.writing = true) :
    Piped (((s.setPipe q (some pipeNew)).setFile ri a).setFile wi b) := by
  have hends : ∀ q' we, (((s.setPipe q (some pipeNew)).setFile ri a).setFile wi b).ends q' we =
      s.ends q' we + if q' = q then 1 else 0 := by
    intro q' we
    have hlen : wi < ((s.setPipe q (some pipeNew)).setFile ri a).ofiles.length := by
      rw [setFile_length]
      exact hw
    have hfirst := ends_setFile (s := s.setPipe q (some pipeNew)) hr a q' we
    have hsecond := ends_setFile hlen b q' we
    rw [file_setFile (s := s.setPipe q (some pipeNew)) hr, if_neg hne] at hsecond
    rw [show (s.setPipe q (some pipeNew)).file wi = s.file wi from rfl, isEnd_of_kind hwold] at hsecond
    rw [show (s.setPipe q (some pipeNew)).file ri = s.file ri from rfl, isEnd_of_kind hrold,
      show (s.setPipe q (some pipeNew)).ends q' we = s.ends q' we from rfl] at hfirst
    rw [isEnd_eq ha.1 ha.2.1, ha.2.2] at hfirst
    rw [isEnd_eq hb.1 hb.2.1, hb.2.2] at hsecond
    simp only [Bool.false_eq_true, if_false, decide_eq_true_eq] at hfirst hsecond
    by_cases hqq : q' = q
    · subst hqq
      cases we with
      | true =>
        simp only [true_and, reduceCtorEq, if_false, if_true] at hfirst hsecond ⊢
        omega
      | false =>
        simp only [true_and, reduceCtorEq, if_false, if_true] at hfirst hsecond ⊢
        omega
    · simp only [hqq, false_and, if_false] at hfirst hsecond ⊢
      omega
  refine ⟨fun q' p hp => ?_, fun q' hq' we => ?_, fun j hj => ?_⟩
  · rw [hends, hends]
    by_cases hqq : q' = q
    · subst hqq
      have hnew : some pipeNew = some p := (Function.update_self q' _ s.pipes).symm.trans hp
      cases hnew
      rw [h.gone q' hfresh, h.gone q' hfresh, if_pos rfl]
      exact ⟨rfl, rfl, by decide⟩
    · have hold : s.pipes q' = some p := (Function.update_of_ne hqq _ _).symm.trans hp
      rw [if_neg hqq]
      exact h.count q' p hold
  · have hqq : q' ≠ q := by
      rintro rfl
      have hnew : some pipeNew = none := (Function.update_self q' _ s.pipes).symm.trans hq'
      cases hnew
    have hold : s.pipes q' = none := (Function.update_of_ne hqq _ _).symm.trans hq'
    rw [hends, if_neg hqq, h.gone q' hold]
  · rw [file_setFile (by rw [setFile_length]; exact hw)] at hj ⊢
    split
    · rw [hb.2.1]
      nofun
    · rw [if_neg ‹_›, file_setFile (s := s.setPipe q (some pipeNew)) hr] at hj
      rw [file_setFile (s := s.setPipe q (some pipeNew)) hr]
      split
      · rw [ha.2.1]
        nofun
      · rw [if_neg ‹_›] at hj
        exact h.ptr j hj

end Zelr.Files
