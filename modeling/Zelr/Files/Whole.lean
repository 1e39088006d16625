import Zelr.Files.Counts

/-!
# Reading, writing and moving about in a file

`fd_read`, `fd_write` and `fd_seek` of `fd.c`.
-/

namespace Zelr.Files

/-- An `int` from what was computed, coming round where the machine's addition does. -/
def i32 (n : Int) : Int := n.bmod (2 ^ 32)

inductive Reply where
  /-- -1. -/
  | refused
  | got (bytes : Bytes)
  | done (n : Nat)
  /-- `console_read` or `console_write`. -/
  | console
  /-- `pipe_read` or `pipe_write`. -/
  | pipe (q : Option Nat)
  deriving DecidableEq

/-- The regular file of `fd_read`. -/
def readFile (f : OFile) (len : Nat) : Bytes × OFile :=
  if f.pos ≥ f.size then ([], f)
  else
    let n := f.size - f.pos
    let n := if n > len then len else n
    (((f.data.getD []).drop f.pos).take n, { f with pos := (f.pos + n) % 2 ^ 32 })

/-- The regular file of `fd_write`: missing when the call never ends, and then when it fails. -/
def writeFile (v : Outside) (f : OFile) (src : Bytes) : Option (Option OFile) :=
  if f.writable then
    (growTo v f ((f.pos + src.length) % 2 ^ 32)).map fun grown =>
      grown.map fun f =>
        let f := { f with data := some (put (f.data.getD []) f.pos src), pos := (f.pos + src.length) % 2 ^ 32 }
        { f with size := if f.pos > f.size then f.pos else f.size, dirty := true }
  else some none

def seekFile (f : OFile) (offset : Int) (whence : Nat) : Option OFile :=
  let base := if whence = 1 then i32 f.pos else if whence = 2 then i32 f.size else 0
  let want := i32 (base + offset)
  if want < 0 then none else some { f with pos := want.toNat }

/-- A call as it comes, `buf` saying that the program's address is not zero. -/
inductive Move where
  | read (buf : Bool) (len : Nat)
  | write (buf : Bool) (src : Bytes)
  | seek (offset : Int) (whence : Nat)
  deriving DecidableEq

def lookupSlot (s : Fds) (me : Nat) (fd : Int) : Nat := (s.slot me fd.toNat).toNat

def fdRead (me : Nat) (fd : Int) (buf : Bool) (len : Nat) (s : Fds) : Option (Reply × Fds) :=
  match lookup me fd s with
  | (none, s) => some (.refused, s)
  | (some f, s) =>
    if buf then
      match f.kind with
      | .console => some (.console, s)
      | .pipe => some (if f.writing then .refused else .pipe f.pipe, s)
      | .file =>
        let (bytes, f) := readFile f len
        some (.got bytes, s.setFile (lookupSlot s me fd) f)
      | .free => some (.refused, s)
    else some (.refused, s)

def fdWrite (v : Outside) (me : Nat) (fd : Int) (buf : Bool) (src : Bytes) (s : Fds) : Option (Reply × Fds) :=
  match lookup me fd s with
  | (none, s) => some (.refused, s)
  | (some f, s) =>
    if buf then
      match f.kind with
      | .console => some (.console, s)
      | .pipe => some (if f.writing then .pipe f.pipe else .refused, s)
      | .file =>
        (writeFile v f src).map fun
          | none => (.refused, s)
          | some f => (.done src.length, s.setFile (lookupSlot s me fd) f)
      | .free => some (.refused, s)
    else some (.refused, s)

def fdSeek (me : Nat) (fd : Int) (offset : Int) (whence : Nat) (s : Fds) : Option (Reply × Fds) :=
  match lookup me fd s with
  | (none, s) => some (.refused, s)
  | (some f, s) =>
    if f.kind ≠ .file then some (.refused, s)
    else
      match seekFile f offset whence with
      | none => some (.refused, s)
      | some f => some (.done f.pos, s.setFile (lookupSlot s me fd) f)

def perform (v : Outside) (me : Nat) (fd : Int) (s : Fds) : Move → Option (Reply × Fds)
  | .read buf len => fdRead me fd buf len s
  | .write buf src => fdWrite v me fd buf src s
  | .seek offset whence => fdSeek me fd offset whence s

/-- What `sys_fread`, `sys_fwrite` and `sys_seek` let through. -/
def Move.Admitted : Move → Prop
  | .read _ len => len ≤ 1024 * 1024
  | .write _ src => src.length ≤ 1024 * 1024
  | .seek offset whence => -2 ^ 31 ≤ offset ∧ offset < 2 ^ 31 ∧ whence < 2 ^ 32

/-!
## The buffer of an open file

What a file's buffer looks like whatever is done with descriptors: as long as its capacity, which is a
doubled 256, and zero behind the file's bytes.
-/

def TOP : Nat := 2 ^ 31

structure Whole (f : OFile) : Prop where
  cap : f.cap = 0 ∨ ∃ k, k ≤ 23 ∧ f.cap = 256 * 2 ^ k
  data : ∃ bytes : Bytes, bytes.length = f.size ∧
    f.data.getD [] = bytes ++ List.replicate (f.cap - f.size) 0
  size : f.size ≤ f.cap
  pos : f.pos ≤ TOP

/-- The console is in its place, and every file's buffer is whole. -/
structure Tidy (s : Fds) : Prop where
  console : (s.file 0).kind = .console
  whole : ∀ i, (s.file i).kind = .file → Whole (s.file i)

variable {s s' : Fds} {v : Outside} {f g : OFile} {me i : Nat}

/-! ## Growing -/

theorem cap_le (h : f.cap = 0 ∨ ∃ k, k ≤ 23 ∧ f.cap = 256 * 2 ^ k) : f.cap ≤ TOP := by
  rcases h with h | ⟨k, hk, h⟩
  · rw [h]
    exact Nat.zero_le _
  · rw [h]
    calc 256 * 2 ^ k ≤ 256 * 2 ^ 23 := Nat.mul_le_mul_left _ (Nat.pow_le_pow_right (by decide) hk)
      _ = TOP := by decide

variable {need : Nat} {r : Option Nat}

theorem doubled_enough (hneed : need ≤ TOP) {n j : Nat} (hj : j ≤ 23) (hn : 23 ≤ n + j) :
    ∃ k, k ≤ 23 ∧ need ≤ 256 * 2 ^ k ∧ doubled n (256 * 2 ^ j) need = some (256 * 2 ^ k) := by
  induction n generalizing j with
  | zero =>
    have hj : j = 23 := by omega
    rw [hj, doubled, if_neg (show ¬ 256 * 2 ^ 23 < need from Nat.not_lt.mpr hneed)]
    exact ⟨23, le_rfl, hneed, rfl⟩
  | succ n ih =>
    rw [doubled]
    split
    · rename_i hlt
      have hlast : j ≠ 23 := by
        rintro rfl
        exact absurd hlt (Nat.not_lt.mpr hneed)
      have hsmall : 256 * 2 ^ j * 2 = 256 * 2 ^ (j + 1) := by rw [Nat.mul_assoc, ← Nat.pow_succ]
      have hle : 256 * 2 ^ (j + 1) ≤ 256 * 2 ^ 23 :=
        Nat.mul_le_mul_left _ (Nat.pow_le_pow_right (by decide) (by omega))
      rw [hsmall, Nat.mod_eq_of_lt (lt_of_le_of_lt hle (by decide))]
      exact ih (by omega) (by omega)
    · exact ⟨j, hj, by omega, rfl⟩

theorem doubled_never (hneed : TOP < need) {n j : Nat} (hn : 24 ≤ n + j) :
    doubled n (256 * 2 ^ j % 2 ^ 32) need = none := by
  have hsmall : ∀ j, 256 * 2 ^ j % 2 ^ 32 < need := by
    intro j
    by_cases hj : j ≤ 23
    · have hle : 256 * 2 ^ j ≤ TOP := Nat.mul_le_mul_left 256 (Nat.pow_le_pow_right (by decide) hj)
      exact lt_of_le_of_lt ((Nat.mod_le _ _).trans hle) hneed
    · obtain ⟨k, rfl⟩ := Nat.exists_eq_add_of_lt (Nat.not_le.mp hj)
      have hzero : 256 * 2 ^ (23 + k + 1) % 2 ^ 32 = 0 := by
        rw [show 256 * 2 ^ (23 + k + 1) = 2 ^ k * 2 ^ 32 by rw [Nat.pow_succ, Nat.pow_add]; omega]
        exact Nat.mul_mod_left _ _
      rw [hzero]
      exact lt_of_le_of_lt (Nat.zero_le _) hneed
  induction n generalizing j with
  | zero => rw [doubled, if_pos (hsmall j)]
  | succ n ih =>
    have hnext : 256 * 2 ^ j % 2 ^ 32 * 2 % 2 ^ 32 = 256 * 2 ^ (j + 1) % 2 ^ 32 := by
      rw [Nat.mod_mul_mod, Nat.mul_assoc, ← Nat.pow_succ]
    rw [doubled, if_pos (hsmall j), hnext]
    exact ih (by omega)

theorem start_cap (h : Whole f) : ∃ j, j ≤ 23 ∧ (if f.cap = 0 then 256 else f.cap) = 256 * 2 ^ j := by
  split
  · exact ⟨0, by decide, rfl⟩
  · exact h.cap.resolve_left ‹_›

theorem growTo_eq (h : Whole f) (hneed : need ≤ TOP) :
    (need ≤ f.cap ∧ growTo v f need = some (some f)) ∨
      ∃ k, k ≤ 23 ∧ need ≤ 256 * 2 ^ k ∧ f.cap < 256 * 2 ^ k ∧ growTo v f need = some (if v.kmalloc (256 * 2 ^ k) then
        some { f with data := some ((f.data.getD []).take f.size ++ List.replicate (256 * 2 ^ k - f.size) 0),
                      cap := 256 * 2 ^ k } else none) := by
  unfold growTo
  by_cases hroom : need ≤ f.cap
  · exact .inl ⟨hroom, if_pos hroom⟩
  · obtain ⟨j, hj, hstart⟩ := start_cap h
    obtain ⟨k, hk, henough, heq⟩ := @doubled_enough need hneed 32 j hj (by omega)
    rw [if_neg hroom, hstart, heq]
    exact .inr ⟨k, hk, henough, by omega, rfl⟩

theorem Whole.grown (h : Whole f) {k : Nat} (hk : k ≤ 23) (hmore : f.cap < 256 * 2 ^ k) :
    Whole { f with data := some ((f.data.getD []).take f.size ++ List.replicate (256 * 2 ^ k - f.size) 0),
                   cap := 256 * 2 ^ k } := by
  obtain ⟨bytes, hlen, hdata⟩ := h.data
  refine ⟨.inr ⟨k, hk, rfl⟩, ⟨bytes, hlen, ?_⟩, h.size.trans hmore.le, h.pos⟩
  rw [Option.getD_some, hdata, ← hlen, List.take_left]

theorem growTo_whole (h : Whole f) (hgrow : growTo v f need = some (some g)) :
    Whole g ∧ need ≤ g.cap ∧ g.size = f.size ∧ g.pos = f.pos ∧ g.writable = f.writable ∧
      (g.data.getD []).take f.size = (f.data.getD []).take f.size := by
  by_cases hneed : need ≤ TOP
  · rcases growTo_eq (v := v) h hneed with ⟨hroom, heq⟩ | ⟨k, hk, henough, hmore, heq⟩
    · rw [heq] at hgrow
      cases hgrow
      exact ⟨h, hroom, rfl, rfl, rfl, rfl⟩
    · rw [heq] at hgrow
      split at hgrow
      · cases hgrow
        refine ⟨h.grown hk hmore, henough, rfl, rfl, rfl, ?_⟩
        obtain ⟨bytes, hlen, hdata⟩ := h.data
        rw [Option.getD_some, hdata, ← hlen, List.take_left, List.take_left]
      · cases hgrow
  · have hcap := cap_le h.cap
    obtain ⟨j, hj, hstart⟩ := start_cap h
    have hle : 256 * 2 ^ j ≤ 256 * 2 ^ 23 := Nat.mul_le_mul_left 256 (Nat.pow_le_pow_right (by decide) hj)
    have hsmall := Nat.mod_eq_of_lt (lt_of_le_of_lt hle (by decide : 256 * 2 ^ 23 < 2 ^ 32))
    unfold growTo at hgrow
    rw [if_neg (by omega), hstart, ← hsmall, @doubled_never need (by omega) 32 j (by omega)] at hgrow
    cases hgrow

/-! ## Calls on descriptors -/

theorem Whole.congr (h : Whole f) (hdata : g.data = f.data) (hcap : g.cap = f.cap) (hsize : g.size = f.size)
    (hpos : g.pos ≤ TOP) : Whole g := by
  refine ⟨?_, ?_, ?_, hpos⟩
  · rw [hcap]
    exact h.cap
  · rw [hdata, hcap, hsize]
    exact h.data
  · rw [hcap, hsize]
    exact h.size

theorem whole_new (kind : OfKind) (refs : Nat) : Whole { OFile.zero with kind, refs } :=
  ⟨.inl rfl, ⟨[], rfl, rfl⟩, le_rfl, Nat.zero_le _⟩

section
variable (h : Tidy s)
include h

theorem Tidy.of_files (heq : s'.ofiles = s.ofiles) : Tidy s' := by
  have hfile : ∀ i, s'.file i = s.file i := by
    intro i
    rw [Fds.file, heq, Fds.file]
  refine ⟨?_, fun i hkind => ?_⟩
  · rw [hfile]
    exact h.console
  · rw [hfile] at hkind ⊢
    exact h.whole i hkind

omit h in
theorem file_setFile_cases (s : Fds) (i : Nat) (f : OFile) (j : Nat) :
    (j = i ∧ (s.setFile i f).file j = f) ∨ (s.setFile i f).file j = s.file j := by
  by_cases hi : i < s.ofiles.length
  · rw [file_setFile hi]
    split
    · exact .inl ⟨‹_›, rfl⟩
    · exact .inr rfl
  · rw [Fds.setFile, List.set_eq_of_length_le (by omega)]
    exact .inr rfl

theorem Tidy.setFile (hi : 0 < i) (hf : f.kind = .file → Whole f) : Tidy (s.setFile i f) := by
  refine ⟨?_, fun j hkind => ?_⟩
  · rcases file_setFile_cases s i f 0 with ⟨hzero, -⟩ | heq
    · omega
    · rw [heq]
      exact h.console
  · rcases file_setFile_cases s i f j with ⟨-, heq⟩ | heq
    · rw [heq] at hkind ⊢
      exact hf hkind
    · rw [heq] at hkind ⊢
      exact h.whole j hkind

theorem Tidy.ensureConsole : ensureConsole s = s := if_pos h.console

theorem Tidy.ofAlloc {kind : OfKind} (halloc : ofAlloc kind s = (r, s')) :
    Tidy s' ∧ ∀ i, r = some i → 0 < i ∧ s' = s.setFile i { OFile.zero with kind, refs := 1 } := by
  unfold Files.ofAlloc at halloc
  rw [h.ensureConsole] at halloc
  dsimp only at halloc
  split at halloc
  · rename_i i hfind
    cases halloc
    have hi : 0 < i := by
      have hmem := List.mem_of_find?_eq_some hfind
      rw [List.mem_range'_1] at hmem
      omega
    refine ⟨h.setFile hi fun _ => whole_new kind 1, fun j hj => ?_⟩
    cases hj
    exact ⟨hi, rfl⟩
  · cases halloc
    exact ⟨h, fun i hi => absurd hi.symm (Option.some_ne_none i)⟩

theorem Tidy.ofRef (hi : 0 < i) : Tidy (ofRef i s) :=
  h.setFile hi fun hkind => (h.whole i hkind).congr rfl rfl rfl (h.whole i hkind).pos

theorem Tidy.closeEnd (q : Option Nat) (writeEnd : Bool) : Tidy (closeEnd q writeEnd s) :=
  h.of_files (closeEnd_tables q writeEnd s).2

theorem Tidy.ofUnref (x : Int) : Tidy (ofUnref v x s).2 := by
  unfold Files.ofUnref
  split
  · exact h
  · have hi : 0 < x.toNat := by
      rename_i hrange
      rw [OF_CONSOLE_SLOT] at hrange
      omega
    dsimp only
    split
    · exact h
    · split
      · exact h.setFile hi fun hkind => (h.whole _ hkind).congr rfl rfl rfl (h.whole _ hkind).pos
      · split
        · exact h.setFile hi fun _ => whole_new .free 0
        · exact (h.closeEnd _ _).setFile hi fun _ => whole_new .free 0
        · exact h.setFile hi fun _ => whole_new .free 0

theorem Tidy.setSlot (me fd : Nat) (x : Int) : Tidy (s.setSlot me fd x) := h.of_files rfl

theorem Tidy.share (me fd dst : Nat) : Tidy (share me fd dst s) := by
  unfold Files.share
  dsimp only
  split
  · rename_i hpos
    rw [OF_CONSOLE_SLOT] at hpos
    exact (h.setSlot me dst _).ofRef (by omega)
  · exact h.setSlot me dst _

/-- A number that `lookup` takes, and the description it leads to. -/
def Refers (s : Fds) (me : Nat) (fd : Int) (oi : Nat) : Prop :=
  0 ≤ fd ∧ fd < FD_MAX ∧ s.slot me fd.toNat = oi ∧ oi < OF_MAX

theorem Tidy.lookup {fd : Int} {r : Option OFile} (hlook : lookup me fd s = (r, s')) :
    s' = s ∧ ∀ f, r = some f → ∃ oi, Refers s me fd oi ∧ f = s.file oi := by
  unfold Files.lookup at hlook
  split at hlook
  · cases hlook
    exact ⟨rfl, fun f hf => absurd hf.symm (Option.some_ne_none f)⟩
  · dsimp only at hlook
    split at hlook
    · cases hlook
      exact ⟨rfl, fun f hf => absurd hf.symm (Option.some_ne_none f)⟩
    · rw [h.ensureConsole] at hlook
      split at hlook
      · cases hlook
        exact ⟨rfl, fun f hf => absurd hf.symm (Option.some_ne_none f)⟩
      · cases hlook
        refine ⟨rfl, fun f hf => ?_⟩
        cases hf
        exact ⟨_, ⟨by omega, by omega, by omega, by omega⟩, rfl⟩

theorem Tidy.fdDup (me : Nat) (fd : Int) : Tidy (fdDup me fd s).2 := by
  unfold Files.fdDup
  rcases hlook : Files.lookup me fd s with ⟨_ | f, t⟩
  · rw [(h.lookup hlook).1]
    exact h
  · rw [(h.lookup hlook).1]
    dsimp only
    split
    · exact h
    · exact h.share me _ _

theorem Tidy.fdDup2 (me : Nat) (fd dst : Int) : Tidy (fdDup2 v me fd dst s).2 := by
  unfold Files.fdDup2
  split
  · exact h
  · rcases hlook : Files.lookup me fd s with ⟨_ | f, t⟩
    · rw [(h.lookup hlook).1]
      exact h
    · rw [(h.lookup hlook).1]
      dsimp only
      split
      · exact h
      · split
        · exact (h.ofUnref _).share me _ _
        · exact h.share me _ _

theorem Tidy.fdClose (me : Nat) (fd : Int) : Tidy (fdClose v me fd s).2 := by
  unfold Files.fdClose
  split
  · exact h
  · split
    · exact h
    · exact (h.setSlot me _ _).ofUnref _

theorem Tidy.releaseFrom (me fd k : Nat) : Tidy (releaseFrom v me fd k s) := by
  induction k generalizing fd s with
  | zero => exact h
  | succ k ih =>
    unfold Files.releaseFrom
    refine ih (Tidy.setSlot ?_ me fd _) _
    split
    · exact h.ofUnref _
    · exact h

theorem Tidy.clone (src : List Int) : Tidy (src.foldl cloneSlot s) := by
  induction src generalizing s with
  | nil => exact h
  | cons x src ih =>
    refine ih ?_
    unfold cloneSlot
    split
    · rename_i hlive
      have hpos := hlive.1
      rw [OF_CONSOLE_SLOT] at hpos
      exact h.ofRef (by omega)
    · exact h

theorem Tidy.fdPipe (me : Nat) : Tidy (fdPipe v me s).2 := by
  unfold Files.fdPipe
  cases hr : lowestFree s me with
  | none => exact h
  | some r =>
    dsimp only
    cases hw : lowestFree (s.setSlot me r OF_CONSOLE_SLOT) me with
    | none => exact (h.setSlot me _ _).setSlot me _ _
    | some w =>
      cases hq : v.kcalloc with
      | none => exact (h.setSlot me _ _).setSlot me _ _
      | some q =>
        dsimp only
        have hnew : Tidy ((s.setSlot me r OF_CONSOLE_SLOT).setPipe q (some pipeNew)) := h.of_files rfl
        rcases hri : Files.ofAlloc .pipe ((s.setSlot me r OF_CONSOLE_SLOT).setPipe q (some pipeNew)) with ⟨_ | ri, t⟩
        · dsimp only
          exact (((hnew.ofAlloc hri).1.setSlot me _ _).closeEnd _ _).closeEnd _ _
        · obtain ⟨hfirst, hend⟩ := hnew.ofAlloc hri
          have hripos := (hend ri rfl).1
          dsimp only
          rcases hwi : Files.ofAlloc .pipe t with ⟨_ | wi, u⟩
          · have hundone : Tidy (u.setFile ri { u.file ri with kind := .free }) :=
              (hfirst.ofAlloc hwi).1.setFile hripos fun hkind => OfKind.noConfusion hkind
            dsimp only
            exact ((hundone.setSlot me _ _).closeEnd _ _).closeEnd _ _
          · obtain ⟨hsecond, hend⟩ := hfirst.ofAlloc hwi
            have hwipos := (hend wi rfl).1
            have hends : ∀ {t : Fds} (_ : Tidy t) {i : Nat} (_ : 0 < i) (writing : Bool),
                Tidy (t.setFile i { t.file i with pipe := some q, writing }) := by
              intro t ht i hi writing
              refine ht.setFile hi fun hkind => (ht.whole i hkind).congr ?_ ?_ ?_ (ht.whole i hkind).pos
              · rfl
              · rfl
              · rfl
            exact ((hends (hends hsecond hripos false) hwipos true).setSlot me _ _).setSlot me _ _

end

/-! ## Opening -/

/-- `vfs_read` fills no more than it is given. -/
def Outside.Fits (v : Outside) : Prop := ∀ path n bytes, v.read path n = some bytes → bytes.length ≤ n

theorem Whole.filled (h : Whole f) (hempty : f.size = 0) {got : Bytes} (hgot : got.length ≤ f.cap) :
    Whole { f with data := some (put (f.data.getD []) 0 got), size := got.length } := by
  obtain ⟨bytes, hlen, hdata⟩ := h.data
  rw [hempty] at hlen hdata
  rw [List.eq_nil_of_length_eq_zero hlen, List.nil_append, Nat.sub_zero] at hdata
  refine ⟨h.cap, ⟨got, rfl, ?_⟩, hgot, h.pos⟩
  rw [Option.getD_some, hdata, put, List.take_zero, List.nil_append, List.drop_replicate, Nat.zero_add]

theorem Whole.start (h : Whole f) (append : Prop) [Decidable append] : (if append then f.size else 0) ≤ TOP := by
  split
  · exact h.size.trans (cap_le h.cap)
  · exact Nat.zero_le _

theorem Tidy.openInto (h : Tidy s) {fd oi flags : Nat} {abs : Bytes} {found : Option (Nat × Bool)} (hi : 0 < oi)
    (hv : v.Fits) (hwhole : Whole (s.file oi)) (hempty : (s.file oi).size = 0)
    (hopen : openInto v me fd oi abs found flags s = some (r, s')) : Tidy s' := by
  have hgive : ∀ g : OFile, Whole g → Tidy ((s.setFile oi g).setSlot me fd oi) :=
    fun g hg => (h.setFile hi fun _ => hg).setSlot me fd oi
  have hfail : ∀ g : OFile, Whole g → Tidy (Files.ofUnref v oi (s.setFile oi g)).2 :=
    fun g hg => (h.setFile hi fun _ => hg).ofUnref oi
  unfold Files.openInto at hopen
  dsimp only at hopen
  split at hopen
  · split at hopen
    · obtain ⟨grown, hgrow, heq⟩ := Option.map_eq_some_iff.mp hopen
      split at heq
      · cases heq
        refine hfail _ (hwhole.congr ?_ ?_ ?_ ?_)
        · rfl
        · rfl
        · rfl
        · exact hwhole.pos
      · rename_i g
        have hopened : Whole { s.file oi with
            path := abs.take (VFS_PATH_MAX - 1)
            writable := flags &&& (O_WRITE ||| O_CREATE ||| O_TRUNC ||| O_APPEND) != 0 } := by
          refine hwhole.congr ?_ ?_ ?_ hwhole.pos
          · rfl
          · rfl
          · rfl
        obtain ⟨hg, hroom, hsize, -⟩ := growTo_whole hopened hgrow
        split at heq
        · cases heq
          exact hfail g hg
        · rename_i got hread
          cases heq
          have hgot := hv _ _ _ hread
          have hroom' : got.length ≤ g.cap := by
            split at hroom
            · omega
            · exact hgot.trans hroom
          have hfilled := hg.filled (hsize.trans hempty) hroom'
          refine hgive _ (hfilled.congr ?_ ?_ ?_ (hfilled.start _))
          · rfl
          · rfl
          · rfl
    · cases hopen
      refine hgive _ (hwhole.congr ?_ ?_ ?_ (hwhole.start _))
      · rfl
      · rfl
      · rfl
  · cases hopen
    refine hgive _ (hwhole.congr ?_ ?_ ?_ (hwhole.start _))
    · rfl
    · rfl
    · rfl

theorem Tidy.fdOpen (h : Tidy s) (hv : v.Fits) {path : Bytes} {flags : Nat}
    (hopen : fdOpen v me path flags s = some (r, s')) : Tidy s' := by
  unfold Files.fdOpen at hopen
  split at hopen
  · cases hopen
    exact h
  · split at hopen
    · cases hopen
      exact h
    · dsimp only at hopen
      split at hopen
      · cases hopen
        exact h
      · split at hopen
        · cases hopen
          exact h
        · split at hopen
          · cases hopen
            exact h
          · split at hopen
            · cases hopen
              exact h
            · split at hopen
              · rename_i t hnone
                cases hopen
                exact (h.ofAlloc hnone).1
              · rename_i oi t hsome
                obtain ⟨htidy, hend⟩ := h.ofAlloc hsome
                obtain ⟨hi, rfl⟩ := hend oi rfl
                have hnew : Whole ((s.setFile oi { OFile.zero with kind := .file, refs := 1 }).file oi) ∧
                    ((s.setFile oi { OFile.zero with kind := .file, refs := 1 }).file oi).size = 0 := by
                  by_cases hlt : oi < s.ofiles.length
                  · rw [file_setFile hlt, if_pos rfl]
                    exact ⟨whole_new .file 1, rfl⟩
                  · rw [file_of_le (by rw [setFile_length]; omega)]
                    exact ⟨whole_new .free 0, rfl⟩
                exact htidy.openInto hi hv hnew.1 hnew.2 hopen

theorem Tidy.fdStep (h : Tidy s) (hv : v.Fits) {op : Op} (hstep : fdStep v me op s = some s') : Tidy s' := by
  unfold Files.fdStep at hstep
  split at hstep
  · cases hstep
  · cases op with
    | «open» path flags =>
      obtain ⟨⟨r, t⟩, hopen, rfl⟩ := Option.map_eq_some_iff.mp hstep
      exact h.fdOpen hv hopen
    | dup fd =>
      cases hstep
      exact h.fdDup me fd
    | dup2 fd dst =>
      cases hstep
      exact h.fdDup2 me fd dst
    | pipe =>
      dsimp only at hstep
      split at hstep
      · cases hstep
        exact h.fdPipe me
      · cases hstep
    | close fd =>
      cases hstep
      exact h.fdClose me fd
    | fork room =>
      cases room with
      | true =>
        cases hstep
        rw [h.ensureConsole]
        exact (h.clone (s.table me)).of_files rfl
      | false =>
        cases hstep
        exact h
    | spawn =>
      cases hstep
      rw [h.ensureConsole]
      exact h.of_files rfl
    | exit =>
      rw [← Option.some.inj hstep]
      exact h.releaseFrom me 0 FD_MAX

theorem fdInit_tidy : Tidy fdInit := by
  refine ⟨by decide +kernel, fun i hkind => ?_⟩
  have hnone : ∀ f ∈ fdInit.ofiles, f.kind ≠ .file := by decide +kernel
  by_cases hlt : i < fdInit.ofiles.length
  · have hmem : fdInit.file i ∈ fdInit.ofiles := by
      rw [Fds.file, List.getD_eq_getElem?_getD, List.getElem?_eq_getElem hlt, Option.getD_some]
      exact List.getElem_mem hlt
    exact absurd hkind (hnone _ hmem)
  · rw [file_of_le (by omega)]
    exact whole_new .free 0

end Zelr.Files
