import Zelr.Files.Shared
import Zelr.Files.Whole

/-!
# Files as byte arrays

What a program sees of a file is an array of bytes and one place in it, shared by every descriptor.
-/

namespace Zelr.Files

variable {n : Nat} {src : Bytes} {m : Move}

/-! ## The array -/

@[ext]
structure Tape where
  bytes : Bytes
  pos : Nat
  deriving DecidableEq

namespace Tape

def read (t : Tape) (len : Nat) : Bytes × Tape :=
  ((t.bytes.drop t.pos).take len, { t with pos := t.pos + min len (t.bytes.length - t.pos) })

/-- A gap in front of the bytes is filled with zeros. -/
def write (t : Tape) (src : Bytes) : Tape :=
  ⟨put (t.bytes ++ List.replicate (t.pos - t.bytes.length) 0) t.pos src, t.pos + src.length⟩

def base (t : Tape) (whence : Nat) : Nat := if whence = 1 then t.pos else if whence = 2 then t.bytes.length else 0

def seek (t : Tape) (offset : Int) (whence : Nat) : Option Tape :=
  if t.base whence + offset < 0 then none else some { t with pos := (t.base whence + offset).toNat }

/-- What a call does to the array, and what it answers. A write is also refused when the allocator has
nothing large enough. -/
inductive Acts (v : Outside) (writable : Bool) : Move → Tape → Reply → Tape → Prop where
  | read (t : Tape) (len : Nat) : Acts v writable (.read true len) t (.got (t.read len).1) (t.read len).2
  | write (t : Tape) (src : Bytes) (hw : writable = true) :
      Acts v writable (.write true src) t (.done src.length) (t.write src)
  | seek (t t' : Tape) {offset : Int} {whence : Nat} (h : t.seek offset whence = some t') :
      Acts v writable (.seek offset whence) t (.done t'.pos) t'
  | readNowhere (t : Tape) (len : Nat) : Acts v writable (.read false len) t .refused t
  | writeNothing (t : Tape) (src : Bytes) : Acts v writable (.write false src) t .refused t
  | readOnly (t : Tape) (src : Bytes) (hw : writable = false) : Acts v writable (.write true src) t .refused t
  | noMemory (t : Tape) (src : Bytes) (cap : Nat) (hcap : t.pos + src.length ≤ cap) (hfull : v.kmalloc cap = false) :
      Acts v writable (.write true src) t .refused t
  | before (t : Tape) {offset : Int} {whence : Nat} (h : t.seek offset whence = none) :
      Acts v writable (.seek offset whence) t .refused t

end Tape

def tape (f : OFile) : Tape := ⟨(f.data.getD []).take f.size, f.pos⟩

/-- What is written ends within 2 ^ 31 bytes, and a position counts from below that and arrives there. -/
def Move.Fits (t : Tape) (writable : Bool) : Move → Prop
  | .read _ _ => True
  | .write buf src => buf = true → writable = true → t.pos + src.length ≤ 2 ^ 31
  | .seek offset whence => t.base whence < 2 ^ 31 ∧ t.base whence + offset < 2 ^ 31

variable {s s' : Fds} {v : Outside} {f g : OFile} {t : Tape} {me oi : Nat} {fd : Int}

/-! ## One file -/

theorem tape_eq {bytes : Bytes} (hlen : bytes.length = f.size)
    (hdata : f.data.getD [] = bytes ++ List.replicate n 0) : tape f = ⟨bytes, f.pos⟩ := by
  rw [tape, hdata, ← hlen, List.take_left]

theorem readFile_eq (h : Whole f) (len : Nat) :
    ∃ g, readFile f len = (((tape f).read len).1, g) ∧ tape g = ((tape f).read len).2 ∧ Whole g ∧
      g.kind = f.kind ∧ g.writable = f.writable := by
  obtain ⟨bytes, hlen, hdata⟩ := h.data
  rw [tape_eq hlen hdata]
  unfold readFile Tape.read
  dsimp only
  rw [hlen]
  by_cases hend : f.pos ≥ f.size
  · rw [if_pos hend, List.drop_eq_nil_of_le (by omega), List.take_nil]
    refine ⟨f, rfl, ?_, h, rfl, rfl⟩
    rw [tape_eq hlen hdata, Tape.mk.injEq]
    exact ⟨rfl, by omega⟩
  · rw [if_neg hend]
    have hcount : (if f.size - f.pos > len then len else f.size - f.pos) = min len (f.size - f.pos) := by
      split <;> omega
    have hsize := h.size
    have hcap := cap_le h.cap
    have htop : TOP < 2 ^ 32 := by decide
    have hsmall : f.pos + min len (f.size - f.pos) < 2 ^ 32 := by omega
    have hslice : (bytes.drop f.pos).take (min len (f.size - f.pos)) = (bytes.drop f.pos).take len := by
      rw [List.take_eq_take_iff, List.length_drop]
      omega
    rw [hcount, Nat.mod_eq_of_lt hsmall, hdata, take_drop_append (by omega), hslice]
    refine ⟨_, rfl, tape_eq hlen hdata, h.congr rfl rfl rfl ?_, rfl, rfl⟩
    dsimp only
    omega

theorem put_zeros (bytes src : Bytes) {pos : Nat} (h : pos + src.length ≤ bytes.length + n) :
    put (bytes ++ List.replicate n 0) pos src =
      put (bytes ++ List.replicate (pos - bytes.length) 0) pos src ++
        List.replicate (bytes.length + n - max bytes.length (pos + src.length)) 0 := by
  unfold put
  rw [List.take_append, List.take_append, List.drop_append, List.drop_append, List.take_replicate,
    List.take_replicate, List.drop_replicate, List.drop_replicate, Nat.min_self,
    Nat.min_eq_left (by omega : pos - bytes.length ≤ n),
    show pos - bytes.length - (pos + src.length - bytes.length) = 0 by omega, List.replicate_zero, List.append_nil,
    show bytes.length + n - max bytes.length (pos + src.length) = n - (pos + src.length - bytes.length) by omega,
    List.append_assoc _ (bytes.drop _) _]

theorem put_gap_length (bytes src : Bytes) (pos : Nat) :
    (put (bytes ++ List.replicate (pos - bytes.length) 0) pos src).length = max bytes.length (pos + src.length) := by
  unfold put
  rw [List.length_append, List.length_append, List.length_take, List.length_drop, List.length_append,
    List.length_replicate]
  omega

theorem Whole.written (h : Whole f) (hroom : f.pos + src.length ≤ f.cap)
    (hdata : g.data = some (put (f.data.getD []) f.pos src)) (hpos : g.pos = f.pos + src.length) (hcap : g.cap = f.cap)
    (hsize : g.size = max f.size (f.pos + src.length)) : Whole g ∧ tape g = (tape f).write src := by
  obtain ⟨bytes, hlen, hbuf⟩ := h.data
  have hfit := h.size
  have htop := cap_le h.cap
  have hlength := put_gap_length bytes src f.pos
  rw [hlen, ← hsize] at hlength
  have hput : g.data.getD [] = put (bytes ++ List.replicate (f.pos - f.size) 0) f.pos src ++
      List.replicate (g.cap - g.size) 0 := by
    rw [hdata, Option.getD_some, hbuf, put_zeros bytes src (by omega), hlen, hcap, hsize, Nat.add_sub_cancel' hfit]
  refine ⟨⟨?_, ⟨_, hlength, hput⟩, ?_, ?_⟩, ?_⟩
  · rw [hcap]
    exact h.cap
  · rw [hcap, hsize]
    omega
  · rw [hpos]
    omega
  · rw [tape_eq hlength hput, tape_eq hlen hbuf, Tape.write, hpos, hlen]

theorem writeFile_acts (h : Whole f) (hfits : f.writable = true → f.pos + src.length ≤ TOP) :
    (writeFile v f src = some none ∧ Tape.Acts v f.writable (.write true src) (tape f) .refused (tape f)) ∨
      ∃ g, writeFile v f src = some (some g) ∧ Whole g ∧ g.kind = f.kind ∧ g.writable = f.writable ∧
        Tape.Acts v f.writable (.write true src) (tape f) (.done src.length) (tape g) := by
  unfold writeFile
  cases hw : f.writable with
  | false => exact .inl ⟨rfl, .readOnly _ _ rfl⟩
  | true =>
    have hneed := hfits hw
    have htop : TOP < 2 ^ 32 := by decide
    rw [if_pos rfl, Nat.mod_eq_of_lt (by omega)]
    have hmax : ∀ a b : Nat, (if a > b then a else b) = max b a := by
      intro a b
      split <;> omega
    cases hgrow : growTo v f (f.pos + src.length) with
    | none =>
      rcases growTo_eq (v := v) h hneed with ⟨-, heq⟩ | ⟨k, -, -, -, heq⟩
      · rw [heq] at hgrow
        cases hgrow
      · rw [heq] at hgrow
        cases hgrow
    | some grown =>
      cases grown with
      | none =>
        refine .inl ⟨rfl, ?_⟩
        rcases growTo_eq (v := v) h hneed with ⟨-, heq⟩ | ⟨k, -, henough, -, heq⟩
        · rw [heq] at hgrow
          cases hgrow
        · rw [heq] at hgrow
          split at hgrow
          · cases hgrow
          · rename_i hfull
            exact .noMemory _ _ _ henough (Bool.not_eq_true _ ▸ hfull)
      | some e =>
        obtain ⟨he, hroom, hsize, hpos, hwritable, hbytes⟩ := growTo_whole h hgrow
        obtain ⟨hkind, -⟩ := growTo_some hgrow
        have htape : tape e = tape f := by rw [tape, tape, hsize, hpos, hbytes]
        rw [← hpos] at hroom hneed
        obtain ⟨hwhole, hwritten⟩ := he.written hroom (g := { e with
          data := some (put (e.data.getD []) e.pos src), pos := e.pos + src.length
          size := max e.size (e.pos + src.length), dirty := true }) rfl rfl rfl rfl
        refine .inr ⟨_, ?_, hwhole, hkind, hwritable.trans hw, ?_⟩
        · rw [Option.map_some, Option.map_some, Nat.mod_eq_of_lt (by omega)]
          dsimp only
          rw [hmax]
        · rw [hwritten, htape]
          exact .write _ _ rfl

theorem i32_eq {n : Int} (hlow : -2 ^ 31 ≤ n) (hhigh : n < 2 ^ 31) : i32 n = n := by
  unfold i32
  rw [Int.bmod_eq_of_le] <;> omega

theorem seekFile_eq (h : Whole f) {offset : Int} {whence : Nat} (hlow : -2 ^ 31 ≤ offset)
    (hbase : (tape f).base whence < 2 ^ 31) (hwant : (tape f).base whence + offset < 2 ^ 31) :
    seekFile f offset whence = ((tape f).seek offset whence).map fun t => { f with pos := t.pos } := by
  obtain ⟨bytes, hlen, hdata⟩ := h.data
  have hstart : (if whence = 1 then i32 f.pos else if whence = 2 then i32 f.size else 0) = ((tape f).base whence : Int) := by
    rw [tape_eq hlen hdata] at hbase ⊢
    unfold Tape.base at hbase ⊢
    dsimp only at hbase ⊢
    rw [hlen] at hbase ⊢
    split
    · rename_i h1
      rw [if_pos h1] at hbase
      exact i32_eq (by omega) (by omega)
    · rename_i h1
      rw [if_neg h1] at hbase
      split
      · rename_i h2
        rw [if_pos h2] at hbase
        exact i32_eq (by omega) (by omega)
      · rfl
  unfold seekFile Tape.seek
  dsimp only
  rw [hstart, i32_eq (by omega) hwant]
  split
  · rfl
  · rfl

/-! ## One call -/

theorem setFile_self (s : Fds) (i : Nat) : s.setFile i (s.file i) = s := by
  unfold Fds.setFile Fds.file
  by_cases hi : i < s.ofiles.length
  · rw [List.getD_eq_getElem?_getD, List.getElem?_eq_getElem hi, Option.getD_some, List.set_getElem_self]
  · rw [List.set_eq_of_length_le (by omega)]

theorem Tidy.lookup_file (h : Tidy s) (href : Refers s me fd oi) (hkind : (s.file oi).kind = .file) :
    Files.lookup me fd s = (some (s.file oi), s) := by
  obtain ⟨hlow, hhigh, hslot, hoi⟩ := href
  unfold Files.lookup
  rw [if_neg (by omega)]
  dsimp only
  rw [hslot, if_neg (by omega), h.ensureConsole, Int.toNat_natCast, if_neg (by rw [hkind]; decide)]

theorem Tidy.perform (h : Tidy s) (href : Refers s me fd oi) (hkind : (s.file oi).kind = .file)
    (hm : m.Admitted) (hfits : m.Fits (tape (s.file oi)) (s.file oi).writable) :
    ∃ r g, perform v me fd s m = some (r, s.setFile oi g) ∧ Whole g ∧ g.kind = .file ∧
      g.writable = (s.file oi).writable ∧ Tape.Acts v (s.file oi).writable m (tape (s.file oi)) r (tape g) := by
  have hwhole := h.whole oi hkind
  have hlook := h.lookup_file href hkind
  have hslot : lookupSlot s me fd = oi := by rw [lookupSlot, href.2.2.1, Int.toNat_natCast]
  have hsame : some (Reply.refused, s) = some (.refused, s.setFile oi (s.file oi)) := by rw [setFile_self]
  cases m with
  | read buf len =>
    unfold Files.perform fdRead
    rw [hlook]
    cases buf with
    | false => exact ⟨_, _, hsame, hwhole, hkind, rfl, .readNowhere _ _⟩
    | true =>
      obtain ⟨g, hread, htape, hg, hgkind, hgw⟩ := readFile_eq hwhole len
      dsimp only
      rw [if_pos rfl, hkind, hread, hslot]
      refine ⟨_, g, rfl, hg, hgkind.trans hkind, hgw, ?_⟩
      rw [htape]
      exact .read _ _
  | write buf src =>
    unfold Files.perform fdWrite
    rw [hlook]
    cases buf with
    | false => exact ⟨_, _, hsame, hwhole, hkind, rfl, .writeNothing _ _⟩
    | true =>
      dsimp only
      rw [if_pos rfl, hkind]
      rcases writeFile_acts (v := v) hwhole (hfits rfl) with ⟨heq, hacts⟩ | ⟨g, heq, hg, hgkind, hgw, hacts⟩
      · rw [heq]
        exact ⟨_, _, hsame, hwhole, hkind, rfl, hacts⟩
      · rw [heq, hslot]
        exact ⟨_, g, rfl, hg, hgkind.trans hkind, hgw, hacts⟩
  | seek offset whence =>
    unfold Files.perform fdSeek
    rw [hlook]
    dsimp only
    rw [if_neg (by rw [hkind]; exact fun hne => hne rfl), seekFile_eq hwhole hm.1 hfits.1 hfits.2]
    cases hseek : (tape (s.file oi)).seek offset whence with
    | none => exact ⟨_, _, hsame, hwhole, hkind, rfl, .before _ hseek⟩
    | some t =>
      have hpos : t.pos < 2 ^ 31 ∧ t.bytes = (tape (s.file oi)).bytes := by
        unfold Tape.seek at hseek
        split at hseek
        · cases hseek
        · cases hseek
          have hwant := hfits.2
          exact ⟨by dsimp only; omega, rfl⟩
      dsimp only [Option.map_some]
      rw [hslot]
      refine ⟨_, _, rfl, hwhole.congr rfl rfl rfl ?_, hkind, rfl, ?_⟩
      · exact hpos.1.le
      · have htape : tape { s.file oi with pos := t.pos } = t := Tape.ext hpos.2.symm rfl
        rw [htape]
        exact .seek _ _ hseek

/-! ## Runs -/

def Move.Meets (s : Fds) (me : Nat) (fd : Int) (m : Move) : Prop :=
  ∀ oi, Refers s me fd oi → (s.file oi).kind = .file → m.Fits (tape (s.file oi)) (s.file oi).writable

/-- From the start of the machine, by any calls on descriptors and files. -/
inductive Fds.Went : Fds → Prop where
  | start : Fds.Went fdInit
  | call {s s' : Fds} {v : Outside} {me : Nat} {op : Op} (h : Fds.Went s) (hv : v.Fits)
      (hstep : fdStep v me op s = some s') : Fds.Went s'
  | move {s s' : Fds} {v : Outside} {me : Nat} {fd : Int} {m : Move} {r : Reply} (h : Fds.Went s)
      (hm : m.Admitted) (hmeets : m.Meets s me fd) (hstep : perform v me fd s m = some (r, s')) : Fds.Went s'

/-- A call, and what is outside while it runs. -/
structure Request where
  outside : Outside
  me : Nat
  fd : Int
  move : Move

def performAll : List Request → Fds → Option (List Reply × Fds)
  | [], s => some ([], s)
  | q :: qs, s => do
    let (r, s) ← perform q.outside q.me q.fd s q.move
    let (rs, s) ← performAll qs s
    some (r :: rs, s)

def AllMeet (oi : Nat) : List Request → Fds → Prop
  | [], _ => True
  | q :: qs, s => q.move.Fits (tape (s.file oi)) (s.file oi).writable ∧
      ∀ r s', perform q.outside q.me q.fd s q.move = some (r, s') → AllMeet oi qs s'

inductive Tape.Plays (writable : Bool) : List Request → Tape → List Reply → Tape → Prop where
  | nil (t : Tape) : Tape.Plays writable [] t [] t
  | cons {q : Request} {qs : List Request} {t t' t'' : Tape} {r : Reply} {rs : List Reply}
      (hacts : Tape.Acts q.outside writable q.move t r t') (hrest : Tape.Plays writable qs t' rs t'') :
      Tape.Plays writable (q :: qs) t (r :: rs) t''

theorem Tidy.perform_elsewhere (h : Tidy s) {r : Reply}
    (hnot : ∀ oi, Refers s me fd oi → (s.file oi).kind ≠ .file)
    (hstep : Files.perform v me fd s m = some (r, s')) : s' = s := by
  rcases hlook : Files.lookup me fd s with ⟨_ | f, t⟩
  · obtain ⟨rfl, -⟩ := h.lookup hlook
    cases m with
    | read buf len =>
      unfold Files.perform fdRead at hstep
      rw [hlook] at hstep
      cases hstep
      rfl
    | write buf src =>
      unfold Files.perform fdWrite at hstep
      rw [hlook] at hstep
      cases hstep
      rfl
    | seek offset whence =>
      unfold Files.perform fdSeek at hstep
      rw [hlook] at hstep
      cases hstep
      rfl
  · obtain ⟨rfl, hfound⟩ := h.lookup hlook
    have hkind : f.kind ≠ .file := by
      obtain ⟨oi, href, rfl⟩ := hfound f rfl
      exact hnot oi href
    cases m with
    | read buf len =>
      unfold Files.perform fdRead at hstep
      rw [hlook] at hstep
      cases buf with
      | false =>
        cases hstep
        rfl
      | true =>
        dsimp only at hstep
        rw [if_pos rfl] at hstep
        cases hf : f.kind with
        | file => exact absurd hf hkind
        | _ =>
          rw [hf] at hstep
          cases hstep
          rfl
    | write buf src =>
      unfold Files.perform fdWrite at hstep
      rw [hlook] at hstep
      cases buf with
      | false =>
        cases hstep
        rfl
      | true =>
        dsimp only at hstep
        rw [if_pos rfl] at hstep
        cases hf : f.kind with
        | file => exact absurd hf hkind
        | _ =>
          rw [hf] at hstep
          cases hstep
          rfl
    | seek offset whence =>
      unfold Files.perform fdSeek at hstep
      rw [hlook] at hstep
      dsimp only at hstep
      rw [if_pos hkind] at hstep
      cases hstep
      rfl

theorem Fds.Went.tidy (h : s.Went) : Tidy s := by
  induction h with
  | start => exact fdInit_tidy
  | call h hv hstep ih => exact ih.fdStep hv hstep
  | @move s s' v me fd m r h hm hmeets hstep ih =>
    by_cases hfile : ∃ oi, Refers s me fd oi ∧ (s.file oi).kind = .file
    · obtain ⟨oi, href, hkind⟩ := hfile
      obtain ⟨r', g, heq, hg, -⟩ := ih.perform (v := v) href hkind hm (hmeets oi href hkind)
      rw [heq] at hstep
      cases hstep
      refine ih.setFile ?_ fun _ => hg
      refine Nat.pos_of_ne_zero ?_
      rintro rfl
      rw [ih.console] at hkind
      cases hkind
    · rw [ih.perform_elsewhere (fun oi href hkind => hfile ⟨oi, href, hkind⟩) hstep]
      exact ih

theorem Tidy.setFile_file (h : Tidy s) (hkind : (s.file oi).kind = .file) (g : OFile) :
    0 < oi ∧ (s.setFile oi g).file oi = g ∧ ∀ j, j ≠ oi → (s.setFile oi g).file j = s.file j := by
  have hpos : 0 < oi := by
    refine Nat.pos_of_ne_zero ?_
    rintro rfl
    rw [h.console] at hkind
    cases hkind
  have hlt : oi < s.ofiles.length := by
    by_contra hge
    rw [file_of_le (by omega)] at hkind
    cases hkind
  refine ⟨hpos, ?_, fun j hj => ?_⟩
  · rw [file_setFile hlt, if_pos rfl]
  · rw [file_setFile hlt, if_neg hj]

theorem Tidy.plays (h : Tidy s) (hkind : (s.file oi).kind = .file) {qs : List Request}
    (hall : ∀ q ∈ qs, Refers s q.me q.fd oi ∧ q.move.Admitted) (hmeet : AllMeet oi qs s) :
    ∃ rs s', performAll qs s = some (rs, s') ∧ Tidy s' ∧ (s'.file oi).kind = .file ∧
      Tape.Plays (s.file oi).writable qs (tape (s.file oi)) rs (tape (s'.file oi)) ∧
      (∀ j, j ≠ oi → s'.file j = s.file j) ∧ s'.tables = s.tables ∧ s'.pipes = s.pipes := by
  induction qs generalizing s with
  | nil => exact ⟨[], s, rfl, h, hkind, .nil _, fun _ _ => rfl, rfl, rfl⟩
  | cons q qs ih =>
    obtain ⟨href, hm⟩ := hall q List.mem_cons_self
    obtain ⟨r, g, hstep, hg, hgkind, hgw, hacts⟩ := h.perform href hkind hm hmeet.1
    obtain ⟨hpos, hself, hothers⟩ := h.setFile_file hkind g
    obtain ⟨rs, s', hrun, htidy, hfile, hplays, hrest, htables, hpipes⟩ := ih (h.setFile hpos fun _ => hg)
      (by rw [hself]; exact hgkind) (fun q hq => hall q (List.mem_cons_of_mem _ hq)) (hmeet.2 _ _ hstep)
    rw [hself, hgw] at hplays
    refine ⟨r :: rs, s', ?_, htidy, hfile, .cons hacts hplays, fun j hj => ?_, htables, hpipes⟩
    · rw [performAll, hstep]
      show ((performAll qs (s.setFile oi g)).bind fun x => some (r :: x.1, x.2)) = _
      rw [hrun]
      rfl
    · rw [hrest j hj, hothers j hj]

/-- Reads, writes and seeks on a file that meet the condition, through whatever descriptors, answer and leave what they
do on an array of bytes with one place in it, and every computation stays within 2 ^ 31. -/
theorem files_are_arrays (h : s.Went) (hkind : (s.file oi).kind = .file) (qs : List Request)
    (hall : ∀ q ∈ qs, Refers s q.me q.fd oi ∧ q.move.Admitted) (hmeet : AllMeet oi qs s) :
    ∃ rs s', performAll qs s = some (rs, s') ∧
      Tape.Plays (s.file oi).writable qs (tape (s.file oi)) rs (tape (s'.file oi)) ∧
      (s'.file oi).size ≤ (s'.file oi).cap ∧ (s'.file oi).cap ≤ 2 ^ 31 ∧ (s'.file oi).pos ≤ 2 ^ 31 ∧
      (∀ j, j ≠ oi → s'.file j = s.file j) ∧ s'.tables = s.tables ∧ s'.pipes = s.pipes := by
  obtain ⟨rs, s', hrun, htidy, hfile, hplays, hothers, htables, hpipes⟩ := h.tidy.plays hkind hall hmeet
  have hwhole := htidy.whole oi hfile
  exact ⟨rs, s', hrun, hplays, hwhole.size, cap_le hwhole.cap, hwhole.pos, hothers, htables, hpipes⟩

/-! ## One program and its file -/

theorem Move.meets_of (href : Refers s me fd oi) (hfits : m.Fits (tape (s.file oi)) (s.file oi).writable) :
    m.Meets s me fd := by
  intro oi' href' _
  have heq : oi' = oi := Int.natCast_inj.mp (href'.2.2.1.symm.trans href.2.2.1)
  rw [heq]
  exact hfits

theorem AllMeet.cons {q : Request} {qs : List Request} {r : Reply}
    (hfits : q.move.Fits (tape (s.file oi)) (s.file oi).writable)
    (hstep : Files.perform q.outside q.me q.fd s q.move = some (r, s')) (hrest : AllMeet oi qs s') :
    AllMeet oi (q :: qs) s := by
  refine ⟨hfits, fun r' t ht => ?_⟩
  rw [hstep] at ht
  cases ht
  exact hrest

theorem quiet_fits : quiet.Fits := fun _ _ _ hread => absurd hread.symm (Option.some_ne_none _)

def sampleOpened : Fds :=
  ((fdStep quiet 0 (.open (ascii "/log") O_CREATE) fdInit).bind fun s => fdStep quiet 0 (.dup 3) s).getD fdInit

theorem sampleOpened_went : sampleOpened.Went := by
  have hopened := @Fds.Went.call _ _ quiet 0 (.open (ascii "/log") O_CREATE) .start quiet_fits rfl
  exact @Fds.Went.call _ _ quiet 0 (.dup 3) hopened quiet_fits rfl

def sampleMoves : List Request :=
  [⟨quiet, 0, 3, .write true (ascii "hi")⟩, ⟨quiet, 0, 4, .seek 4 0⟩, ⟨quiet, 0, 3, .write true (ascii "x")⟩,
    ⟨quiet, 0, 4, .seek 0 0⟩, ⟨quiet, 0, 3, .read true 16⟩]

theorem sampleOpened_refers : Refers sampleOpened 0 3 1 ∧ Refers sampleOpened 0 4 1 :=
  ⟨⟨by decide, by decide, rfl, by decide⟩, ⟨by decide, by decide, rfl, by decide⟩⟩

theorem sampleMoves_admitted : ∀ q ∈ sampleMoves, Refers sampleOpened q.me q.fd 1 ∧ q.move.Admitted := by
  obtain ⟨hthree, hfour⟩ := sampleOpened_refers
  have hshort : ∀ b (src : Bytes), src.length ≤ 2 → (Move.write b src).Admitted := fun b src h => h.trans (by decide)
  refine List.forall_mem_cons.mpr ⟨⟨hthree, hshort _ _ (by decide)⟩, ?_⟩
  refine List.forall_mem_cons.mpr ⟨⟨hfour, by decide, by decide, by decide⟩, ?_⟩
  refine List.forall_mem_cons.mpr ⟨⟨hthree, hshort _ _ (by decide)⟩, ?_⟩
  refine List.forall_mem_cons.mpr ⟨⟨hfour, by decide, by decide, by decide⟩, ?_⟩
  refine List.forall_mem_cons.mpr ⟨⟨hthree, show 16 ≤ 1024 * 1024 by decide⟩, ?_⟩
  exact fun q hq => absurd hq List.not_mem_nil

theorem sampleMoves_meet : AllMeet 1 sampleMoves sampleOpened := by
  refine .cons ?_ rfl (.cons ?_ rfl (.cons ?_ rfl (.cons ?_ rfl (.cons ?_ rfl trivial))))
  · exact fun _ _ => by decide
  · exact ⟨by decide, by decide⟩
  · exact fun _ _ => by decide +kernel
  · exact ⟨by decide, by decide⟩
  · trivial

theorem sampleMoves_play : ∃ rs s, performAll sampleMoves sampleOpened = some (rs, s) ∧
    Tape.Plays true sampleMoves ⟨[], 0⟩ rs (tape (s.file 1)) ∧
    rs = [.done 2, .done 4, .done 1, .done 0, .got (ascii "hi" ++ [0, 0] ++ ascii "x")] := by
  have hkind : (sampleOpened.file 1).kind = .file := rfl
  obtain ⟨rs, s, hrun, hplays, -⟩ :=
    files_are_arrays sampleOpened_went hkind sampleMoves sampleMoves_admitted sampleMoves_meet
  refine ⟨rs, s, hrun, hplays, ?_⟩
  have hreplies : (performAll sampleMoves sampleOpened).map Prod.fst =
    some [.done 2, .done 4, .done 1, .done 0, .got (ascii "hi" ++ [0, 0] ++ ascii "x")] := rfl
  rw [hrun] at hreplies
  exact Option.some.inj hreplies

/-- A program seeks as far as it can and writes two bytes there: the capacity comes round to zero. One
further it is told that there is no such place. -/
theorem write_never_ends : ∃ s : Fds, s.Went ∧ Refers s 0 3 1 ∧ (s.file 1).kind = .file ∧
    (Move.write true [0, 0]).Admitted ∧ perform quiet 0 3 s (.write true [0, 0]) = none ∧
    (Move.seek 1 1).Admitted ∧ perform quiet 0 3 s (.seek 1 1) = some (.refused, s) ∧
    (tape (s.file 1)).seek 1 1 = some ⟨(tape (s.file 1)).bytes, 2 ^ 31⟩ := by
  have hadmitted : (Move.seek (2 ^ 31 - 1) 0).Admitted := ⟨by decide, by decide, by decide⟩
  have hmeets : Move.Meets sampleOpened 0 3 (.seek (2 ^ 31 - 1) 0) :=
    Move.meets_of sampleOpened_refers.1 ⟨by decide, by decide⟩
  have hseek : perform quiet 0 3 sampleOpened (.seek (2 ^ 31 - 1) 0) = some (.done (2 ^ 31 - 1), _) := rfl
  refine ⟨_, sampleOpened_went.move hadmitted hmeets hseek, sampleOpened_refers.1, rfl,
    show 2 ≤ 1024 * 1024 by decide, rfl, ⟨by decide, by decide, by decide⟩, rfl, rfl⟩
end Zelr.Files
