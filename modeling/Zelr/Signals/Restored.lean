import Zelr.Signals.Nested

/-!
# There and back

What a handler's return puts back is what the signal interrupted, but for flags that no program may
choose; and whatever a program writes over the frame, it goes back to ring 3.
-/

namespace Zelr.Signals

variable {mask : BitVec 32}

/-! ## Places on the stack -/

section Places

variable {r : Registers}

theorem aligned_toNat (x : U64) : (x &&& ~~~(15 : U64)).toNat = x.toNat / 16 * 16 := by
  have hshift : x &&& ~~~(15 : U64) = (x >>> 4) <<< 4 := by
    ext i hi
    interval_cases i <;> simp
  rw [hshift, BitVec.toNat_shiftLeft, BitVec.toNat_ushiftRight, Nat.shiftLeft_eq, Nat.shiftRight_eq_div_pow]
  have hlt := x.isLt
  exact Nat.mod_eq_of_lt (by omega)

theorem low_bits (x : U64) : (x &&& (15 : U64)).toNat = x.toNat % 16 := Nat.and_two_pow_sub_one_eq_mod x.toNat 4

theorem framePlace_toNat (h : FRAME_SIZE ≤ r.rsp.toNat) :
    (framePlace r).toNat = (r.rsp.toNat - FRAME_SIZE) / 16 * 16 := by
  have hsub : (r.rsp - BitVec.ofNat 64 FRAME_SIZE).toNat = r.rsp.toNat - FRAME_SIZE :=
    BitVec.toNat_sub_of_le (BitVec.le_def.mpr h)
  rw [framePlace, aligned_toNat, hsub]

theorem imagePlace_toNat (h : FPU_AREA ≤ (framePlace r).toNat) :
    (imagePlace r).toNat = (framePlace r).toNat - FPU_AREA :=
  BitVec.toNat_sub_of_le (BitVec.le_def.mpr h)

theorem places (h : FRAME_SIZE ≤ r.rsp.toNat)
    (hroom : ¬ framePlace r < BitVec.ofNat 64 (FRAME_SIZE + FPU_AREA + 16)) :
    (imagePlace r).toNat + 512 = (framePlace r).toNat ∧ (framePlace r).toNat + 176 ≤ r.rsp.toNat ∧
      192 ≤ (imagePlace r).toNat ∧ (imagePlace r).toNat % 16 = 0 := by
  have hframe := framePlace_toNat h
  have hlow : 704 ≤ (framePlace r).toNat := not_lt.mp fun hlt => hroom (BitVec.lt_def.mpr hlt)
  have himage := imagePlace_toNat (r := r) (by unfold FPU_AREA; omega)
  unfold FRAME_SIZE FPU_AREA at *
  omega

end Places

theorem stackIsThere_inside {page page' : Nat → Bool} {lo hi lo' hi' : U64} (h : stackIsThere page lo hi = true)
    (hlo : lo.toNat ≤ lo'.toNat) (hhi : hi'.toNat ≤ hi.toNat) (hpage : ∀ p, page p = true → page' p = true) :
    stackIsThere page' lo' hi' = true := by
  unfold stackIsThere at *
  dsimp only at *
  have hfirst : lo.toNat / PAGE_SIZE ≤ lo'.toNat / PAGE_SIZE := Nat.div_le_div_right hlo
  have hlast : (hi'.toNat + PAGE_SIZE - 1) / PAGE_SIZE ≤ (hi.toNat + PAGE_SIZE - 1) / PAGE_SIZE :=
    Nat.div_le_div_right (by omega)
  have hend : (hi.toNat + PAGE_SIZE - 1) / PAGE_SIZE ≤ 2 ^ 52 := by
    have hlt := hi.isLt
    unfold PAGE_SIZE
    omega
  generalize lo.toNat / PAGE_SIZE = first at *
  generalize (hi.toNat + PAGE_SIZE - 1) / PAGE_SIZE = last at *
  generalize lo'.toNat / PAGE_SIZE = first' at *
  generalize (hi'.toNat + PAGE_SIZE - 1) / PAGE_SIZE = last' at *
  rw [Bool.and_eq_true, List.all_eq_true, Bool.not_eq_true', Bool.and_eq_false_iff, decide_eq_false_iff_not,
    decide_eq_false_iff_not] at *
  refine ⟨fun p hp => hpage p (h.1 p ?_), ?_⟩
  · rw [List.mem_range'_1] at *
    omega
  · omega

/-! ## What a program's frame is -/

/-- A frame interrupted in ring 3: the selectors are the program's, interrupts are on, and it was running
in its own half. -/
structure UserFrame (r : Registers) : Prop where
  cs : r.cs = USER_CODE_SEL
  ss : r.ss = USER_DATA_SEL
  on : r.rflags &&& FLAGS_ON = FLAGS_ON
  base : USER_SPACE_BASE ≤ r.rip
  below : r.rip < USER_SPACE_END

theorem UserFrame.selectors {r : Registers} (h : UserFrame r) (flags intNo errCode : U64) :
    ({ r with intNo := intNo, errCode := errCode, cs := USER_CODE_SEL, ss := USER_DATA_SEL, rflags := flags } :
        Registers) = { r with rflags := flags, intNo := intNo, errCode := errCode } := by
  rw [← h.cs, ← h.ss]

def chosen (flags : U64) : U64 := (flags &&& FLAGS_CHOSEN) ||| FLAGS_ON

theorem chosen_self {flags : U64} (hon : flags &&& FLAGS_ON = FLAGS_ON)
    (hnone : flags &&& ~~~(FLAGS_CHOSEN ||| FLAGS_ON) = 0) : chosen flags = flags := by
  have hsplit : flags = flags &&& (FLAGS_CHOSEN ||| FLAGS_ON) := by
    have hboth : flags &&& ((FLAGS_CHOSEN ||| FLAGS_ON) ||| ~~~(FLAGS_CHOSEN ||| FLAGS_ON)) = flags := by
      rw [BitVec.or_not_self, BitVec.and_allOnes]
    rw [BitVec.and_or_distrib_left, hnone] at hboth
    exact hboth.symm.trans (BitVec.or_zero)
  rw [BitVec.and_or_distrib_left, hon] at hsplit
  exact hsplit.symm

/-! ## What delivery leaves on the stack -/

section Saved

variable {r : Registers} {s : Machine mask} {sig : Nat}

theorem Fpu.ext {a b : Fpu mask} (h : a.image = b.image) : a = b := by
  cases a
  cases b
  cases h
  rfl

theorem fpuRestore_image (f : Fpu mask) {img : Bytes} (himg : img = f.image) (h : img.length = FPU_AREA) :
    fpuRestore mask img h = f := by
  apply Fpu.ext
  change fpuSanitize mask img = f.image
  rw [himg]
  exact f.sane

section Room

variable (h : FRAME_SIZE ≤ r.rsp.toNat)
  (hroom : ¬ framePlace r < BitVec.ofNat 64 (FRAME_SIZE + FPU_AREA + 16))

include h hroom

theorem back_toNat : (imagePlace r - 8).toNat = (imagePlace r).toNat - 8 := by
  obtain ⟨-, -, hlow, -⟩ := places h hroom
  exact BitVec.toNat_sub_of_le (BitVec.le_def.mpr (by change 8 ≤ (imagePlace r).toNat; omega))

theorem enter_above {x : Nat} (hx : (imagePlace r).toNat ≤ x) :
    (enter sig r s).2.mem x = storeBytes (storeWords s.mem (framePlace r) r.words) (imagePlace r) s.fpu.image x := by
  obtain ⟨-, -, hlow, -⟩ := places h hroom
  have hback := back_toNat h hroom
  have hlt := (imagePlace r).isLt
  refine storeWords_outside ?_ (.inr ?_)
  · rw [hback, List.length_singleton]
    omega
  · rw [hback, List.length_singleton]
    omega

theorem saved_image : bytesAt (enter sig r s).2.mem (imagePlace r) FPU_AREA = s.fpu.image := by
  obtain ⟨hup, htop, -, -⟩ := places h hroom
  have hlt := r.rsp.isLt
  have hsize : s.fpu.image.length = 512 := s.fpu.size
  rw [bytesAt_congr (by change _ + 512 < _; omega) fun x hx _ => enter_above h hroom hx, ← s.fpu.size]
  exact bytesAt_storeBytes (by omega)

theorem saved_word {i : Nat} (hi : i < 22) :
    wordAt (enter sig r s).2.mem (framePlace r) i = r.words.getD i 0 := by
  obtain ⟨hup, htop, -, -⟩ := places h hroom
  have hlt := r.rsp.isLt
  have hsize : s.fpu.image.length = 512 := s.fpu.size
  rw [wordAt_congr (by omega) fun x hx _ =>
    (enter_above h hroom (by omega)).trans (storeBytes_outside (by omega) (.inr (by omega)))]
  exact wordAt_storeWords (by rw [Registers.words_length]; omega) (by rw [Registers.words_length]; exact hi)

end Room

end Saved

theorem signalReturn_accepts {r saved : Registers} {s : Machine mask} (halign : r.rsp &&& 15 = 0)
    (hstack : stackIsThere s.page r.rsp (r.rsp + BitVec.ofNat 64 (FPU_AREA + FRAME_SIZE)) = true)
    (hsaved : Registers.ofWords (wordAt s.mem (r.rsp + BitVec.ofNat 64 FPU_AREA)) = saved)
    (hcs : saved.cs &&& 3 = 3) (hss : saved.ss &&& 3 = 3) (hrip : USER_SPACE_BASE ≤ saved.rip) :
    signalReturn r s =
      some ({ saved with
          intNo := r.intNo, errCode := r.errCode, cs := USER_CODE_SEL, ss := USER_DATA_SEL
          rflags := chosen saved.rflags },
        { s with
          fpu := fpuRestore mask (bytesAt s.mem r.rsp FPU_AREA) (bytesAt_length ..)
          task := handlerReturned s.task }) := by
  unfold signalReturn
  dsimp only
  rw [hsaved, if_neg (not_not.mpr halign), hstack, if_neg (by decide),
    if_neg (not_or.mpr ⟨not_not.mpr hcs, not_not.mpr hss⟩), if_neg (BitVec.not_lt.mpr hrip)]
  rfl

theorem signalReturn_confined {r : Registers} {s : Machine mask} {done : Registers × Machine mask}
    (h : signalReturn r s = some done) :
    done.1.cs = USER_CODE_SEL ∧ done.1.ss = USER_DATA_SEL ∧ done.1.rflags &&& FLAGS_ON = FLAGS_ON ∧
      done.1.rflags &&& ~~~(FLAGS_CHOSEN ||| FLAGS_ON) = 0 ∧ USER_SPACE_BASE ≤ done.1.rip := by
  have hflags : ∀ x : U64, ((x &&& FLAGS_CHOSEN) ||| FLAGS_ON) &&& FLAGS_ON = FLAGS_ON ∧
      ((x &&& FLAGS_CHOSEN) ||| FLAGS_ON) &&& ~~~(FLAGS_CHOSEN ||| FLAGS_ON) = 0 := by
    intro x
    rw [BitVec.and_or_distrib_right, BitVec.and_or_distrib_right, BitVec.and_assoc, BitVec.and_assoc,
      show FLAGS_CHOSEN &&& FLAGS_ON = 0#64 from rfl, show FLAGS_ON &&& FLAGS_ON = FLAGS_ON from rfl,
      show FLAGS_CHOSEN &&& ~~~(FLAGS_CHOSEN ||| FLAGS_ON) = 0#64 from rfl,
      show FLAGS_ON &&& ~~~(FLAGS_CHOSEN ||| FLAGS_ON) = 0#64 from rfl, BitVec.and_zero, BitVec.zero_or,
      BitVec.or_zero]
    exact ⟨rfl, rfl⟩
  unfold signalReturn at h
  dsimp only at h
  split at h
  · cases h
  · split at h
    · cases h
    · split at h
      · cases h
      · split at h
        · cases h
        · rename_i hrip
          cases h
          exact ⟨rfl, rfl, (hflags _).1, (hflags _).2, BitVec.not_lt.mp hrip⟩

/-- A handler that leaves its frame alone puts back what its signal interrupted, less the flags no program may choose; and
what is put back is in ring 3, whatever the frame says. -/
theorem deliver_return :
    (∀ (s s' : Machine mask) (r r' : Registers) (sig : Nat), UserFrame r → FRAME_SIZE ≤ r.rsp.toNat →
      started r s = some sig → r'.rsp = (signalDeliver r s).1.rsp + 8 →
      (∀ p, s.page p = true → s'.page p = true) →
      (∀ x, (imagePlace r).toNat ≤ x → x < (framePlace r).toNat + FRAME_SIZE →
        s'.mem x = (signalDeliver r s).2.mem x) →
      ∃ back, signalReturn r' s' =
          some ({ r with rflags := chosen r.rflags, intNo := r'.intNo, errCode := r'.errCode }, back) ∧
        back.fpu = s.fpu ∧
        (r.rflags &&& ~~~(FLAGS_CHOSEN ||| FLAGS_ON) = 0 → chosen r.rflags = r.rflags)) ∧
    ∀ (s : Machine mask) (r : Registers) (done : Registers × Machine mask), signalReturn r s = some done →
      done.1.cs = USER_CODE_SEL ∧ done.1.ss = USER_DATA_SEL ∧ done.1.rflags &&& FLAGS_ON = FLAGS_ON ∧
        done.1.rflags &&& ~~~(FLAGS_CHOSEN ||| FLAGS_ON) = 0 ∧ USER_SPACE_BASE ≤ done.1.rip := by
  refine ⟨?_, fun s r done h => signalReturn_confined h⟩
  intro s s' r r' sig hr hsp hsig hback hpage hmem
  obtain ⟨-, -, -, -, -, ⟨hroom, hstack⟩, henter⟩ := started_some hsig
  obtain ⟨hup, htop, hlow, halign⟩ := places hsp hroom
  have hlt := r.rsp.isLt
  have hplace := back_toNat hsp hroom
  rw [henter] at hback hmem
  have hat : r'.rsp = imagePlace r := by
    rw [hback]
    exact BitVec.sub_add_cancel _ _
  have hframe : imagePlace r + BitVec.ofNat 64 FPU_AREA = framePlace r := BitVec.sub_add_cancel _ _
  have hend : (imagePlace r + BitVec.ofNat 64 (FPU_AREA + FRAME_SIZE)).toNat = (imagePlace r).toNat + 688 :=
    offset_toNat (by unfold FPU_AREA FRAME_SIZE; omega)
  have hsaved : Registers.ofWords (wordAt s'.mem (r'.rsp + BitVec.ofNat 64 FPU_AREA)) = r := by
    rw [hat, hframe]
    refine (Registers.ofWords_congr fun i hi => ?_).trans (Registers.ofWords_words r)
    rw [wordAt_congr (by omega) fun x hx hx' => hmem x (by omega) (by unfold FRAME_SIZE; omega)]
    exact saved_word hsp hroom hi
  have himage : bytesAt s'.mem r'.rsp FPU_AREA = s.fpu.image := by
    rw [hat, bytesAt_congr (by change _ + 512 < _; omega) fun x hx hx' =>
      hmem x hx (by change x < (imagePlace r).toNat + 512 at hx'; unfold FRAME_SIZE; omega)]
    exact saved_image hsp hroom
  have hthere : stackIsThere s'.page r'.rsp (r'.rsp + BitVec.ofNat 64 (FPU_AREA + FRAME_SIZE)) = true := by
    rw [hat]
    refine stackIsThere_inside hstack ?_ (by omega) hpage
    have h16 : (imagePlace r - 16).toNat = (imagePlace r).toNat - 16 :=
      BitVec.toNat_sub_of_le (BitVec.le_def.mpr (by change 16 ≤ (imagePlace r).toNat; omega))
    omega
  have hzero : r'.rsp &&& 15 = 0 := by
    apply BitVec.eq_of_toNat_eq
    rw [hat, low_bits]
    exact halign
  have hdone := signalReturn_accepts hzero hthere hsaved (by rw [hr.cs]; rfl) (by rw [hr.ss]; rfl) hr.base
  rw [hr.selectors] at hdone
  exact ⟨_, hdone, fpuRestore_image s.fpu himage (bytesAt_length ..), chosen_self hr.on⟩

/-- A program with a handler for SIGINT, which has arrived. -/
@[irreducible] def sampleArrived : Machine 0xFFBF :=
  arrived 2 ((World.start sampleMachine).run (sampleEvents.take 1)).machine

/-- No two registers alike, and flags that a comparison left. -/
def busyFrame : Registers :=
  { roomyFrame with
    r15 := 15, r14 := 14, r13 := 13, r12 := 12, r11 := 11, r10 := 10, r9 := 9, r8 := 8
    rbp := 7, rdi := 6, rsi := 5, rdx := 4, rcx := 3, rbx := 2, rax := 1
    rflags := 0xAD7 }

/-- The handler is entered through a frame and left through it. -/
theorem deliver_return_sample :
    ∃ back, signalReturn (backFrom busyFrame) (signalDeliver busyFrame sampleArrived).2 =
        some ({ busyFrame with rflags := chosen busyFrame.rflags }, back) ∧
      back.fpu = sampleArrived.fpu ∧
      (busyFrame.rflags &&& ~~~(FLAGS_CHOSEN ||| FLAGS_ON) = 0 → chosen busyFrame.rflags = busyFrame.rflags) := by
  have huser : UserFrame busyFrame := ⟨rfl, rfl, by decide, by decide, by decide⟩
  have hstarted : started busyFrame sampleArrived = some 2 := by decide +kernel
  have hback : (backFrom busyFrame).rsp = (signalDeliver busyFrame sampleArrived).1.rsp + 8 := by decide +kernel
  exact deliver_return.1 _ _ _ _ 2 huser (by decide) hstarted hback (fun _ h => by
    have hpage : (signalDeliver busyFrame sampleArrived).2.page = sampleArrived.page := by
      rw [(started_some hstarted).2.2.2.2.2.2]
      rfl
    rw [hpage]
    exact h) fun _ _ _ => rfl

/-- The same, for a program with the alignment check flag on. -/
def checkedFrame : Registers := { roomyFrame with rflags := 0x40202 }

/-- The program loses that flag. -/
theorem checkedFrame_loses :
    UserFrame checkedFrame ∧ started checkedFrame sampleArrived = some 2 ∧
      (signalReturn (backFrom checkedFrame) (signalDeliver checkedFrame sampleArrived).2).map (·.1.rflags) =
        some 0x202 ∧ checkedFrame.rflags ≠ 0x202 := by
  refine ⟨⟨rfl, rfl, by decide, by decide, by decide⟩, by decide +kernel, by decide +kernel, by decide⟩

end Zelr.Signals
