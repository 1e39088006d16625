import Zelr.User.Life
import Zelr.User.Stack

/-!
# What a program finds on its stack

The pages of the stack are handed over one after another, and the page that is written is the first of
them: the frame it is in stays the frame of that address, and of no other, while the rest are mapped.
-/

namespace Zelr.User

open Act Paging
open Pmm (put_same put_other put_put)

variable {a w : Space}

/-! ## Frames with one holder -/

def Single (f : Nat) (m : Machine) : Prop := m.pmm.past f = 0

section Holders

variable {f : Nat}

theorem single_alloc : Preserves (Single f) allocFrame := by
  apply Preserves.bind
  · intro s hs
    show (Pmm.allocFrame s.pmm).2.past f = 0
    unfold Pmm.allocFrame
    split
    · exact hs
    · split
      · rw [Pmm.claim_past, Pmm.countDown_past]
        exact hs
      · rw [Pmm.countDown_past]
        exact hs
  · exact fun _ => Preserves.ite Preserves.stop (Preserves.pure _)

theorem single_free (x : Nat) : Preserves (Single f) (freeFrame x) := by
  intro s hs
  show (Pmm.freeFrame x s.pmm).2.past f = 0
  rcases Nat.eq_zero_or_pos (s.pmm.past x) with hx | hx
  · obtain ⟨p', hrun, -, hpast, -⟩ := Pmm.freeFrame_last hx
    rw [hrun, hpast]
    exact hs
  · unfold Pmm.freeFrame
    split
    · exact hs
    · split
      · next extra hextra =>
        split
        · have hpast : s.pmm.past = extra := Pmm.past_of_some hextra
          rw [Pmm.past_of_some rfl]
          by_cases hfx : f = x
          · subst hfx
            rw [put_same, ← hpast, hs]
          · rw [put_other _ _ hfx, ← hpast]
            exact hs
        · rw [Pmm.markFree_past]
          exact hs
      · rw [Pmm.markFree_past]
        exact hs

theorem single_word (t i : Nat) : Preserves (Single f) (word t i) := fun _ h => h

theorem single_setWord (t i : Nat) (e : Word) : Preserves (Single f) (setWord t i e) := fun _ h => h

theorem single_step (t : Nat) (virt : Word) (level : Nat) (create : Bool) (flags : Word) :
    Preserves (Single f) (step t virt level create flags) := by
  refine Preserves.bind ?_ fun _ => Preserves.bind ?_ fun _ => Preserves.bind (single_word _ _) fun _ =>
    Preserves.ite Preserves.stop (Preserves.pure _)
  · refine Preserves.bind (single_word _ _) fun _ => Preserves.ite (Preserves.pure _) (Preserves.ite ?_ Preserves.stop)
    exact Preserves.bind single_alloc fun _ => Preserves.bind (fun _ h => h) fun _ => single_setWord _ _ _
  · exact Preserves.ite (Preserves.bind (single_word _ _) fun _ => single_setWord _ _ _) (Preserves.pure _)

theorem single_tableFor (dir : Nat) (virt : Word) (create : Bool) (flags : Word) :
    Preserves (Single f) (tableFor dir virt create flags) := by
  refine Preserves.bind (single_step _ _ _ _ _) fun _ => Preserves.bind (single_step _ _ _ _ _) fun pd =>
    Preserves.bind (single_word _ _) fun _ => Preserves.ite (Preserves.ite ?_ Preserves.stop) (single_step _ _ _ _ _)
  refine Preserves.bind ?_ fun _ => single_step _ _ _ _ _
  exact Preserves.bind (single_word _ _) fun _ => Preserves.bind single_alloc fun _ =>
    Preserves.bind (fun _ h => h) fun _ => single_setWord _ _ _

theorem single_mapFresh (dir : Nat) (virt flags : Word) : Preserves (Single f) (mapFresh dir virt flags) := by
  refine Preserves.bind single_alloc fun frame => Preserves.bind (fun _ h => h) fun _ =>
    Preserves.bind (Preserves.attempt ?_) fun r => ?_
  · exact Preserves.ite Preserves.stop (Preserves.bind (single_tableFor _ _ _ _) fun _ => single_setWord _ _ _)
  · cases r with
    | none => exact Preserves.bind (single_free _) fun _ => Preserves.stop
    | some u => exact Preserves.pure _

end Holders

/-! ## The frame of an address -/

/-- The page at an address is in the frame, and the frame is at no other. -/
structure Seated (g : Labels) (m : Machine) (dir : Nat) (virt : Word) (f : Nat) : Prop where
  data : g.own f = .data
  single : Single f m
  found : follow m.mem dir (1 :: pathOf virt) = some f

section Frames

variable {g : Labels} {m m' : Machine} {R : Nat → Option Space} {a : Space} {dir f : Nat} {virt : Word}

theorem alloc_seated (hs : Shows g m R) (live : R dir = some a) (huser : IsUser virt)
    (h : allocUserPage dir virt m = (some f, m')) :
    ∃ g', Shows g' m' (Pmm.put R dir (some (Pmm.put a (pageNumber virt) (some (zeroPage true))))) ∧
      Seated g' m' dir virt f ∧
      ∀ virt' f', IsUser virt' → pageNumber virt' ≠ pageNumber virt → Seated g m dir virt' f' →
        Seated g' m' dir virt' f' := by
  have hroot := hs.root dir a live
  obtain ⟨hfree, g', hm, hdata, hframed⟩ := mapFresh_framed hs.inv hroot huser.top (by decide) (by decide) (by decide) h
  have hkeeps : ∀ x, Single x m → Single x m' := fun x hx => (single_mapFresh dir virt _).of_eq h hx
  have hunshared : Single f m := hs.inv.uncounted f (by rw [hfree]; simp)
  refine ⟨g', ?_, ⟨hdata, hkeeps f hunshared, hframed.here⟩, ?_⟩
  · exact hs.setPage live huser hm.inv (fun d hd => hm.keeps.own_eq hd (by simp))
      (fun d r hd hr hnot => (hm.others d r hd hr hnot).1) hm.page
  · intro virt' f' huser' hne hat
    refine ⟨hm.keeps.own_eq hat.data (by simp), hkeeps f' hat.single, ?_⟩
    rw [hframed.others dir _ hroot rfl fun hb => hne ((pathOf_eq_iff huser' huser).mp hb.2)]
    exact hat.found

theorem Seated.overwrite (hat : Seated g m dir virt f) (hs : Shows g m R) (live : R dir = some a)
    (huser : IsUser virt) (words : Content) (writable : Bool) :
    Shows g (m.setFrame f words) (Pmm.put R dir (some (Pmm.put a (pageNumber virt) (some ⟨words, writable⟩)))) := by
  have hroot := hs.root dir a live
  have hsole : (g.holds f).length = 1 := by rw [hs.inv.count f hat.data, hat.single]
  obtain ⟨hinv, hpage, hothers, -⟩ := setPage_spec words hs.inv hroot rfl hat.found hat.data hsole
  exact hs.setPage live huser hinv (fun _ hd => hd) hothers hpage

end Frames

/-! ## Places in the stack -/

theorem stack_top_toNat : USER_STACK_TOP.toNat = 0x8050000000 := rfl

theorem page_toNat : PAGE.toNat = 4096 := rfl

section Places

variable {i k off : Nat}

theorem stackPage_toNat (h : i ≤ USER_STACK_PAGES) : (stackPage i).toNat = USER_STACK_TOP.toNat - i * PAGE_SIZE := by
  unfold USER_STACK_PAGES at h
  have htop := stack_top_toNat
  have hmul : (BitVec.ofNat 64 i * PAGE).toNat = i * 4096 := by
    rw [BitVec.toNat_mul, BitVec.toNat_ofNat, page_toNat]
    omega
  unfold stackPage PAGE_SIZE
  rw [BitVec.toNat_sub_of_le (by rw [BitVec.le_def, hmul, htop]; omega), hmul]

theorem stackPage_user (h : i ≤ USER_STACK_PAGES) : IsUser (stackPage i) := by
  have hplace := stackPage_toNat h
  have htop := stack_top_toNat
  unfold USER_STACK_PAGES PAGE_SIZE at *
  unfold IsUser USER_SPACE_BASE USER_SPACE_END
  omega

theorem stackAt_toNat (h : off ≤ PAGE_SIZE) : (stackAt off).toNat = USER_STACK_TOP.toNat - PAGE_SIZE + off := by
  unfold PAGE_SIZE at *
  have htop := stack_top_toNat
  have hoff : (BitVec.ofNat 64 off).toNat = off := by
    rw [BitVec.toNat_ofNat]
    omega
  have hsub : (PAGE - BitVec.ofNat 64 off).toNat = 4096 - off := by
    rw [BitVec.toNat_sub_of_le (by rw [BitVec.le_def, hoff, page_toNat]; exact h), hoff, page_toNat]
  unfold stackAt
  rw [BitVec.toNat_sub_of_le (by rw [BitVec.le_def, hsub, htop]; omega), hsub]
  omega

theorem stackAt_add (h : off + k ≤ PAGE_SIZE) : stackAt off + BitVec.ofNat 64 k = stackAt (off + k) := by
  apply BitVec.eq_of_toNat_eq
  have hk : (BitVec.ofNat 64 k).toNat = k := by
    unfold PAGE_SIZE at h
    rw [BitVec.toNat_ofNat]
    omega
  have htop := stack_top_toNat
  have hplace := stackAt_toNat h
  have hoff : (stackAt off).toNat = USER_STACK_TOP.toNat - PAGE_SIZE + off := stackAt_toNat (by omega)
  unfold PAGE_SIZE at *
  rw [BitVec.toNat_add, hk, hoff, hplace]
  omega

theorem stackAt_inside (h : off < PAGE_SIZE) :
    IsUser (stackAt off) ∧ pageNumber (stackAt off) = pageNumber (stackPage 1) ∧ wordOf (stackAt off) = off / 8 ∧
      (stackAt off).toNat % 8 = off % 8 ∧ (stackAt off).toNat % 16 = off % 16 := by
  have hoff := stackAt_toNat (Nat.le_of_lt h)
  have hpage : (stackPage 1).toNat = USER_STACK_TOP.toNat - 1 * PAGE_SIZE := stackPage_toNat (by decide)
  have htop := stack_top_toNat
  unfold IsUser USER_SPACE_BASE USER_SPACE_END pageNumber wordOf
  unfold PAGE_SIZE at *
  omega

end Places

/-! ## The pages of the stack -/

section Pages

variable {g : Labels} {m m' : Machine} {R : Nat → Option Space} {dir f top : Nat}

/-- Some reference has the space, and the others as they were. -/
structure Stacked (g : Labels) (m : Machine) (R : Nat → Option Space) (dir top : Nat) (a : Space) : Prop where
  shows : Shows g m (Pmm.put R dir (some a))
  seated : Seated g m dir (stackPage 1) top

theorem stackLoop_spec {n i : Nat} (hi : 1 < i) (hn : i + n ≤ USER_STACK_PAGES + 1)
    (hs : Stacked g m R dir top a) (h : stackLoop dir n i top m = (some f, m')) :
    f = top ∧ ∃ g' a', Stacked g' m' R dir top a' := by
  induction n generalizing i g m a with
  | zero =>
    cases h
    exact ⟨rfl, g, a, hs⟩
  | succ n ih =>
    unfold stackLoop at h
    obtain ⟨x, m1, halloc, h⟩ := bind_eq_some.mp h
    rw [if_neg (by omega)] at h
    obtain ⟨g1, hs1, -, hkept⟩ := alloc_seated hs.shows (put_same _ _ _) (stackPage_user (by omega)) halloc
    rw [put_put] at hs1
    have hother : pageNumber (stackPage 1) ≠ pageNumber (stackPage i) := by
      have hone : (stackPage 1).toNat = USER_STACK_TOP.toNat - 1 * PAGE_SIZE := stackPage_toNat (by decide)
      have hplace : (stackPage i).toNat = USER_STACK_TOP.toNat - i * PAGE_SIZE := stackPage_toNat (by omega)
      have htop := stack_top_toNat
      unfold USER_STACK_PAGES at hn
      unfold pageNumber
      unfold PAGE_SIZE at *
      omega
    exact ih (by omega) (by omega) ⟨hs1, hkept _ _ (stackPage_user (by decide)) hother hs.seated⟩ h

theorem stackPages_spec (hs : Shows g m R) (live : R dir = some a)
    (h : stackLoop dir USER_STACK_PAGES 1 0 m = (some top, m')) : ∃ g' a', Stacked g' m' R dir top a' := by
  rw [USER_STACK_PAGES] at h
  unfold stackLoop at h
  obtain ⟨x, m1, halloc, h⟩ := bind_eq_some.mp h
  rw [if_pos rfl] at h
  obtain ⟨g1, hs1, hseat, -⟩ := alloc_seated hs live (stackPage_user (by decide)) halloc
  obtain ⟨rfl, hrest⟩ := stackLoop_spec (by decide) (by decide) ⟨hs1, hseat⟩ h
  exact hrest

end Pages

/-! ## What the program reads -/

def userByte (m : Machine) (dir : Nat) (virt : Word) : Option UInt8 :=
  (userLoad m dir virt).map fun w => byteOf w (virt.toNat % 8)

def InStack (first limit : Nat) : Prop :=
  USER_STACK_TOP.toNat - USER_STACK_PAGES * PAGE_SIZE ≤ first ∧ limit ≤ USER_STACK_TOP.toNat

/-- The stack a program is entered with: the vector at the stack pointer and the strings above it. -/
structure Laid (m : Machine) (dir argc : Nat) (argv : Nat → CString) (rsp : Word) (ptr : Nat → Word) : Prop where
  aligned : rsp.toNat % 16 = 0
  count : userLoad m dir rsp = some (BitVec.ofNat 64 argc)
  vector : ∀ i, i < argc → userLoad m dir (rsp + BitVec.ofNat 64 (8 * (1 + i))) = some (ptr i)
  ended : userLoad m dir (rsp + BitVec.ofNat 64 (8 * (1 + argc))) = some 0
  environ : userLoad m dir (rsp + BitVec.ofNat 64 (8 * (2 + argc))) = some 0
  copies : ∀ i, i < argc → ∀ k, k < (argv i).whole.length →
    userByte m dir (ptr i + BitVec.ofNat 64 k) = some (byteAt (argv i).whole k)
  vector_inside : InStack rsp.toNat (rsp.toNat + 8 * (argc + 3))
  inside : ∀ i, i < argc → InStack (ptr i).toNat ((ptr i).toNat + (argv i).whole.length)
  above : ∀ i, i < argc → rsp.toNat + 8 * (argc + 3) ≤ (ptr i).toNat
  apart : ∀ i j, i < j → j < argc → (ptr i).toNat + (argv i).whole.length ≤ (ptr j).toNat

section Read

variable {g : Labels} {m m' : Machine} {R : Nat → Option Space} {a : Space} {dir top off argc : Nat}
  {argv : Nat → CString} {words : Content}

theorem Stacked.load (hs : Stacked g m R dir top w) (hoff : off < PAGE_SIZE) :
    userLoad (m.setFrame top words) dir (stackAt off) = some (words (off / 8)) := by
  obtain ⟨huser, hpage, hword, -, -⟩ := stackAt_inside hoff
  have hnow := hs.seated.overwrite hs.shows (put_same _ _ _) (stackPage_user (by decide)) words true
  rw [put_put] at hnow
  rw [hnow.load (put_same _ _ _) huser, hpage, put_same, hword]
  rfl

theorem Stacked.byte (hs : Stacked g m R dir top w) (hoff : off < PAGE_SIZE) :
    userByte (m.setFrame top words) dir (stackAt off) = some (byteIn words off) := by
  obtain ⟨-, -, -, height, -⟩ := stackAt_inside hoff
  unfold userByte byteIn
  rw [hs.load hoff, height]
  rfl

theorem Packed.found (hl : Packed argc argv off words) (hs : Stacked g m R dir top w)
    (hfits : total argv argc + (argc + 3) * 8 ≤ PAGE_SIZE) :
    Laid (m.setFrame top words) dir argc argv (stackAt off)
      fun i => stackAt (placeOf argv (PAGE_SIZE - total argv argc) i) := by
  obtain ⟨base, hbase⟩ : ∃ base, base = PAGE_SIZE - total argv argc := ⟨_, rfl⟩
  have hroom := hl.room
  have haligned := hl.aligned
  have hsize : PAGE_SIZE = 4096 := rfl
  have htop := stack_top_toNat
  have hrsp : (stackAt off).toNat = USER_STACK_TOP.toNat - PAGE_SIZE + off := stackAt_toNat (by omega)
  have hend : ∀ i, i < argc → placeOf argv base i + (argv i).whole.length ≤ PAGE_SIZE := by
    intro i hi
    have hle := total_add argv hi
    unfold placeOf
    omega
  have hptr : ∀ i, i < argc → (stackAt (placeOf argv base i)).toNat = USER_STACK_TOP.toNat - PAGE_SIZE + placeOf argv base i := by
    intro i hi
    have hle := hend i hi
    exact stackAt_toNat (by omega)
  have hword : ∀ k, k < argc + 3 → userLoad (m.setFrame top words) dir (stackAt off + BitVec.ofNat 64 (8 * k)) =
      some (words (off / 8 + k)) := by
    intro k hk
    have hdiv : (off + 8 * k) / 8 = off / 8 + k := by omega
    rw [stackAt_add (by omega), hs.load (by omega), hdiv]
  rw [← hbase]
  rw [← hbase] at hroom
  refine ⟨?_, ?_, ?_, ?_, ?_, ?_, ?_, ?_, ?_, ?_⟩
  · rw [(stackAt_inside (by omega)).2.2.2.2]
    exact haligned
  · rw [hs.load (by omega), hl.count]
  · intro i hi
    rw [hword _ (by omega), ← Nat.add_assoc, hl.pointers i hi, hbase]
  · rw [hword _ (by omega), ← Nat.add_assoc, hl.ended]
  · rw [hword _ (by omega), ← Nat.add_assoc, hl.environ]
  · intro i hi k hk
    have hle := hend i hi
    rw [stackAt_add (by omega), hs.byte (by omega)]
    rw [hbase]
    exact congrArg some (hl.strings i k hi hk)
  · unfold InStack USER_STACK_PAGES
    omega
  · intro i hi
    have hle := hend i hi
    have hplace := hptr i hi
    unfold InStack USER_STACK_PAGES
    omega
  · intro i hi
    rw [hptr i hi, hrsp]
    unfold placeOf
    omega
  · intro i j hij hj
    have hle := total_add argv hij
    rw [hptr i (by omega), hptr j hj]
    unfold placeOf
    omega

/-- A stack that is built is as a program expects it; arguments that do not fit are refused, and nothing else is, as long
as there are pages. -/
theorem stack_laid_out {argc : Int} {argv : Option (Nat → Option CString)} {r : Option Word} (hs : Shows g m R)
    (live : R dir = some a) (h : userBuildStack dir argc argv m = (r, m')) :
    (∀ rsp, r = some rsp → ∃ ptr, Laid m' dir argc.toNat (argument argv) rsp ptr) ∧
      (¬ Fits argc.toNat (argument argv) → r = none) ∧
      (Fits argc.toNat (argument argv) → r = none → (stackLoop dir USER_STACK_PAGES 1 0 m).1 = none) := by
  have hcount : (if argc < 0 then 0 else argc.toNat) = argc.toNat := by
    split <;> omega
  unfold userBuildStack at h
  rcases hpages : stackLoop dir USER_STACK_PAGES 1 0 m with ⟨_ | top, m1⟩
  · rw [bind_of_none hpages] at h
    cases h
    exact ⟨fun _ hr => (by cases hr), fun _ => rfl, fun _ _ => rfl⟩
  · rw [bind_of_some hpages] at h
    simp only [hcount] at h
    obtain ⟨g1, w, hstack⟩ := stackPages_spec hs live hpages
    by_cases hfits : Fits argc.toNat (argument argv)
    · obtain ⟨off, words, hrun, hlaid⟩ := layOut_spec (m1.mem top) hfits.2
      rw [if_neg (Nat.not_lt.mpr hfits.1)] at h
      have hbuilt : onFrame top (layOut argc.toNat (argument argv)) m1 = (some (stackAt off), m1.setFrame top words) := by
        unfold onFrame zoom
        rw [hrun]
      rw [hbuilt] at h
      cases h
      refine ⟨?_, fun hnot => absurd hfits hnot, fun _ hr => by cases hr⟩
      intro rsp hrsp
      rw [← Option.some.inj hrsp]
      exact ⟨_, hlaid.found hstack hfits.2⟩
    · have hnone : r = none := by
        split at h
        · cases h
          rfl
        · next hmax =>
          have hbig : PAGE_SIZE < total (argument argv) argc.toNat + (argc.toNat + 3) * 8 := by
            unfold Fits at hfits
            omega
          unfold onFrame zoom at h
          have hlay := layOut_none (m1.mem top) hbig
          exact (congrArg Prod.fst h).symm.trans hlay
      rw [hnone]
      exact ⟨fun _ hr => (by cases hr), fun _ => rfl, fun hyes => absurd hyes hfits⟩

end Read

/-! ## A stack with one word on it -/

def sampleLarge : Machine := { sampleBoot with pmm := { sampleBoot.pmm with totalFrames := 64 } }

theorem sampleLarge_booted : Booted sampleLarge where
  total := by decide
  kernel := by decide
  hole := by decide
  past := fun _ => rfl

def sampleRoom : Machine := (newFew sampleLarge).2

theorem sampleRoom_run : newDirectory sampleLarge = (some 2, sampleRoom) := by
  have hsparse : Sparse sampleLarge := fun _ _ _ => rfl
  rw [(newDirectory_few sampleLarge hsparse).1]
  exact Prod.ext (by decide +kernel) rfl

theorem sampleRoom_shows : ∃ g, Shows g sampleRoom (Pmm.put (fun _ => none) 2 (some fun _ => none)) :=
  Paging.Run.shows (Relation.ReflTransGen.single ⟨_, Paging.Step.new sampleRoom_run⟩) ⟨_, sampleLarge_booted.shows⟩

/-- `ls` and no second word. -/
def sampleWords : Option (Nat → Option CString) := some fun i => if i = 0 then some ⟨[108, 115], by decide⟩ else none

theorem sampleStack_built : (userBuildStack 2 2 sampleWords sampleRoom).1 = some 0x804FFFFFD0 := by decide +kernel

theorem stack_laid_out_sample : ∃ ptr, Laid (userBuildStack 2 2 sampleWords sampleRoom).2 2 2 (argument sampleWords)
    0x804FFFFFD0 ptr := by
  obtain ⟨g, hg⟩ := sampleRoom_shows
  have hrun : userBuildStack 2 2 sampleWords sampleRoom = (some 0x804FFFFFD0, (userBuildStack 2 2 sampleWords sampleRoom).2) :=
    Prod.mk.eta.symm.trans (congrArg (fun r => (r, (userBuildStack 2 2 sampleWords sampleRoom).2)) sampleStack_built)
  exact (stack_laid_out hg (put_same _ _ _) hrun).1 _ rfl

end Zelr.User
