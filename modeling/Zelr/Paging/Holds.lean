import Mathlib.Logic.Relation
import Zelr.Paging.Pmm

/-!
# Whose frame it is

The allocator knows a bit and a byte about a frame. The ledger beside it says what they stand for: the
frames the boot kept for itself, and how many holds on each frame were taken and not given back.
-/

namespace Zelr.Paging

open Pmm (put_same put_other)

variable {n : Nat} {b b' : Nat → Bool} {p : Pmm}

/-! ## Counting frames -/

def countFrames (n : Nat) (b : Nat → Bool) : Nat := (List.range n).countP b

theorem countFrames_succ (n : Nat) (b : Nat → Bool) :
    countFrames (n + 1) b = countFrames n b + if b n then 1 else 0 := by
  unfold countFrames
  rw [List.range_succ, List.countP_append, List.countP_singleton]

theorem countFrames_congr (h : ∀ f, f < n → b' f = b f) :
    countFrames n b' = countFrames n b := by
  unfold countFrames
  apply List.countP_congr
  intro f hf
  rw [h f (List.mem_range.mp hf)]

theorem countFrames_add {f : Nat} (hf : f < n) (hb : b f = false) (hb' : b' f = true)
    (hsame : ∀ j, j ≠ f → b' j = b j) : countFrames n b' = countFrames n b + 1 := by
  induction n with
  | zero => omega
  | succ n ih =>
    rw [countFrames_succ, countFrames_succ]
    by_cases hn : f = n
    · subst hn
      rw [hb, hb', countFrames_congr fun j hj => hsame j (by omega)]
      rfl
    · rw [ih (by omega), hsame n (by omega)]
      omega

/-! ## The ledger -/

structure Ledger where
  pmm : Pmm
  reserved : Nat → Bool
  taken : Nat → Nat

namespace Ledger

variable {l l' : Ledger} {frame : Nat}

def holders (l : Ledger) (frame : Nat) : Nat := (if l.reserved frame then 1 else 0) + l.taken frame

/-- `pmm_init` has run; the counts of sharing may or may not be there yet. -/
structure Booted (l : Ledger) : Prop where
  taken : ∀ f, l.taken f = 0
  reserved : ∀ f, l.reserved f = true ↔ f < l.pmm.totalFrames ∧ l.pmm.bitmap f = true
  -- the first megabyte is never handed out
  zero : 0 < l.pmm.totalFrames → l.pmm.bitmap 0 = true
  past : ∀ f, l.pmm.past f = 0
  used : l.pmm.usedFrames = countFrames l.pmm.totalFrames l.pmm.bitmap
  shared : l.pmm.sharedNow = 0

/-- One call. A share is asked for by somebody who holds the frame, and what is given back was taken. -/
inductive Step : Ledger → Ledger → Prop
  | alloc {l : Ledger} {frame : Nat} {p : Pmm} (call : Pmm.allocFrame l.pmm = (some frame, p)) :
    Step l { l with
      pmm := p
      taken := if frame = 0 then l.taken else Pmm.put l.taken frame (l.taken frame + 1) }
  | share {l : Ledger} {frame : Nat} {took : Bool} {p : Pmm} (held : 0 < l.holders frame)
    (call : Pmm.share frame l.pmm = (some took, p)) :
    Step l { l with
      pmm := p
      taken := if took then Pmm.put l.taken frame (l.taken frame + 1) else l.taken }
  | free {l : Ledger} {frame : Nat} {p : Pmm} (held : 0 < l.taken frame)
    (call : Pmm.freeFrame frame l.pmm = (some (), p)) :
    Step l { l with pmm := p, taken := Pmm.put l.taken frame (l.taken frame - 1) }

def Run : Ledger → Ledger → Prop := Relation.ReflTransGen Step

/-! ## What every call keeps -/

structure Kept (l : Ledger) : Prop where
  bit : ∀ f, f < l.pmm.totalFrames → (l.pmm.bitmap f = true ↔ 0 < l.holders f)
  inside : ∀ f, 0 < l.holders f → f < l.pmm.totalFrames
  past : ∀ f, l.pmm.past f = l.holders f - 1
  zero : l.taken 0 = 0 ∧ (0 < l.pmm.totalFrames → 0 < l.holders 0)
  used : l.pmm.usedFrames = countFrames l.pmm.totalFrames l.pmm.bitmap
  shared : l.pmm.sharedNow = countFrames l.pmm.totalFrames fun f => decide (1 < l.holders f)

theorem Booted.kept (h : Booted l) : Kept l := by
  have hone : ∀ f, l.holders f = if l.reserved f then 1 else 0 := by
    intro f
    unfold holders
    rw [h.taken f, Nat.add_zero]
  have hpos : ∀ f, 0 < l.holders f ↔ f < l.pmm.totalFrames ∧ l.pmm.bitmap f = true := by
    intro f
    rw [hone, ← h.reserved f]
    split <;> simp_all
  constructor
  · intro f hf
    rw [hpos]
    exact ⟨fun hb => ⟨hf, hb⟩, fun hb => hb.2⟩
  · exact fun f hf => ((hpos f).mp hf).1
  · intro f
    rw [h.past, hone]
    split <;> rfl
  · exact ⟨h.taken 0, fun hlt => (hpos 0).mpr ⟨hlt, h.zero hlt⟩⟩
  · exact h.used
  · have hnone : ∀ f, decide (1 < l.holders f) = false := by
      intro f
      rw [hone]
      split <;> rfl
    rw [h.shared, countFrames_congr (b := fun _ => false) fun f _ => hnone f]
    simp [countFrames]

theorem holders_put (l : Ledger) (p : Pmm) (frame n f : Nat) :
    holders { l with pmm := p, taken := Pmm.put l.taken frame n } f =
      if f = frame then (if l.reserved frame then 1 else 0) + n else l.holders f := by
  unfold holders
  by_cases hf : f = frame
  · simp only [hf, if_pos, put_same]
  · simp only [if_neg hf, put_other _ _ hf]

theorem holders_pmm (l : Ledger) (p : Pmm) (f : Nat) : holders { l with pmm := p } f = l.holders f := rfl

theorem holders_take (l : Ledger) (p : Pmm) (frame f : Nat) :
    holders { l with pmm := p, taken := Pmm.put l.taken frame (l.taken frame + 1) } f =
      if f = frame then l.holders frame + 1 else l.holders f := by
  rw [holders_put, ← Nat.add_assoc]
  rfl

theorem holders_give (l : Ledger) (p : Pmm) (frame f : Nat) (h : 0 < l.taken frame) :
    holders { l with pmm := p, taken := Pmm.put l.taken frame (l.taken frame - 1) } f =
      if f = frame then l.holders frame - 1 else l.holders f := by
  rw [holders_put, ← Nat.add_sub_assoc h]
  rfl

theorem Kept.change {k n : Nat} (hl : Kept l) (hne : frame ≠ 0) (hlt : frame < l.pmm.totalFrames)
    (hholders : ∀ f, holders { l with pmm := p, taken := Pmm.put l.taken frame n } f =
      if f = frame then k else l.holders f)
    (htotal : p.totalFrames = l.pmm.totalFrames) (hbit : p.bitmap frame = true ↔ 0 < k)
    (hbits : ∀ f, f ≠ frame → p.bitmap f = l.pmm.bitmap f) (hpast : p.past frame = k - 1)
    (hpasts : ∀ f, f ≠ frame → p.past f = l.pmm.past f)
    (hused : p.usedFrames = countFrames l.pmm.totalFrames p.bitmap)
    (hshared : p.sharedNow = countFrames l.pmm.totalFrames fun f => decide (1 < if f = frame then k else l.holders f)) :
    Kept { l with pmm := p, taken := Pmm.put l.taken frame n } where
  bit f hf := by
    rw [hholders]
    split
    · next hff => rwa [hff]
    · next hff =>
      rw [hbits f hff]
      exact hl.bit f (htotal ▸ hf)
  inside f := by
    rw [hholders]
    simp only [htotal]
    split
    · next hff => exact fun _ => hff ▸ hlt
    · exact hl.inside f
  past f := by
    rw [hholders]
    split
    · next hff => rwa [hff]
    · next hff => rw [hpasts f hff, hl.past f]
  zero := by
    rw [hholders, if_neg (Ne.symm hne)]
    refine ⟨(put_other _ _ (Ne.symm hne)).trans hl.zero.1, ?_⟩
    simpa only [htotal] using hl.zero.2
  used := by simpa only [htotal] using hused
  shared := by simpa only [htotal, hholders] using hshared

theorem shared_same {k : Nat} (h : 1 < k ↔ 1 < l.holders frame) :
    (countFrames l.pmm.totalFrames fun f => decide (1 < if f = frame then k else l.holders f)) =
      countFrames l.pmm.totalFrames fun f => decide (1 < l.holders f) := by
  apply countFrames_congr
  intro f _
  split
  · next hff => rw [hff, decide_eq_decide.mpr h]
  · rfl

theorem Kept.alloc_unheld (hl : Kept l) (call : Pmm.allocFrame l.pmm = (some frame, p))
    (hne : frame ≠ 0) : l.holders frame = 0 := by
  obtain ⟨hlt, hbit, -⟩ := Pmm.allocFrame_exact call hne
  have := mt (hl.bit frame hlt).mpr
  rw [hbit] at this
  simpa using this

theorem Kept.alloc (hl : Kept l) (call : Pmm.allocFrame l.pmm = (some frame, p)) :
    Kept { l with
      pmm := p
      taken := if frame = 0 then l.taken else Pmm.put l.taken frame (l.taken frame + 1) } := by
  by_cases hne : frame = 0
  · subst hne
    have hused : 0 < l.pmm.totalFrames → l.pmm.bitmap 0 = true := fun hlt =>
      (hl.bit 0 hlt).mpr (hl.zero.2 hlt)
    obtain ⟨hbits, htotal, hcount, hpast, hshared⟩ := Pmm.allocFrame_none call hused
    rw [if_pos rfl]
    constructor
    · simpa only [hbits, htotal, holders_pmm] using hl.bit
    · simpa only [htotal, holders_pmm] using hl.inside
    · simpa only [hpast, holders_pmm] using hl.past
    · simpa only [htotal, holders_pmm] using hl.zero
    · simpa only [hbits, htotal, hcount] using hl.used
    · simp only [htotal, hshared]
      exact hl.shared
  · have hnone := hl.alloc_unheld call hne
    obtain ⟨hlt, hbit, hbits, htotal, hcount, hpast, hshared⟩ := Pmm.allocFrame_exact call hne
    rw [if_neg hne]
    refine hl.change hne hlt (holders_take l p frame) htotal ?_ (fun f hff => by rw [hbits, put_other _ _ hff]) ?_
      (fun f _ => by rw [hpast]) ?_ ?_
    · simp [hbits]
    · rw [hpast, hl.past, hnone]
    · rw [hbits, hcount, hl.used]
      exact (countFrames_add hlt hbit (put_same _ _ _) fun j hj => put_other _ _ hj).symm
    · rw [hshared, hl.shared, shared_same (by omega)]

theorem Kept.share (hl : Kept l) {took : Bool} {p : Pmm} (held : 0 < l.holders frame)
    (call : Pmm.share frame l.pmm = (some took, p)) :
    Kept { l with
      pmm := p
      taken := if took then Pmm.put l.taken frame (l.taken frame + 1) else l.taken } := by
  rcases took with _ | _
  · rw [Pmm.share_refused call]
    exact hl
  · obtain ⟨hne, hbits, htotal, hcount, hpast, hshared⟩ := Pmm.share_exact call
    have hlt := hl.inside frame held
    rw [if_pos rfl]
    refine hl.change hne hlt (holders_take l p frame) htotal ?_ (fun f _ => by rw [hbits]) ?_
      (fun f hff => by rw [hpast, put_other _ _ hff]) (by rw [hbits, hcount, hl.used]) ?_
    · rw [hbits]
      exact (hl.bit frame hlt).trans ⟨fun _ => Nat.succ_pos _, fun _ => held⟩
    · rw [hpast, put_same, hl.past frame]
      omega
    · simp only [hshared, hl.shared, hl.past frame]
      split
      · -- the first share makes it one of the shared frames
        refine (countFrames_add hlt (decide_eq_false (by omega)) ?_ fun j hj => by rw [if_neg hj]).symm
        rw [if_pos rfl]
        exact decide_eq_true (by omega)
      · rw [shared_same (by omega)]

theorem Kept.free (hl : Kept l) {p : Pmm} (held : 0 < l.taken frame)
    (call : Pmm.freeFrame frame l.pmm = (some (), p)) :
    Kept { l with pmm := p, taken := Pmm.put l.taken frame (l.taken frame - 1) } := by
  have hholders : 0 < l.holders frame := Nat.lt_of_lt_of_le held (Nat.le_add_left _ _)
  have hlt := hl.inside frame hholders
  have hne : frame ≠ 0 := by
    rintro rfl
    rw [hl.zero.1] at held
    omega
  have hbit := (hl.bit frame hlt).mpr hholders
  by_cases hpast : l.pmm.past frame = 0
  · -- the last one: the frame is free
    have hone : l.holders frame = 1 := by
      have := hl.past frame
      omega
    obtain ⟨hbits, htotal, hcount, hsame, hshared⟩ := Pmm.freeFrame_exact_last call hne hlt hbit hpast
    refine hl.change hne hlt (fun f => holders_give _ _ _ _ held) htotal ?_ (fun f hff => by rw [hbits, put_other _ _ hff]) ?_
      (fun f _ => by rw [hsame]) ?_ ?_
    · simp [hbits, hone]
    · rw [hsame, hpast, hone]
    · rw [hbits, hcount, hl.used, countFrames_add hlt (put_same _ _ _) hbit fun j hj => (put_other _ _ hj).symm]
      omega
    · rw [hshared, hl.shared, shared_same (by omega)]
  · have hmany : 1 < l.holders frame := by
      have := hl.past frame
      omega
    obtain ⟨hbits, htotal, hcount, hsame, hshared⟩ := Pmm.freeFrame_exact_shared call hne hlt hpast
    refine hl.change hne hlt (fun f => holders_give _ _ _ _ held) htotal ?_ (fun f _ => by rw [hbits]) ?_
      (fun f hff => by rw [hsame, put_other _ _ hff]) (by rw [hbits, hcount, hl.used]) ?_
    · rw [hbits]
      exact (hl.bit frame hlt).trans ⟨fun _ => by omega, fun _ => hholders⟩
    · rw [hsame, put_same, hl.past frame]
    · simp only [hshared, hl.shared, hl.past frame]
      split
      · -- one holder is left: no longer one of the shared frames
        rw [countFrames_add (b := fun f => decide (1 < if f = frame then l.holders frame - 1 else l.holders f)) hlt ?_
          (decide_eq_true hmany) fun j hj => by rw [if_neg hj]]
        · omega
        · rw [if_pos rfl]
          exact decide_eq_false (by omega)
      · rw [shared_same (by omega)]

theorem Step.kept (h : Step l l') (hl : Kept l) : Kept l' := by
  rcases h with call | ⟨held, call⟩ | ⟨held, call⟩
  · exact hl.alloc call
  · exact hl.share held call
  · exact hl.free held call

theorem Run.kept (h : Run l l') (hl : Kept l) : Kept l' := by
  induction h with
  | refl => exact hl
  | tail _ hstep ih => exact hstep.kept ih

/-! ## The accounts -/

theorem Kept.free_last (hl : Kept l) (held : 0 < l.taken frame)
    (call : Pmm.freeFrame frame l.pmm = (some (), p)) : p.isUsed frame = false ↔ l.holders frame = 1 := by
  have hkept := hl.free held call
  have hholders : 0 < l.holders frame := Nat.lt_of_lt_of_le held (Nat.le_add_left _ _)
  have hlt := hl.inside frame hholders
  have htotal : p.totalFrames = l.pmm.totalFrames := Pmm.freeFrame_total call
  have hbit := hkept.bit frame (by simpa only [htotal] using hlt)
  rw [holders_give _ _ _ _ held, if_pos rfl] at hbit
  rw [Pmm.isUsed_eq_false, htotal, ← Bool.not_eq_true]
  simp only at hbit
  rw [hbit]
  omega

/-- A frame is handed out only when nobody holds it, its bit is set exactly while somebody does, the last hold given back
frees it, and both counters count. -/
theorem frames_accounted (hboot : Booted l) (hrun : Run l l') :
    (∀ frame p, Pmm.allocFrame l'.pmm = (some frame, p) → frame ≠ 0 → l'.holders frame = 0) ∧
      (∀ frame, frame < l'.pmm.totalFrames → (l'.pmm.bitmap frame = true ↔ 0 < l'.holders frame)) ∧
      (∀ frame p, 0 < l'.taken frame → Pmm.freeFrame frame l'.pmm = (some (), p) →
        (p.isUsed frame = false ↔ l'.holders frame = 1)) ∧
      l'.pmm.usedFrames = countFrames l'.pmm.totalFrames l'.pmm.bitmap ∧
      l'.pmm.sharedNow = countFrames l'.pmm.totalFrames fun frame => decide (1 < l'.holders frame) := by
  have hkept := hrun.kept hboot.kept
  exact ⟨fun _ _ call hne => hkept.alloc_unheld call hne, hkept.bit,
    fun _ _ held call => hkept.free_last held call, hkept.used, hkept.shared⟩

/-- Three frames, the first of them the kernel's. -/
def sample : Ledger where
  pmm :=
    { bitmap := fun f => f == 0, totalFrames := 3, usedFrames := 1, nextHint := 0
      testAllocsLeft := Pmm.NO_LIMIT, extra := some fun _ => 0, sharedNow := 0 }
  reserved := fun f => f == 0
  taken := fun _ => 0

theorem sample_booted : Booted sample where
  taken := fun _ => rfl
  reserved := by
    intro f
    simp only [sample, beq_iff_eq]
    omega
  zero := fun _ => rfl
  past := fun _ => rfl
  used := by decide
  shared := rfl

/-- A frame is handed out, shared, and both holds are given back. -/
theorem frames_accounted_sample :
    ∃ l, Run sample l ∧ l.holders 1 = 0 ∧ l.pmm.bitmap 1 = false ∧ l.pmm.usedFrames = 1 := by
  have hrun : Run sample _ :=
    (((Relation.ReflTransGen.refl.tail (Step.alloc rfl)).tail (@Step.share _ 1 _ _ (by decide) rfl)).tail
      (@Step.free _ 1 _ (by decide) rfl)).tail (@Step.free _ 1 _ (by decide) rfl)
  obtain ⟨-, hbit, -, hused, -⟩ := frames_accounted sample_booted hrun
  refine ⟨_, hrun, rfl, ?_, ?_⟩
  · rw [← Bool.not_eq_true, hbit 1 (by decide)]
    decide
  · rw [hused]
    decide

/-- A share asked for by nobody who holds the frame is counted, and the frame is handed out. -/
theorem share_of_nobodys_frame :
    Booted sample ∧ sample.holders 1 = 0 ∧ ∃ p p', Pmm.share 1 sample.pmm = (some true, p) ∧
      holders { sample with pmm := p, taken := Pmm.put sample.taken 1 1 } 1 = 1 ∧
      Pmm.allocFrame p = (some 1, p') :=
  ⟨sample_booted, rfl, _, _, rfl, rfl, rfl⟩

end Ledger

/-! ## The boot -/

/-- While the boot goes on: the count is that of the bits, and nothing is shared. -/
structure Booting (p : Pmm) : Prop where
  past : ∀ f, p.past f = 0
  used : p.usedFrames = countFrames p.totalFrames p.bitmap
  shared : p.sharedNow = 0

theorem Booting.markUsed (h : Booting p) (f : Nat) : Booting (Pmm.markUsed f p) := by
  unfold Pmm.markUsed
  split
  · exact h
  · split
    · exact h
    · next hlt hbit =>
      refine ⟨h.past, ?_, h.shared⟩
      rw [h.used]
      exact (countFrames_add (by omega) (by simpa using hbit) (put_same _ _ _) fun j hj => put_other _ _ hj).symm

theorem Booting.markFree (h : Booting p) (f : Nat) : Booting (Pmm.markFree f p) := by
  unfold Pmm.markFree
  split
  · exact h
  · split
    · next hlt hbit =>
      refine ⟨h.past, ?_, h.shared⟩
      have hadd := @countFrames_add p.totalFrames (Pmm.put p.bitmap f false) p.bitmap f (by omega) (put_same _ _ _) hbit
        fun j hj => (put_other _ _ hj).symm
      simp only [h.used, hadd, Nat.add_sub_cancel]
    · exact h

theorem Booting.reserve (h : Booting p) (frames : List Nat) : Booting (Pmm.reserve frames p) :=
  List.foldlRecOn frames _ h fun _ hp f _ => hp.markUsed f

theorem reserve_used (frames : List Nat) {f : Nat} (h : p.isUsed f = true ∨ f ∈ frames) :
    (Pmm.reserve frames p).isUsed f = true := by
  induction frames generalizing p with
  | nil => exact h.resolve_right List.not_mem_nil
  | cons g frames ih =>
    refine ih (or_iff_not_imp_left.mpr fun hno => ?_)
    obtain ⟨hfree, hne⟩ := Pmm.markUsed_isUsed (Bool.not_eq_true _ ▸ hno)
    rw [hfree, List.mem_cons] at h
    exact (h.resolve_left Bool.false_ne_true).resolve_left hne

/-- Whatever memory there is and whatever is reserved after `pmm_init`. -/
theorem init_booted (total : Nat) (usable kernel kept : List Nat) (granted : Bool) {p : Pmm}
    (hp : Pmm.shareInit granted (Pmm.reserve kept (Pmm.init total usable kernel)) = p) :
    Ledger.Booted ⟨p, fun f => decide (f < p.totalFrames) && p.bitmap f, fun _ => 0⟩ := by
  have hfreed : Booting (usable.foldl (fun p f => Pmm.markFree f p) ⟨fun _ => true, total, total, 0, Pmm.NO_LIMIT, none, 0⟩) :=
    List.foldlRecOn usable _ ⟨fun _ => rfl, by simp [countFrames], rfl⟩ fun _ hp f _ => hp.markFree f
  have hboot := ((hfreed.reserve (List.range 256)).reserve kernel).reserve kept
  have hzero : (Pmm.reserve kept (Pmm.init total usable kernel)).isUsed 0 = true :=
    reserve_used kept (.inl (reserve_used kernel (.inl (reserve_used (List.range 256) (.inr (List.mem_range.mpr (by decide)))))))
  change Booting (Pmm.reserve kept (Pmm.init total usable kernel)) at hboot
  generalize Pmm.reserve kept (Pmm.init total usable kernel) = q at hp hboot hzero
  obtain ⟨hboot, hzero⟩ : Booting p ∧ p.isUsed 0 = true := by
    unfold Pmm.shareInit at hp
    split at hp
    · exact hp ▸ ⟨hboot, hzero⟩
    · exact hp ▸ ⟨⟨fun _ => rfl, hboot.used, hboot.shared⟩, hzero⟩
  refine ⟨fun _ => rfl, fun f => by simp, fun hlt => ?_, hboot.past, hboot.used, hboot.shared⟩
  by_contra hno
  rw [Pmm.isUsed_eq_false.mpr ⟨hlt, by simpa using hno⟩] at hzero
  cases hzero

end Zelr.Paging
