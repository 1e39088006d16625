import Zelr.Base.Act

/-!
# The frame allocator

`pmm.c`: one bit per frame, a byte per frame that counts the holders past the first, and the place
where the last search stopped. A frame is named by its index; the address the code hands about is
the index times the page size, and 0 is no frame. The lock around each function makes it one step.
-/

namespace Zelr.Paging

structure Pmm where
  bitmap : Nat → Bool
  totalFrames : Nat
  usedFrames : Nat
  nextHint : Nat
  testAllocsLeft : Nat
  /-- there is none until the heap exists -/
  extra : Option (Nat → Nat)
  sharedNow : Nat

namespace Pmm

/-- `0xFFFFFFFF`: allocations are not limited. -/
def NO_LIMIT : Nat := 0xFFFFFFFF

def put {α : Type} (f : Nat → α) (i : Nat) (x : α) : Nat → α := fun j => if j = i then x else f j

@[simp] theorem put_same {α : Type} (f : Nat → α) (i : Nat) (x : α) : put f i x i = x := if_pos rfl

theorem put_other {α : Type} (f : Nat → α) {i j : Nat} (x : α) (h : j ≠ i) : put f i x j = f j := if_neg h

theorem put_put {α : Type} (f : Nat → α) (i : Nat) (x y : α) : put (put f i x) i y = put f i y := by
  funext j
  unfold put
  split <;> rfl

def markUsed (frame : Nat) (p : Pmm) : Pmm :=
  if frame ≥ p.totalFrames then p
  else if p.bitmap frame then p
  else { p with bitmap := put p.bitmap frame true, usedFrames := p.usedFrames + 1 }

def markFree (frame : Nat) (p : Pmm) : Pmm :=
  if frame ≥ p.totalFrames then p
  else if p.bitmap frame then { p with bitmap := put p.bitmap frame false, usedFrames := p.usedFrames - 1 }
  else p

def isUsed (p : Pmm) (frame : Nat) : Bool :=
  if frame ≥ p.totalFrames then true else p.bitmap frame

def candidate (p : Pmm) (n : Nat) : Nat :=
  if p.nextHint + n ≥ p.totalFrames then p.nextHint + n - p.totalFrames else p.nextHint + n

def search (p : Pmm) : Option Nat :=
  ((List.range p.totalFrames).map p.candidate).find? (fun i => !p.isUsed i)

def claim (frame : Nat) (p : Pmm) : Pmm :=
  { markUsed frame p with nextHint := if frame + 1 ≥ p.totalFrames then 0 else frame + 1 }

def countDown (p : Pmm) : Pmm :=
  if p.testAllocsLeft = NO_LIMIT then p else { p with testAllocsLeft := p.testAllocsLeft - 1 }

/-- 0 when there is no frame to be had. -/
def allocFrame : Act Pmm Nat := fun p =>
  if p.testAllocsLeft = 0 then (some 0, p)
  else match search (countDown p) with
    | some i => (some i, claim i (countDown p))
    | none => (some 0, countDown p)

def share (frame : Nat) : Act Pmm Bool := fun p =>
  match p.extra with
  | none => (some false, p)
  | some extra =>
    if frame = 0 ∨ frame ≥ p.totalFrames then (some false, p)
    else if extra frame = 255 then (some false, p)
    else (some true, { p with
      extra := some (put extra frame (extra frame + 1))
      sharedNow := if extra frame = 0 then p.sharedNow + 1 else p.sharedNow })

def past (p : Pmm) (frame : Nat) : Nat :=
  match p.extra with
  | some extra => extra frame
  | none => 0

def holders (frame : Nat) (p : Pmm) : Nat :=
  if frame = 0 then 0 else if frame ≥ p.totalFrames then 0 else 1 + p.past frame

/-- Giving one back is giving up a hold on it. Only the last one frees. -/
def freeFrame (frame : Nat) : Act Pmm Unit := fun p =>
  if frame = 0 then (some (), p)
  else match p.extra with
    | some extra =>
      if frame < p.totalFrames ∧ extra frame ≠ 0 then
        (some (), { p with
          extra := some (put extra frame (extra frame - 1))
          sharedNow := if extra frame - 1 = 0 then p.sharedNow - 1 else p.sharedNow })
      else (some (), markFree frame p)
    | none => (some (), markFree frame p)

/-- `pmm_reserve`, for the frames that the range meets. -/
def reserve (frames : List Nat) (p : Pmm) : Pmm := frames.foldl (fun p f => markUsed f p) p

/-- `pmm_init`: `usable` are the frames of the regions that are memory, `kernel` those of the kernel and of the map. -/
def init (total : Nat) (usable kernel : List Nat) : Pmm :=
  let p : Pmm := ⟨fun _ => true, total, total, 0, NO_LIMIT, none, 0⟩
  let p := usable.foldl (fun p f => markFree f p) p
  -- the first megabyte
  reserve kernel (reserve (List.range 256) p)

def shareInit (granted : Bool) (p : Pmm) : Pmm :=
  if p.extra.isSome ∨ p.totalFrames = 0 ∨ granted = false then p else { p with extra := some fun _ => 0 }

/-! ## What a search finds -/

section Spec

variable {p p' : Pmm} {frame : Nat}

theorem past_of_some {extra : Nat → Nat} (h : p.extra = some extra) : p.past = extra := by
  funext f
  unfold past
  rw [h]

@[simp] theorem countDown_isUsed (p : Pmm) : (countDown p).isUsed frame = p.isUsed frame := by
  unfold countDown
  split <;> rfl

theorem isUsed_eq_false : p.isUsed frame = false ↔ frame < p.totalFrames ∧ p.bitmap frame = false := by
  unfold isUsed
  split
  · simp
    omega
  · simp
    omega

theorem search_unused (h : search p = some frame) : p.isUsed frame = false := by
  have := List.find?_some h
  simpa using this

@[simp] theorem countDown_past (p : Pmm) : (countDown p).past = p.past := by
  unfold countDown
  split <;> rfl

@[simp] theorem countDown_total (p : Pmm) : (countDown p).totalFrames = p.totalFrames := by
  unfold countDown
  split <;> rfl

@[simp] theorem countDown_bitmap (p : Pmm) : (countDown p).bitmap = p.bitmap := by
  unfold countDown
  split <;> rfl

@[simp] theorem countDown_used (p : Pmm) : (countDown p).usedFrames = p.usedFrames := by
  unfold countDown
  split <;> rfl

@[simp] theorem countDown_shared (p : Pmm) : (countDown p).sharedNow = p.sharedNow := by
  unfold countDown
  split <;> rfl

@[simp] theorem markUsed_past (p : Pmm) : (markUsed frame p).past = p.past := by
  unfold markUsed
  split
  · rfl
  · split <;> rfl

@[simp] theorem markUsed_total (p : Pmm) : (markUsed frame p).totalFrames = p.totalFrames := by
  unfold markUsed
  split
  · rfl
  · split <;> rfl

theorem markUsed_isUsed {f : Nat} (h : (markUsed frame p).isUsed f = false) :
    p.isUsed f = false ∧ f ≠ frame := by
  rw [isUsed_eq_false, markUsed_total] at h
  rw [isUsed_eq_false]
  obtain ⟨hlt, hbit⟩ := h
  unfold markUsed at hbit
  split at hbit
  · exact ⟨⟨hlt, hbit⟩, by omega⟩
  · split at hbit
    · next hused =>
      refine ⟨⟨hlt, hbit⟩, ?_⟩
      rintro rfl
      rw [hused] at hbit
      cases hbit
    · by_cases hf : f = frame
      · rw [hf] at hbit
        simp at hbit
      · simp only [put_other _ _ hf] at hbit
        exact ⟨⟨hlt, hbit⟩, hf⟩

@[simp] theorem claim_past (p : Pmm) : (claim frame p).past = p.past := markUsed_past p

@[simp] theorem claim_total (p : Pmm) : (claim frame p).totalFrames = p.totalFrames := markUsed_total p

theorem allocFrame_spec (h : allocFrame p = (some frame, p')) (hne : frame ≠ 0) :
    p.isUsed frame = false ∧ p'.totalFrames = p.totalFrames ∧ p'.past = p.past ∧
      ∀ f, p'.isUsed f = false → p.isUsed f = false ∧ f ≠ frame := by
  unfold allocFrame at h
  split at h
  · cases h
    exact absurd rfl hne
  · split at h
    · next i hi =>
      cases h
      refine ⟨?_, ?_, ?_, ?_⟩
      · have := search_unused hi
        rwa [countDown_isUsed] at this
      · rw [claim_total, countDown_total]
      · rw [claim_past, countDown_past]
      · intro f hf
        have := markUsed_isUsed (p := countDown p) hf
        rwa [countDown_isUsed] at this
    · cases h
      exact absurd rfl hne

theorem allocFrame_exact (h : allocFrame p = (some frame, p')) (hne : frame ≠ 0) :
    frame < p.totalFrames ∧ p.bitmap frame = false ∧ p'.bitmap = put p.bitmap frame true ∧
      p'.totalFrames = p.totalFrames ∧ p'.usedFrames = p.usedFrames + 1 ∧ p'.past = p.past ∧
      p'.sharedNow = p.sharedNow := by
  obtain ⟨hunused, htotal, hpast, -⟩ := allocFrame_spec h hne
  obtain ⟨hlt, hbit⟩ := isUsed_eq_false.mp hunused
  unfold allocFrame at h
  split at h
  · cases h
    exact absurd rfl hne
  · split at h
    · cases h
      have hclaim : markUsed frame (countDown p) =
          { countDown p with
            bitmap := put (countDown p).bitmap frame true
            usedFrames := (countDown p).usedFrames + 1 } := by
        unfold markUsed
        rw [if_neg (by rw [countDown_total]; omega), if_neg (by simp [hbit])]
      refine ⟨hlt, hbit, ?_, htotal, ?_, hpast, ?_⟩
      · simp only [claim, hclaim, countDown_bitmap]
      · simp only [claim, hclaim, countDown_used]
      · simp only [claim, hclaim, countDown_shared]
    · cases h
      exact absurd rfl hne

theorem allocFrame_none (h : allocFrame p = (some 0, p')) (hzero : 0 < p.totalFrames → p.bitmap 0 = true) :
    p'.bitmap = p.bitmap ∧ p'.totalFrames = p.totalFrames ∧ p'.usedFrames = p.usedFrames ∧
      p'.past = p.past ∧ p'.sharedNow = p.sharedNow := by
  unfold allocFrame at h
  split at h
  · cases h
    exact ⟨rfl, rfl, rfl, rfl, rfl⟩
  · split at h
    · next hfound =>
      cases h
      have hunused := search_unused hfound
      rw [countDown_isUsed, isUsed_eq_false] at hunused
      rw [hzero hunused.1] at hunused
      exact absurd hunused.2 (by decide)
    · cases h
      exact ⟨countDown_bitmap p, countDown_total p, countDown_used p, countDown_past p, countDown_shared p⟩

theorem share_spec (h : share frame p = (some true, p')) :
    p'.totalFrames = p.totalFrames ∧ p'.isUsed = p.isUsed ∧
      p'.past = put p.past frame (p.past frame + 1) := by
  unfold share at h
  split at h
  · cases h
  · next extra hextra =>
    split at h
    · cases h
    · split at h
      · cases h
      · cases h
        refine ⟨rfl, rfl, ?_⟩
        rw [past_of_some hextra, past_of_some rfl]

theorem share_exact (h : share frame p = (some true, p')) :
    frame ≠ 0 ∧ p'.bitmap = p.bitmap ∧ p'.totalFrames = p.totalFrames ∧ p'.usedFrames = p.usedFrames ∧
      p'.past = put p.past frame (p.past frame + 1) ∧
      p'.sharedNow = if p.past frame = 0 then p.sharedNow + 1 else p.sharedNow := by
  obtain ⟨htotal, -, hpast⟩ := share_spec h
  unfold share at h
  split at h
  · cases h
  · next extra hextra =>
    split at h
    · cases h
    · next hin =>
      split at h
      · cases h
      · cases h
        refine ⟨fun h0 => hin (Or.inl h0), rfl, rfl, rfl, hpast, ?_⟩
        rw [past_of_some hextra]

theorem share_refused (h : share frame p = (some false, p')) : p' = p := by
  unfold share at h
  split at h
  · cases h
    rfl
  · split at h
    · cases h
      rfl
    · split at h <;> cases h
      rfl

theorem holders_eq (hne : frame ≠ 0) (hlt : frame < p.totalFrames) : holders frame p = 1 + p.past frame := by
  unfold holders
  rw [if_neg hne, if_neg (by omega)]

@[simp] theorem markFree_past (p : Pmm) : (markFree frame p).past = p.past := by
  unfold markFree
  split
  · rfl
  · split <;> rfl

@[simp] theorem markFree_total (p : Pmm) : (markFree frame p).totalFrames = p.totalFrames := by
  unfold markFree
  split
  · rfl
  · split <;> rfl

theorem markFree_isUsed {f : Nat} (h : (markFree frame p).isUsed f = false) :
    p.isUsed f = false ∨ f = frame := by
  by_cases hf : f = frame
  · exact Or.inr hf
  · left
    rw [isUsed_eq_false, markFree_total] at h
    rw [isUsed_eq_false]
    obtain ⟨hlt, hbit⟩ := h
    refine ⟨hlt, ?_⟩
    unfold markFree at hbit
    split at hbit
    · exact hbit
    · split at hbit
      · simp only [put_other _ _ hf] at hbit
        exact hbit
      · exact hbit

theorem freeFrame_shared (hne : frame ≠ 0) (hlt : frame < p.totalFrames) (hpast : p.past frame ≠ 0) :
    ∃ p', freeFrame frame p = (some (), p') ∧ p'.totalFrames = p.totalFrames ∧ p'.isUsed = p.isUsed ∧
      p'.past = put p.past frame (p.past frame - 1) := by
  unfold past at hpast
  unfold freeFrame
  rw [if_neg hne]
  rcases hextra : p.extra with _ | extra
  · rw [hextra] at hpast
    exact absurd rfl hpast
  · rw [hextra] at hpast
    refine ⟨_, if_pos ⟨hlt, hpast⟩, rfl, rfl, ?_⟩
    rw [past_of_some hextra, past_of_some rfl]

theorem freeFrame_last (hpast : p.past frame = 0) :
    ∃ p', freeFrame frame p = (some (), p') ∧ p'.totalFrames = p.totalFrames ∧ p'.past = p.past ∧
      ∀ f, p'.isUsed f = false → p.isUsed f = false ∨ f = frame := by
  unfold past at hpast
  unfold freeFrame
  by_cases hne : frame = 0
  · rw [if_pos hne]
    exact ⟨p, rfl, rfl, rfl, fun f hf => Or.inl hf⟩
  · rw [if_neg hne]
    refine ⟨markFree frame p, ?_, markFree_total p, markFree_past p, fun f hf => markFree_isUsed hf⟩
    rcases hextra : p.extra with _ | extra
    · rfl
    · rw [hextra] at hpast
      exact if_neg fun h => h.2 hpast

theorem freeFrame_total (h : freeFrame frame p = (some (), p')) : p'.totalFrames = p.totalFrames := by
  unfold freeFrame at h
  split at h
  · cases h
    rfl
  · split at h
    · split at h
      · cases h
        rfl
      · cases h
        exact markFree_total p
    · cases h
      exact markFree_total p

theorem freeFrame_exact_shared (h : freeFrame frame p = (some (), p')) (hne : frame ≠ 0)
    (hlt : frame < p.totalFrames) (hpast : p.past frame ≠ 0) :
    p'.bitmap = p.bitmap ∧ p'.totalFrames = p.totalFrames ∧ p'.usedFrames = p.usedFrames ∧
      p'.past = put p.past frame (p.past frame - 1) ∧
      p'.sharedNow = if p.past frame - 1 = 0 then p.sharedNow - 1 else p.sharedNow := by
  unfold freeFrame at h
  rw [if_neg hne] at h
  split at h
  · next extra hextra =>
    rw [past_of_some hextra] at hpast ⊢
    rw [if_pos ⟨hlt, hpast⟩] at h
    cases h
    exact ⟨rfl, rfl, rfl, past_of_some rfl, rfl⟩
  · next hextra =>
    unfold past at hpast
    rw [hextra] at hpast
    exact absurd rfl hpast

theorem freeFrame_exact_last (h : freeFrame frame p = (some (), p')) (hne : frame ≠ 0)
    (hlt : frame < p.totalFrames) (hbit : p.bitmap frame = true) (hpast : p.past frame = 0) :
    p'.bitmap = put p.bitmap frame false ∧ p'.totalFrames = p.totalFrames ∧
      p'.usedFrames = p.usedFrames - 1 ∧ p'.past = p.past ∧ p'.sharedNow = p.sharedNow := by
  have hfree : p' = markFree frame p := by
    unfold freeFrame at h
    rw [if_neg hne] at h
    split at h
    · next extra hextra =>
      rw [past_of_some hextra] at hpast
      rw [if_neg fun hin => hin.2 hpast] at h
      cases h
      rfl
    · cases h
      rfl
  subst hfree
  have hmark : markFree frame p =
      { p with bitmap := put p.bitmap frame false, usedFrames := p.usedFrames - 1 } := by
    unfold markFree
    rw [if_neg (by omega), if_pos hbit]
  rw [hmark]
  exact ⟨rfl, rfl, rfl, rfl, rfl⟩

end Spec

end Pmm

end Zelr.Paging
