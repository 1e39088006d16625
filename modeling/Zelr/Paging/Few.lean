import Zelr.Paging.Mapping

/-!
# Spaces with few entries

In a machine in which only the first two words of each frame are in use, a loop over the entries of a
table does nothing after the second. The loops of `paging.c` are then as short as the spaces are small.
-/

namespace Zelr.Paging

open Act
open Pmm (put_same put_other)

variable {f N src : Nat} {α : Type} {body body' : Nat → Act Machine Unit}

section Few

variable {m : Machine}

def Sparse (m : Machine) : Prop := ∀ t i, 2 ≤ i → m.mem t i = 0

variable {e flags virt : Word} {i t dir : Nat} {m' : Machine}

theorem setEntry_idle (h : m.mem t i = e) : m.setEntry t i e = m := by
  have hmem : (m.setEntry t i e).mem = m.mem := by
    funext a b
    rw [setEntry_mem]
    split
    · next heq => rw [heq.1, heq.2, h]
    · rfl
  unfold Machine.setEntry at hmem ⊢
  simp only at hmem
  rw [hmem]

theorem sparse_setWord (hi : i < 2) : Preserves Sparse (setWord t i e) := by
  intro m h a j hj
  show (m.setEntry t i e).mem a j = 0
  rw [setEntry_mem, if_neg (by omega)]
  exact h a j hj

theorem sparse_setFrame {words : Machine → Nat → Word} (hw : ∀ m, Sparse m → ∀ j, 2 ≤ j → words m j = 0) :
    Preserves Sparse (modify fun m => m.setFrame f (words m)) := by
  intro m h a j hj
  show Pmm.put m.mem f (words m) a j = 0
  by_cases ha : a = f
  · rw [ha, put_same]
    exact hw m h j hj
  · rw [put_other _ _ ha]
    exact h a j hj

theorem sparse_word (t i : Nat) : Preserves Sparse (word t i) := fun _ h => h

theorem sparse_onPmm (act : Act Pmm α) : Preserves Sparse (onPmm act) := fun _ h => h

theorem sparse_alloc : Preserves Sparse allocFrame :=
  Preserves.bind (sparse_onPmm _) fun _ => Preserves.ite Preserves.stop (Preserves.pure _)

theorem sparse_clear (f : Nat) : Preserves Sparse (clearFrame f) := sparse_setFrame fun _ _ _ _ => rfl

theorem sparse_copy (f src : Nat) : Preserves Sparse (copyFrame f src) := sparse_setFrame fun _ h => h src

theorem upto_few (hN : 2 ≤ N)
    (hfew : ∀ i s, i < 2 → Sparse s → body i s = body' i s)
    (hidle : ∀ i s, 2 ≤ i → Sparse s → body i s = (some (), s))
    (hkeep : ∀ i, i < 2 → Preserves Sparse (body i)) (h : Sparse m) :
    upto body N m = upto body' 2 m ∧ Sparse (upto body N m).2 := by
  obtain ⟨n, rfl⟩ : ∃ n, N = n + 2 := ⟨N - 2, by omega⟩
  have hrun : ∀ n, n ≤ 2 → upto body n m = upto body' n m ∧ Sparse (upto body n m).2 := by
    intro n
    induction n with
    | zero => exact fun _ => ⟨rfl, h⟩
    | succ n ih =>
      intro hn
      obtain ⟨heq, hsparse⟩ := ih (by omega)
      simp only [upto, bind_apply, ← heq]
      rcases hr : upto body n m with ⟨_ | _, s⟩
      · rw [hr] at hsparse
        exact ⟨rfl, hsparse⟩
      · rw [hr] at hsparse
        exact ⟨hfew n s (by omega) hsparse, hkeep n (by omega) s hsparse⟩
  have hmore : ∀ n, upto body (n + 2) m = upto body 2 m := by
    intro n
    induction n with
    | zero => rfl
    | succ n ih =>
      show (upto body (n + 2) >>= fun _ => body (n + 2)) m = _
      have hsparse := (hrun 2 (by omega)).2
      rw [bind_apply, ih]
      rcases hr : upto body 2 m with ⟨_ | _, s⟩
      · rfl
      · rw [hr] at hsparse
        exact hidle (n + 2) s (by omega) hsparse
  obtain ⟨heq, hsparse⟩ := hrun 2 (by omega)
  rw [hmore n]
  exact ⟨heq, hsparse⟩

def copyFew : Nat → Nat → Nat → Act Machine Unit
  | 0, _, _ => pure ()
  | 1, dst, src => upto (copyLeaf dst src) 2
  | level + 2, dst, src => upto (fun i => do
      let e ← word src i
      if !has e PTE_PRESENT then setWord dst i 0
      else if has e PTE_HUGE then setWord dst i e
      else do
        let fresh ← allocFrame
        clearFrame fresh
        setWord dst i (addr fresh ||| (e &&& PTE_FLAGS))
        copyFew (level + 1) fresh (frameOf e)) 2

theorem bind_same {β : Type} {act : Act Machine α} {k k' : α → Act Machine β} (hact : Preserves Sparse act)
    (hk : ∀ a s, Sparse s → k a s = k' a s) (h : Sparse m) : (act >>= k) m = (act >>= k') m := by
  have hs := hact m h
  rw [bind_apply, bind_apply]
  rcases hr : act m with ⟨_ | a, s⟩
  · rfl
  · rw [hr] at hs
    exact hk a s hs

theorem sparse_copyLeaf {dst : Nat} (hi : i < 2) : Preserves Sparse (copyLeaf dst src i) := by
  have hshared : Preserves Sparse (modify fun m : Machine => { m with cowShared := m.cowShared + 1 }) := fun _ h => h
  unfold copyLeaf copyPage share
  refine Preserves.bind (sparse_word _ _) fun e => ?_
  refine Preserves.ite (sparse_setWord hi) (Preserves.ite (sparse_setWord hi) (Preserves.ite (sparse_setWord hi)
    (Preserves.ite (sparse_setWord hi) (Preserves.bind (sparse_onPmm _) fun took => Preserves.ite ?_ ?_))))
  · exact Preserves.bind (sparse_setWord hi) fun _ => Preserves.bind (sparse_setWord hi) fun _ => hshared
  · exact Preserves.bind sparse_alloc fun _ => Preserves.bind (sparse_copy _ _) fun _ => sparse_setWord hi

theorem copyTable_few : ∀ (n dst src : Nat) (m : Machine), Sparse m →
    copyTable n dst src m = copyFew n dst src m ∧ Sparse (copyTable n dst src m).2
  | 0, _, _, _, h => ⟨rfl, h⟩
  | 1, dst, src, m, h => by
    refine upto_few (by rw [ENTRIES]; decide) (fun _ _ _ _ => rfl) ?_ (fun i hi => sparse_copyLeaf hi) h
    intro i s hi hs
    unfold copyLeaf
    rw [bind_word, hs src i hi, if_pos (by rw [has_zero]; rfl), setWord_apply, setEntry_idle (hs dst i hi)]
  | n + 2, dst, src, m, h => by
    refine upto_few (by rw [ENTRIES]; decide) ?_ ?_ ?_ h
    · intro i s hi hs
      refine bind_same (sparse_word _ _) ?_ hs
      intro e s hs
      split
      · rfl
      · split
        · rfl
        · refine bind_same sparse_alloc (fun f s hs => ?_) hs
          refine bind_same (sparse_clear f) (fun _ s hs => ?_) hs
          exact bind_same (sparse_setWord hi) (fun _ s hs => (copyTable_few (n + 1) _ _ s hs).1) hs
    · intro i s hi hs
      rw [bind_word, hs src i hi, if_pos (by rw [has_zero]; rfl), setWord_apply, setEntry_idle (hs dst i hi)]
    · intro i hi
      refine Preserves.bind (sparse_word _ _) fun e => ?_
      refine Preserves.ite (sparse_setWord hi) (Preserves.ite (sparse_setWord hi) ?_)
      refine Preserves.bind sparse_alloc fun f => Preserves.bind (sparse_clear f) fun _ => ?_
      exact Preserves.bind (sparse_setWord hi) fun _ s hs => (copyTable_few (n + 1) _ _ s hs).2

def newFew : Act Machine Nat := do
  let frame ← allocFrame
  clearFrame frame
  upto (shareKernel frame) 2
  pure frame

theorem sparse_shareKernel (hi : i < 2) : Preserves Sparse (shareKernel dir i) :=
  Preserves.bind Preserves.get fun _ => Preserves.bind (sparse_word _ _) fun _ =>
    Preserves.ite (sparse_setWord hi) (Preserves.pure _)

theorem shareKernel_few (dir : Nat) (m : Machine) (h : Sparse m) :
    upto (shareKernel dir) ENTRIES m = upto (shareKernel dir) 2 m ∧ Sparse (upto (shareKernel dir) ENTRIES m).2 := by
  refine upto_few (by rw [ENTRIES]; decide) (fun _ _ _ _ => rfl) ?_ (fun i hi => sparse_shareKernel hi) h
  intro i s hi hs
  unfold shareKernel
  rw [bind_get, bind_word, hs _ i hi, if_neg (by rw [has_zero]; decide)]
  rfl

theorem newDirectory_few (m : Machine) (h : Sparse m) :
    newDirectory m = newFew m ∧ Sparse (newDirectory m).2 := by
  refine ⟨?_, ?_⟩
  · refine bind_same sparse_alloc (fun f s hs => ?_) h
    refine bind_same (sparse_clear f) (fun _ s hs => ?_) hs
    rw [bind_apply, bind_apply, (shareKernel_few f s hs).1]
  · refine Preserves.bind sparse_alloc (fun f => ?_) m h
    exact Preserves.bind (sparse_clear f) fun _ => Preserves.bind (fun s hs => (shareKernel_few f s hs).2)
      fun _ => Preserves.pure _

/-- `cloneDirectory` on two entries of each table, where nothing runs out. -/
def cloneFew (src : Nat) : Act Machine Nat := do
  if src = 0 then stop
  else do
    let fresh ← newFew
    upto (fun i => do
      let m ← get
      let e ← word src i
      let k ← word m.kernelPml4 i
      if !has e PTE_PRESENT then pure ()
      else if isKernels e k then setWord fresh i e
      else do
        let table ← allocFrame
        clearFrame table
        copyFew 3 table (frameOf e)
        setWord fresh i (addr table ||| (e &&& PTE_FLAGS))) 2
    pure fresh

theorem upto_some (hN : 2 ≤ N)
    (hfew : ∀ i s s', i < 2 → Sparse s → body' i s = (some (), s') → body i s = (some (), s') ∧ Sparse s')
    (hidle : ∀ i s, 2 ≤ i → Sparse s → body i s = (some (), s)) (h : Sparse m)
    (hrun : upto body' 2 m = (some (), m')) : upto body N m = (some (), m') := by
  obtain ⟨n, rfl⟩ : ∃ n, N = n + 2 := ⟨N - 2, by omega⟩
  obtain ⟨_, s1, hrun1, hlast⟩ := bind_eq_some.mp hrun
  obtain ⟨_, s0, hrun0, hfirst⟩ := bind_eq_some.mp hrun1
  cases hrun0
  obtain ⟨h1, hs1⟩ := hfew 0 m s1 (by omega) h hfirst
  obtain ⟨h2, hs2⟩ := hfew 1 s1 m' (by omega) hs1 hlast
  induction n with
  | zero => exact bind_eq_some.mpr ⟨(), s1, bind_eq_some.mpr ⟨(), m, rfl, h1⟩, h2⟩
  | succ n ih =>
    show (upto body (n + 2) >>= fun _ => body (n + 2)) m = _
    rw [bind_of_some (ih (by omega))]
    exact hidle (n + 2) m' (by omega) hs2

theorem cloneDirectory_few (h : Sparse m) (hrun : cloneFew src m = (some dir, m')) :
    cloneDirectory src m = (some dir, m') := by
  unfold cloneFew at hrun
  unfold cloneDirectory
  split at hrun
  · cases hrun
  · next hsrc =>
    rw [if_neg hsrc]
    obtain ⟨f, s1, hnew, hrun⟩ := bind_eq_some.mp hrun
    obtain ⟨_, s2, hloop, hrun⟩ := bind_eq_some.mp hrun
    obtain ⟨heq, hs1⟩ := newDirectory_few m h
    rw [heq, hnew] at hs1
    rw [← heq] at hnew
    refine bind_eq_some.mpr ⟨f, s1, hnew, bind_eq_some.mpr ⟨(), s2, ?_, hrun⟩⟩
    refine upto_some (by rw [ENTRIES]; decide) ?_ ?_ hs1 hloop
    · intro i s s' hi hs hbody
      unfold cloneEntry
      simp only [bind_get, bind_word] at hbody ⊢
      split at hbody
      · next hp =>
        rw [if_pos hp]
        cases hbody
        exact ⟨rfl, hs⟩
      · next hp =>
        rw [if_neg hp]
        split at hbody
        · next hk =>
          rw [if_pos hk]
          refine ⟨hbody, ?_⟩
          cases hbody
          exact sparse_setWord hi s hs
        · next hk =>
          rw [if_neg hk]
          obtain ⟨t, s3, halloc, hbody⟩ := bind_eq_some.mp hbody
          obtain ⟨_, s4, hclear, hbody⟩ := bind_eq_some.mp hbody
          obtain ⟨_, s5, hcopy, hbody⟩ := bind_eq_some.mp hbody
          have hs3 := sparse_alloc.of_eq halloc hs
          have hs4 := (sparse_clear t).of_eq hclear hs3
          obtain ⟨heq, hs5⟩ := copyTable_few 3 t (frameOf (s.mem src i)) s4 hs4
          rw [heq, hcopy] at hs5
          rw [← heq] at hcopy
          refine ⟨?_, (sparse_setWord hi).of_eq hbody hs5⟩
          unfold cloneTable
          refine bind_eq_some.mpr ⟨some t, s3, by rw [attempt_apply, halloc], ?_⟩
          refine bind_eq_some.mpr ⟨(), s4, hclear, ?_⟩
          exact bind_eq_some.mpr ⟨some (), s5, by rw [attempt_apply, hcopy], hbody⟩
    · intro i s hi hs
      unfold cloneEntry
      rw [bind_get, bind_word, bind_word, hs src i hi, if_pos (by rw [has_zero]; rfl)]
      rfl

/-! ## Mapping -/

def Plain (m : Machine) : Prop := Sparse m ∧ ∀ t i, has (m.mem t i) PTE_HUGE = false

theorem addr_huge (f : Nat) : has (addr f) PTE_HUGE = false := by
  apply has_of_and
  apply BitVec.eq_of_getLsbD_eq
  intro i hi
  have hbit : PTE_HUGE.getLsbD i = decide (i = 7) := by
    have : ∀ i, i < 64 → PTE_HUGE.getLsbD i = decide (i = 7) := by decide
    exact this i hi
  rw [BitVec.getLsbD_and, hbit]
  by_cases h7 : i = 7
  · have hlow : (f * PAGE_SIZE).testBit 7 = false := by
      rw [show f * PAGE_SIZE = f * 2 ^ 12 from rfl, Nat.testBit_mul_two_pow]
      rfl
    rw [h7, addr, BitVec.getLsbD_ofNat, hlow]
    rfl
  · simp [h7]

theorem plain_setWord (hi : i < 2) (he : has e PTE_HUGE = false) :
    Preserves Plain (setWord t i e) := by
  rintro m ⟨hs, hp⟩
  refine ⟨sparse_setWord hi m hs, ?_⟩
  intro a j
  show has ((m.setEntry t i e).mem a j) PTE_HUGE = false
  rw [setEntry_mem]
  split
  · exact he
  · exact hp a j

theorem plain_clear (f : Nat) : Preserves Plain (clearFrame f) := by
  rintro m ⟨hs, hp⟩
  refine ⟨sparse_clear f m hs, ?_⟩
  intro a j
  show has (Pmm.put m.mem f (fun _ => 0) a j) PTE_HUGE = false
  by_cases ha : a = f
  · rw [ha, put_same]
    exact has_zero _
  · rw [put_other _ _ ha]
    exact hp a j

theorem plain_alloc : Preserves Plain allocFrame :=
  Preserves.bind (fun _ h => h) fun _ => Preserves.ite Preserves.stop (Preserves.pure _)

theorem plain_word (t i : Nat) : Preserves Plain (word t i) := fun _ h => h

theorem plain_newFew : Preserves Plain newFew := by
  have hshare : ∀ dir i, i < 2 → Preserves Plain (shareKernel dir i) := by
    intro dir i hi s hs
    unfold shareKernel
    rw [bind_get, bind_word]
    split
    · exact plain_setWord hi (hs.2 _ _) s hs
    · exact hs
  exact Preserves.bind plain_alloc fun f => Preserves.bind (plain_clear f) fun _ =>
    Preserves.bind (Preserves.upto (hshare f)) fun _ => Preserves.pure _

theorem plain_step {level : Nat} (hi : indexOf virt level < 2) :
    Preserves Plain (step t virt level true flags) := by
  have hlink : ∀ f, has (addr f ||| PTE_PRESENT ||| PTE_RW) PTE_HUGE = false := by
    intro f
    rw [has_or, has_or, addr_huge]
    decide
  have hmake : Preserves Plain (makeBelow t (indexOf virt level) true) :=
    Preserves.bind (plain_word _ _) fun _ => Preserves.ite (Preserves.pure _) (Preserves.ite
      (Preserves.bind plain_alloc fun f => Preserves.bind (plain_clear f) fun _ => plain_setWord hi (hlink f))
      Preserves.stop)
  have hwiden : Preserves Plain (widen t (indexOf virt level) flags) := by
    intro s hs
    unfold widen
    split
    · rw [bind_word]
      exact plain_setWord hi (by rw [has_or, hs.2]; decide) s hs
    · exact hs
  exact Preserves.bind hmake fun _ => Preserves.bind hwiden fun _ => Preserves.bind (plain_word _ _) fun _ =>
    Preserves.ite Preserves.stop (Preserves.pure _)

theorem plain_tableFor {pml4 : Nat} (h4 : indexOf virt 4 < 2) (h3 : indexOf virt 3 < 2)
    (h2 : indexOf virt 2 < 2) : Preserves Plain (tableFor pml4 virt true flags) := by
  refine Preserves.bind (plain_step h4) fun pdpt => Preserves.bind (plain_step h3) fun pd => ?_
  intro s hs
  rw [bind_word, if_neg (by rw [hs.2]; simp)]
  exact plain_step h2 s hs

theorem mapFresh_plain (hm : Plain m) (hflags : has flags PTE_HUGE = false) (h4 : indexOf virt 4 < 2)
    (h3 : indexOf virt 3 < 2) (h2 : indexOf virt 2 < 2) (h1 : indexOf virt 1 < 2)
    (h : mapFresh dir virt flags m = (some f, m')) : Plain m' := by
  have hentry : ∀ phys : Word, has ((phys &&& PTE_ADDR_MASK) ||| (flags &&& PTE_FLAGS) ||| PTE_PRESENT) PTE_HUGE = false := by
    intro phys
    rw [has_or, has_or, has_and_none (by decide), has_and_of (by decide), hflags]
    decide
  have hmap : ∀ phys, Preserves Plain (mapPageIn dir virt phys flags) := fun phys =>
    Preserves.ite Preserves.stop (Preserves.bind (plain_tableFor h4 h3 h2) fun _ => plain_setWord h1 (hentry phys))
  unfold mapFresh at h
  obtain ⟨f', m1, halloc, h⟩ := bind_eq_some.mp h
  obtain ⟨_, m2, hclear, h⟩ := bind_eq_some.mp h
  obtain ⟨r, m3, hattempt, h⟩ := bind_eq_some.mp h
  have hm2 := (plain_clear f').of_eq hclear (plain_alloc.of_eq halloc hm)
  rw [attempt_apply] at hattempt
  obtain ⟨-, rfl⟩ := Prod.mk.inj hattempt
  rcases r with _ | ⟨⟩
  · obtain ⟨_, _, -, h⟩ := bind_eq_some.mp h
    cases h
  · cases h
    exact hmap _ m2 hm2

end Few

end Zelr.Paging
