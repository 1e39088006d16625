import Zelr.Paging.Atomic

/-!
# All or nothing

`test_allocs_left` lets a test say after how many allocations the next one fails.
-/

namespace Zelr.Paging

open Act
open Pmm (put_same put_other)

variable {g : Machine → Machine} {dir : Nat} {m : Machine} {virt : Word}

def limit (n : Nat) (m : Machine) : Machine := { m with pmm := { m.pmm with testAllocsLeft := n } }

def Counted {α : Type} (act : Act Machine α) : Prop :=
  ∀ n m a m', act (limit n m) = (some a, m') → act (limit Pmm.NO_LIMIT m) = (some a, limit Pmm.NO_LIMIT m') ∧
    (n < Pmm.NO_LIMIT → m'.pmm.usedFrames + m'.pmm.testAllocsLeft = m.pmm.usedFrames + n ∧
      m'.pmm.testAllocsLeft < Pmm.NO_LIMIT)

section Limit

variable {α β : Type}

theorem limit_limit (n k : Nat) (m : Machine) : limit n (limit k m) = limit n m := rfl

theorem limit_self (m : Machine) : limit m.pmm.testAllocsLeft m = m := rfl

variable {act : Act Machine α}

theorem Counted.bind {k : α → Act Machine β} (hact : Counted act) (hk : ∀ a, Counted (k a)) :
    Counted (act >>= k) := by
  intro n m b m' h
  obtain ⟨a, s, hrun, hrest⟩ := bind_eq_some.mp h
  obtain ⟨hfree, hcount⟩ := hact n m a s hrun
  obtain ⟨hfree', hcount'⟩ := hk a s.pmm.testAllocsLeft s b m' hrest
  rw [bind_of_some hfree]
  refine ⟨hfree', fun hn => ?_⟩
  obtain ⟨hsum, hlt⟩ := hcount hn
  obtain ⟨hsum', hlt'⟩ := hcount' hlt
  exact ⟨hsum'.trans hsum, hlt'⟩

theorem Counted.stop : Counted (Act.stop : Act Machine α) := fun _ _ _ _ h => by simp at h

theorem Counted.pure (a : α) : Counted (pure a : Act Machine α) := by
  intro n m b m' h
  rw [pure_apply, Prod.mk.injEq, Option.some.injEq] at h
  obtain ⟨rfl, rfl⟩ := h
  exact ⟨rfl, fun hn => ⟨rfl, hn⟩⟩

theorem Counted.ite {c : Prop} [Decidable c] {act' : Act Machine α} (h : Counted act) (h' : Counted act') :
    Counted (if c then act else act') := by
  split
  · exact h
  · exact h'

theorem Counted.of_step {f : Machine → α} (hf : ∀ n m, f (limit n m) = f m)
    (hg : ∀ n m, g (limit n m) = limit n (g m)) (hused : ∀ m, (g m).pmm.usedFrames = m.pmm.usedFrames) :
    Counted fun m => (some (f m), g m) := by
  intro n m a m' h
  rw [Prod.mk.injEq, Option.some.injEq, hf, hg] at h
  obtain ⟨rfl, rfl⟩ := h
  refine ⟨?_, fun hn => ⟨?_, hn⟩⟩
  · show (some (f (limit Pmm.NO_LIMIT m)), g (limit Pmm.NO_LIMIT m)) = _
    rw [hf, hg]
    rfl
  · show (g m).pmm.usedFrames + n = _
    rw [hused]

theorem Counted.upto {body : Nat → Act Machine Unit} {N : Nat} (h : ∀ i, Counted (body i)) :
    Counted (Act.upto body N) := by
  induction N with
  | zero => exact Counted.pure ()
  | succ N ih => exact Counted.bind ih fun _ => h N

theorem counted_word (t i : Nat) : Counted (word t i) :=
  Counted.of_step (f := fun m => m.mem t i) (g := id) (fun _ _ => rfl) (fun _ _ => rfl) fun _ => rfl

theorem counted_setWord (t i : Nat) (e : Word) : Counted (setWord t i e) :=
  Counted.of_step (f := fun _ => ()) (g := fun m => m.setEntry t i e) (fun _ _ => rfl) (fun _ _ => rfl) fun _ => rfl

theorem counted_modify (hg : ∀ n m, g (limit n m) = limit n (g m))
    (hused : ∀ m, (g m).pmm.usedFrames = m.pmm.usedFrames) : Counted (modify g) :=
  Counted.of_step (f := fun _ => ()) (fun _ _ => rfl) hg hused

theorem Counted.get {k : Machine → Act Machine α} (hk : ∀ m, Counted (k m))
    (hsame : ∀ n m, k (limit n m) = k m) : Counted (Act.get >>= k) := by
  intro n m a m' h
  rw [bind_get, hsame] at h
  rw [bind_get, hsame]
  exact hk m n m a m' h

theorem counted_alloc : Counted allocFrame := by
  intro n m f m' h
  obtain ⟨pm, hm', -, hleft, hlt⟩ := allocFrame_had h
  unfold allocFrame at h
  obtain ⟨f', m1, hcall, h⟩ := bind_eq_some.mp h
  obtain ⟨pm1, hpm, rfl⟩ := onPmm_some hcall
  split at h
  · simp at h
  next hne =>
  rw [pure_apply, Prod.mk.injEq, Option.some.injEq] at h
  obtain ⟨rfl, rfl⟩ := h
  obtain ⟨-, -, -, -, hused, -, -⟩ := Pmm.allocFrame_exact hpm hne
  -- the search does not look at the limit
  have hsearch : Pmm.search (Pmm.countDown (limit n m).pmm) = Pmm.search (Pmm.countDown (limit Pmm.NO_LIMIT m).pmm) := by
    unfold Pmm.countDown
    rw [if_pos (show (limit Pmm.NO_LIMIT m).pmm.testAllocsLeft = Pmm.NO_LIMIT from rfl)]
    split <;> rfl
  have hclaim : ∀ p : Pmm, ∀ k, Pmm.claim f' { p with testAllocsLeft := k } =
      { Pmm.claim f' p with testAllocsLeft := k } := by
    intro p k
    unfold Pmm.claim Pmm.markUsed
    dsimp only
    split
    · rfl
    · split <;> rfl
  have hkeep : ∀ p : Pmm, (Pmm.claim f' p).testAllocsLeft = p.testAllocsLeft := by
    intro p
    have := congrArg Pmm.testAllocsLeft (hclaim p p.testAllocsLeft)
    exact this
  unfold Pmm.allocFrame at hpm
  rw [if_neg hleft] at hpm
  split at hpm
  · next f hf =>
    rw [Prod.mk.injEq, Option.some.injEq] at hpm
    obtain ⟨rfl, hpm⟩ := hpm
    constructor
    · have hfree : Pmm.allocFrame (limit Pmm.NO_LIMIT m).pmm =
          (some f, { pm1 with testAllocsLeft := Pmm.NO_LIMIT }) := by
        have hopen : (limit Pmm.NO_LIMIT m).pmm.testAllocsLeft ≠ 0 := show Pmm.NO_LIMIT ≠ 0 by decide
        unfold Pmm.allocFrame
        rw [if_neg hopen, ← hsearch, hf]
        dsimp only
        rw [← hpm, ← hclaim]
        unfold Pmm.countDown
        rw [if_pos (show (limit Pmm.NO_LIMIT m).pmm.testAllocsLeft = Pmm.NO_LIMIT from rfl)]
        split <;> rfl
      have hon : onPmm Pmm.allocFrame (limit Pmm.NO_LIMIT m) =
          (some f, limit Pmm.NO_LIMIT { limit n m with pmm := pm1 }) := by
        unfold onPmm zoom
        rw [hfree]
        rfl
      unfold allocFrame
      rw [bind_of_some hon, if_neg hne]
      rfl
    · intro hn
      have hafter : pm1.testAllocsLeft = n - 1 := by
        rw [← hpm, hkeep]
        unfold Pmm.countDown
        rw [if_neg (show (limit n m).pmm.testAllocsLeft ≠ Pmm.NO_LIMIT from Nat.ne_of_lt hn)]
        rfl
      have hused' : pm1.usedFrames = m.pmm.usedFrames + 1 := hused
      have hleft' : n ≠ 0 := hleft
      show pm1.usedFrames + pm1.testAllocsLeft = _ ∧ pm1.testAllocsLeft < _
      omega
  · rw [Prod.mk.injEq, Option.some.injEq] at hpm
    exact absurd hpm.1.symm hne

theorem counted_share (f : Nat) : Counted (share f) := by
  intro n m took m' h
  obtain ⟨pm, hpm, rfl⟩ := onPmm_some h
  have hlimit : Pmm.share f (limit Pmm.NO_LIMIT m).pmm = (some took, { pm with testAllocsLeft := Pmm.NO_LIMIT }) ∧
      pm.testAllocsLeft = n ∧ pm.usedFrames = m.pmm.usedFrames := by
    unfold Pmm.share at hpm ⊢
    rw [show (limit n m).pmm.extra = m.pmm.extra from rfl] at hpm
    rw [show (limit Pmm.NO_LIMIT m).pmm.extra = m.pmm.extra from rfl]
    rcases hextra : m.pmm.extra with _ | extra
    · rw [hextra] at hpm
      dsimp only at hpm ⊢
      rw [Prod.mk.injEq, Option.some.injEq] at hpm
      obtain ⟨rfl, rfl⟩ := hpm
      exact ⟨rfl, rfl, rfl⟩
    · rw [hextra] at hpm
      dsimp only at hpm ⊢
      rw [show (limit n m).pmm.totalFrames = m.pmm.totalFrames from rfl] at hpm
      rw [show (limit Pmm.NO_LIMIT m).pmm.totalFrames = m.pmm.totalFrames from rfl]
      by_cases hin : f = 0 ∨ f ≥ m.pmm.totalFrames
      · rw [if_pos hin, Prod.mk.injEq, Option.some.injEq] at hpm
        rw [if_pos hin]
        obtain ⟨rfl, rfl⟩ := hpm
        exact ⟨rfl, rfl, rfl⟩
      · rw [if_neg hin] at hpm ⊢
        by_cases hfull : extra f = 255
        · rw [if_pos hfull, Prod.mk.injEq, Option.some.injEq] at hpm
          rw [if_pos hfull]
          obtain ⟨rfl, rfl⟩ := hpm
          exact ⟨rfl, rfl, rfl⟩
        · rw [if_neg hfull, Prod.mk.injEq, Option.some.injEq] at hpm
          rw [if_neg hfull]
          obtain ⟨rfl, rfl⟩ := hpm
          exact ⟨rfl, rfl, rfl⟩
  obtain ⟨hrun, hleft, hused⟩ := hlimit
  constructor
  · unfold share onPmm zoom
    rw [hrun]
    rfl
  · intro hn
    show pm.usedFrames + pm.testAllocsLeft = _ ∧ pm.testAllocsLeft < _
    omega

theorem counted_copyPage (dst src i : Nat) (e : Word) : Counted (copyPage dst src i e) := by
  refine Counted.bind (counted_share _) fun _ => Counted.ite ?_ ?_
  · exact Counted.bind (counted_setWord _ _ _) fun _ => Counted.bind (counted_setWord _ _ _) fun _ =>
      counted_modify (fun _ _ => rfl) fun _ => rfl
  · exact Counted.bind counted_alloc fun _ => Counted.bind (counted_modify (fun _ _ => rfl) fun _ => rfl) fun _ =>
      counted_setWord _ _ _

theorem counted_copyTable : ∀ (n dst src : Nat), Counted (copyTable n dst src)
  | 0, _, _ => Counted.pure ()
  | 1, _, src => Counted.upto fun i => Counted.bind (counted_word src i) fun _ =>
      Counted.ite (counted_setWord _ _ _) (Counted.ite (counted_setWord _ _ _) (Counted.ite (counted_setWord _ _ _)
        (Counted.ite (counted_setWord _ _ _) (counted_copyPage _ _ _ _))))
  | n + 2, _, src => Counted.upto fun i => Counted.bind (counted_word src i) fun _ =>
      Counted.ite (counted_setWord _ _ _) (Counted.ite (counted_setWord _ _ _)
        (Counted.bind counted_alloc fun _ => Counted.bind (counted_modify (fun _ _ => rfl) fun _ => rfl) fun _ =>
          Counted.bind (counted_setWord _ _ _) fun _ => counted_copyTable (n + 1) _ _))

theorem Counted.attempt {k : Option α → Act Machine β} (hundo : ∀ s, (k none s).1 = none)
    (hact : Counted act) (hk : ∀ a, Counted (k (some a))) : Counted (Act.attempt act >>= k) := by
  intro n m b m' h
  rw [bind_apply, attempt_apply] at h
  rcases hrun : act (limit n m) with ⟨_ | a, s⟩
  · rw [hrun] at h
    have := hundo s
    rw [show k none s = (some b, m') from h] at this
    simp at this
  · rw [hrun] at h
    obtain ⟨hfree, hcount⟩ := hact n m a s hrun
    obtain ⟨hfree', hcount'⟩ := hk a s.pmm.testAllocsLeft s b m' h
    constructor
    · rw [bind_apply, attempt_apply, hfree]
      exact hfree'
    · intro hn
      obtain ⟨hsum, hlt⟩ := hcount hn
      obtain ⟨hsum', hlt'⟩ := hcount' hlt
      exact ⟨hsum'.trans hsum, hlt'⟩

theorem stops (s : Machine) : ((act >>= fun _ => (Act.stop : Act Machine β)) s).1 = none := by
  rw [bind_apply]
  split <;> rfl

theorem stops_later {k : α → Act Machine β} (hk : ∀ a s, (k a s).1 = none) (s : Machine) :
    ((act >>= k) s).1 = none := by
  rw [bind_apply]
  split
  · exact hk _ _
  · rfl

theorem counted_cloneTable (dst i : Nat) (e : Word) : Counted (cloneTable dst i e) := by
  refine Counted.attempt (fun s => stops s) counted_alloc fun table => ?_
  refine Counted.bind (counted_modify (fun _ _ => rfl) fun _ => rfl) fun _ => ?_
  refine Counted.attempt ?_ (counted_copyTable 3 table _) fun _ => counted_setWord _ _ _
  exact stops_later fun _ s => stops_later (fun _ s => stops s) s

theorem counted_cloneDirectory (src : Nat) : Counted (cloneDirectory src) := by
  refine Counted.ite Counted.stop (Counted.bind ?_ fun fresh => Counted.bind ?_ fun _ => Counted.pure _)
  · refine Counted.bind counted_alloc fun frame => Counted.bind (counted_modify (fun _ _ => rfl) fun _ => rfl) fun _ =>
      Counted.bind (Counted.upto fun i => ?_) fun _ => Counted.pure _
    exact Counted.get (fun m => Counted.bind (counted_word _ i) fun _ =>
      Counted.ite (counted_setWord _ _ _) (Counted.pure ())) fun _ _ => rfl
  · refine Counted.upto fun i => Counted.get (fun m => Counted.bind (counted_word src i) fun e =>
      Counted.bind (counted_word _ i) fun k => Counted.ite (Counted.pure ())
        (Counted.ite (counted_setWord _ _ _) (counted_cloneTable fresh i e))) fun _ _ => rfl

theorem cloneDirectory_refused {src n : Nat} {m' : Machine}
    (h : cloneDirectory src (limit Pmm.NO_LIMIT m) = (some dir, m')) (hn : n < Pmm.NO_LIMIT)
    (hfew : m.pmm.usedFrames + n < m'.pmm.usedFrames) : (cloneDirectory src (limit n m)).1 = none := by
  rcases hrun : cloneDirectory src (limit n m) with ⟨_ | d, m''⟩
  · rfl
  · obtain ⟨hfree, hcount⟩ := counted_cloneDirectory src n m d m'' hrun
    obtain ⟨hsum, -⟩ := hcount hn
    rw [h, Prod.mk.injEq] at hfree
    obtain ⟨-, rfl⟩ := hfree
    have : (limit Pmm.NO_LIMIT m'').pmm.usedFrames = m''.pmm.usedFrames := rfl
    omega

end Limit

section Atomic

variable {tier : Tier} {m m' : Machine} {l₀ : Ledger} {src : Nat}

theorem Undone.twin (hl : l₀.Kept) (hp : l₀.pmm = m.pmm) (hpos : 0 < m.pmm.totalFrames)
    (hhint : Hinted m') (h : Undone tier m l₀ m') :
    Twin tier m m' ∧ m'.pmm.usedFrames = m.pmm.usedFrames ∧ m'.pmm.sharedNow = m.pmm.sharedNow := by
  obtain ⟨⟨l, hb⟩, hmem⟩ := h
  have hholders : ∀ f, l.holders f = l₀.holders f := by
    intro f
    unfold Ledger.holders
    rw [hb.reserved, hb.taken, List.count_nil, Nat.add_zero]
  have hbits : ∀ f, f < m.pmm.totalFrames → m'.pmm.bitmap f = m.pmm.bitmap f := by
    intro f hf
    have hnow := hb.kept.bit f (by rw [hb.pmm, hb.total]; exact hf)
    have hold := hl.bit f (by rw [hp]; exact hf)
    rw [hholders, ← hold, hb.pmm, hp] at hnow
    exact Bool.eq_iff_iff.mpr hnow
  refine ⟨⟨hb.total, ?_, ?_, hmem, hhint, ?_⟩, ?_, ?_⟩
  · funext f
    unfold Pmm.isUsed
    rw [hb.total]
    split
    · rfl
    · exact hbits f (by omega)
  · funext f
    rw [← hb.pmm, ← hp, hb.kept.past, hl.past, hholders]
  · rw [← Bool.not_eq_false]
    intro hzero
    obtain ⟨-, hbit⟩ := Pmm.isUsed_eq_false.mp hzero
    rw [hl.zero_used hp hpos] at hbit
    simp at hbit
  · have hnow := hb.kept.used
    rw [hb.pmm, hb.total, countFrames_congr hbits, ← hp, ← hl.used] at hnow
    rw [hnow, hp]
  · have hnow := hb.kept.shared
    have hold := hl.shared
    rw [hb.pmm, hb.total] at hnow
    rw [hp] at hold
    rw [hnow, hold]
    exact countFrames_congr fun f _ => by rw [hholders]

theorem Inhabited.limit (n : Nat) (hI : Inhabited tier m dir) : Inhabited tier (limit n m) dir :=
  { hI with
    toRooted := { hI.toRooted with toTiers := { hI.toTiers with } } }

theorem Twin.limit (n : Nat) (h : Twin tier m m') : Twin tier (limit n m) (limit n m') := { h with }

theorem Twin.refl (hhint : Hinted m) (hzero : m.pmm.isUsed 0 = true) : Twin tier m m :=
  ⟨rfl, rfl, rfl, fun _ _ => Marked.refl _ _ _, hhint, hzero⟩

theorem mapped_some (s : Machine) :
    userLoad s dir virt = (walk s.mem false virt 4 dir).map fun x => s.mem x (wordOf virt) := rfl

theorem cloneDirectory_failed (hI : Inhabited tier m src) (hl : l₀.Kept) (hp : l₀.pmm = m.pmm)
    (hhint : m.pmm.nextHint < m.pmm.totalFrames) (h : cloneDirectory src m = (none, m')) :
    (m'.pmm.past = m.pmm.past ∧ m'.pmm.isUsed = m.pmm.isUsed ∧ m'.pmm.usedFrames = m.pmm.usedFrames ∧
      m'.pmm.sharedNow = m.pmm.sharedNow) ∧
    (∀ virt, Mine m src virt → userLoad m' src virt = userLoad m src virt) ∧
    ∀ n virt f m₁, Mine m src virt → userStore src virt f (limit n m) = (some (), m₁) →
      ∃ m₂, userStore src virt f (limit n m') = (some (), m₂) ∧
        (∀ virt', Mine m src virt' → userLoad m₂ src virt' = userLoad m₁ src virt') ∧
        ∀ x, m.pmm.isUsed x = true → tier x ≠ some 1 → m₂.mem x = m₁.mem x := by
  by_cases hpos : src = 0
  · -- no space at all
    unfold cloneDirectory at h
    rw [if_pos hpos, stop_apply, Prod.mk.injEq] at h
    obtain ⟨-, rfl⟩ := h
    exact ⟨⟨rfl, rfl, rfl, rfl⟩, fun _ _ => rfl, fun n virt f m₁ _ hrun => ⟨m₁, hrun, fun _ _ => rfl, fun _ _ _ => rfl⟩⟩
  have hhint' : Hinted m' := (hinted_cloneDirectory src).of_eq h hhint
  obtain ⟨htwin, hused, hshared⟩ := (cloneDirectory_undone hI.toRooted hl hp h).twin hl hp (by omega) hhint'
  refine ⟨⟨htwin.past, htwin.used, hused, hshared⟩, fun virt hmine => htwin.load hI hmine, ?_⟩
  intro n virt f m₁ hmine hrun
  have hIn := hI.limit n
  have hself : Twin tier (limit n m) (limit n m) := Twin.refl hhint htwin.zero
  obtain ⟨fr, moves, hstorable, hfr⟩ := storable_of_store hIn hmine hrun
  obtain ⟨s₁, fa, hrun₁, hw₁, hmove₁⟩ := hstorable.store (f := f) hIn hself hpos hmine
  rw [hrun, Prod.mk.injEq] at hrun₁
  obtain ⟨-, rfl⟩ := hrun₁
  obtain ⟨m₂, fb, hrun₂, hw₂, hmove₂⟩ := Storable.store (f := f) hIn (htwin.limit n) hpos hmine hstorable
  refine ⟨m₂, hrun₂, ?_, ?_⟩
  · intro virt' hmine'
    rw [mapped_some, mapped_some]
    exact hw₂.load hIn hfr hw₁ (hmove₂.trans hmove₁.symm) hmine'
  · intro x hx htier
    by_cases hxa : x = fa
    · have hfa : fa = fr := by
        rcases hw₁.moved with hfa | hfresh
        · exact hfa
        · rw [← hxa] at hfresh
          rw [show (limit n m).pmm.isUsed x = m.pmm.isUsed x from rfl, hx] at hfresh
          simp at hfresh
      have hfb : fb = fr := hmove₂.mpr (hmove₁.mp hfa)
      have h₁ := hw₁.stored
      have h₂ := hw₂.stored
      rw [hfa] at h₁
      rw [hfb] at h₂
      rw [hxa, hfa, h₁, h₂]
    · have hxb : x ≠ fb := by
        rintro rfl
        rcases hw₂.moved with hfb | hfresh
        · exact hxa (hfb.trans (hmove₁.mpr (hmove₂.mp hfb)).symm)
        · rw [show (limit n m).pmm.isUsed x = m.pmm.isUsed x from rfl, hx] at hfresh
          simp at hfresh
      rw [hw₂.others x hx htier hxb, hw₁.others x hx htier hxa]

/-- A clone to which any frame is refused fails, and one that fails has changed no count, nothing that its parent can
read, and no store that would have succeeded. -/
theorem clone_atomic (hI : Inhabited tier m src) (hl : l₀.Kept) (hp : l₀.pmm = m.pmm)
    (hhint : m.pmm.nextHint < m.pmm.totalFrames) :
    (∀ n dir m', cloneDirectory src (limit Pmm.NO_LIMIT m) = (some dir, m') → n < Pmm.NO_LIMIT →
      m.pmm.usedFrames + n < m'.pmm.usedFrames → (cloneDirectory src (limit n m)).1 = none) ∧
    ∀ m', cloneDirectory src m = (none, m') →
      (m'.pmm.past = m.pmm.past ∧ m'.pmm.isUsed = m.pmm.isUsed ∧ m'.pmm.usedFrames = m.pmm.usedFrames ∧
        m'.pmm.sharedNow = m.pmm.sharedNow) ∧
      (∀ virt, Mine m src virt → userLoad m' src virt = userLoad m src virt) ∧
      ∀ n virt f m₁, Mine m src virt → userStore src virt f (limit n m) = (some (), m₁) →
        ∃ m₂, userStore src virt f (limit n m') = (some (), m₂) ∧
          (∀ virt', Mine m src virt' → userLoad m₂ src virt' = userLoad m₁ src virt') ∧
          ∀ x, m.pmm.isUsed x = true → tier x ≠ some 1 → m₂.mem x = m₁.mem x :=
  ⟨fun _ _ _ h hn hfew => cloneDirectory_refused h hn hfew, fun _ h => cloneDirectory_failed hI hl hp hhint h⟩

end Atomic

/-! ## The spaces there are -/

def tierOf (g : Labels) (src : Nat) : Tier := fun f =>
  match g.own f with
  | .table d p => if d = src then some (4 - p.length) else none
  | .data => some 0
  | _ => none

section Spaces

variable {g : Labels} {m : Machine} {src t n : Nat}

theorem tierOf_table {p : List Nat} (h : g.own t = .table src p) : tierOf g src t = some (4 - p.length) := by
  simp [tierOf, h]

theorem tierOf_data (h : g.own t = .data) : tierOf g src t = some 0 := by simp [tierOf, h]

theorem tierOf_pos (h : tierOf g src t = some (n + 1)) : ∃ p, g.own t = .table src p ∧ p.length + (n + 1) = 4 := by
  unfold tierOf at h
  split at h
  · next d p hown =>
    split at h
    · next hd =>
      subst hd
      rw [Option.some.injEq] at h
      exact ⟨p, hown, by omega⟩
    · simp at h
  · simp at h
  · simp at h

theorem tierOf_own (h : tierOf g src t = some n) : g.own t ≠ .free := by
  intro hfree
  simp [tierOf, hfree] at h

theorem Inv.used (hg : Inv g m) (h : g.own t ≠ .free) : m.pmm.isUsed t = true := by
  rw [← Bool.not_eq_false]
  exact fun hun => h (hg.unused t hun)

theorem Inv.inhabited (hg : Inv g m) (hroot : g.own src = .table src []) : Inhabited (tierOf g src) m src where
  total := hg.total
  used t n h := hg.used (tierOf_own h)
  below t n i ht hn hi hl := by
    obtain ⟨p, hown, hlen⟩ := tierOf_pos ht
    unfold leads at hl
    rw [Bool.and_eq_true] at hl
    have hlink := (hg.entries t src p hown i).link hl.1 (by omega) (by
      rintro rfl
      simp at hlen
      omega)
    rw [tierOf_table hlink.below]
    simp
    omega
  page t i ht hi hc := by
    obtain ⟨p, hown, hlen⟩ := tierOf_pos ht
    unfold counted at hc
    simp only [Bool.and_eq_true] at hc
    exact hg.used (by
      rw [((hg.entries t src p hown i).leaf hc.1.1.1 (by omega)).data]
      simp)
  root := tierOf_table hroot
  kernel := by simp [tierOf, hg.kernel]
  kernelUsed := hg.used (by simp [hg.kernel])
  top i hi hl := by
    unfold leadsOwn at hl
    simp only [Bool.and_eq_true, Bool.not_eq_true'] at hl
    rcases hg.entries src src [] hroot i hl.1 with ⟨-, -, hk⟩ | ⟨-, -, hlink⟩ | ⟨hthree, -⟩
    · rw [hl.2] at hk
      simp at hk
    · exact tierOf_table hlink.below
    · simp at hthree
  apart i hi hl hk := by
    unfold leadsOwn at hl
    simp only [Bool.and_eq_true, Bool.not_eq_true'] at hl
    rcases hg.entries src src [] hroot i hl.1 with ⟨-, -, hkern⟩ | ⟨-, htop, -⟩ | ⟨hthree, -⟩
    · rw [hl.2] at hkern
      simp at hkern
    · rw [htop rfl, hg.hole] at hk
      simp at hk
    · simp at hthree
  pages virt f hmine hwalk := by
    have hp : has (m.mem src (indexOf virt 4)) PTE_PRESENT = true := by
      rw [← Bool.not_eq_false]
      intro hp
      simp [walk, hp] at hwalk
    have htop : indexOf virt 4 = 1 := by
      rcases hg.entries src src [] hroot (indexOf virt 4) hp with ⟨-, -, hk⟩ | ⟨-, htop, -⟩ | ⟨hthree, -⟩
      · rw [show isKernels _ _ = false from hmine] at hk
        simp at hk
      · exact htop rfl
      · simp at hthree
    rw [walk_eq hg false 4 hroot rfl (by decide) fun _ => htop] at hwalk
    have hfollow : follow m.mem src (1 :: below virt 3) = some f := by
      simpa [below, htop] using hwalk
    obtain ⟨t, p, j, -, hlen, hown, -, hpj, rfl⟩ := leaf_of_follow hg hroot (below_length virt 3) hfollow
    exact tierOf_data ((hg.entries t src p hown j).leaf hpj hlen).data
  sole t i ht hi hc hrw := by
    obtain ⟨p, hown, hlen⟩ := tierOf_pos ht
    unfold counted at hc
    simp only [Bool.and_eq_true] at hc
    have hleaf := (hg.entries t src p hown i).leaf hc.1.1.1 (by omega)
    have hcount := hg.count _ hleaf.data
    rw [hleaf.sole hrw] at hcount
    omega

theorem Run.inhabited {w : World} {a : Space} (hboot : Booted m) (hrun : Run ⟨m, fun _ => none⟩ w)
    (live : w.spaces src = some a) :
    (∃ tier, Inhabited tier w.machine src) ∧ ∀ virt, IsUser virt → Mine w.machine src virt := by
  obtain ⟨g, hs⟩ := hrun.shows ⟨_, hboot.shows⟩
  refine ⟨⟨_, hs.inv.inhabited (hs.root src a live)⟩, ?_⟩
  intro virt huser
  unfold Mine
  rw [huser.top]
  exact hole_not_kernels hs.inv.hole

end Spaces

/-! ### A clone that is refused its third frame -/

@[irreducible] def sampleRefused : Machine := limit 2 (sampleMapped true)

def sampleLedger : Ledger where
  pmm := sampleRefused.pmm
  reserved := fun f => decide (f < 7)
  taken := fun _ => 0

theorem sampleRefused_past : sampleRefused.pmm.extra = some fun _ => 0 := by
  unfold sampleRefused sampleMapped
  rfl

theorem sampleLedger_counts : sampleLedger.pmm.totalFrames = 16 ∧
    (∀ f < 16, (sampleLedger.pmm.bitmap f = true ↔ 0 < sampleLedger.holders f)) ∧
    sampleLedger.pmm.usedFrames = countFrames 16 sampleLedger.pmm.bitmap ∧
    (sampleLedger.pmm.sharedNow = countFrames 16 fun f => decide (1 < sampleLedger.holders f)) ∧
    sampleLedger.pmm.nextHint < 16 ∧ sampleLedger.pmm.usedFrames = 7 ∧
    (sampleMapped true).pmm.testAllocsLeft = Pmm.NO_LIMIT ∧
    sampleRefused.pmm.usedFrames + 2 < (sampleCloned true).pmm.usedFrames ∧
    userLoad sampleRefused 2 sampleVirt = some 0 ∧
    (userStore 2 sampleVirt (fun _ => 5) (limit 0 sampleRefused)).1 = some () ∧
    userLoad (userStore 2 sampleVirt (fun _ => 5) (limit 0 sampleRefused)).2 2 sampleVirt = some 5 := by
  decide +kernel

theorem sampleLedger_kept : sampleLedger.Kept where
  bit := by
    rw [sampleLedger_counts.1]
    exact sampleLedger_counts.2.1
  inside := by
    intro f hf
    unfold Ledger.holders sampleLedger at hf
    simp only [decide_eq_true_eq] at hf
    split at hf
    · next hlt =>
      rw [sampleLedger_counts.1]
      omega
    · simp at hf
  past := by
    intro f
    have hpast : sampleLedger.pmm.past f = 0 := by
      rw [show sampleLedger.pmm.past = fun _ => 0 from Pmm.past_of_some sampleRefused_past]
    rw [hpast]
    unfold Ledger.holders sampleLedger
    simp only
    split <;> rfl
  zero := ⟨rfl, fun _ => by decide⟩
  used := by
    rw [sampleLedger_counts.1]
    exact sampleLedger_counts.2.2.1
  shared := by
    rw [sampleLedger_counts.1]
    exact sampleLedger_counts.2.2.2.1

theorem Mine.limit (n : Nat) (h : Mine m dir virt) :
    Mine (limit n m) dir virt := h

theorem sampleRefused_inhabited :
    ∃ tier, Inhabited tier sampleRefused 2 ∧ Mine sampleRefused 2 sampleVirt := by
  obtain ⟨R, hrun, live⟩ : ∃ R, Run ⟨sampleBoot, fun _ => none⟩ ⟨sampleMapped true, R⟩ ∧ ∃ a, R 2 = some a :=
    ⟨_, (Relation.ReflTransGen.single ⟨_, Step.new sampleSpace_run⟩).tail
      ⟨_, Step.fill (put_same _ _ _) sampleVirt_user (sampleMapped_run true)⟩, _, put_same _ _ _⟩
  obtain ⟨a, live⟩ := live
  obtain ⟨⟨tier, hI⟩, hmine⟩ := Run.inhabited sampleBoot_booted hrun live
  unfold sampleRefused
  exact ⟨tier, hI.limit 2, (hmine sampleVirt sampleVirt_user).limit 2⟩

theorem sampleMapped_unlimited : limit Pmm.NO_LIMIT sampleRefused = sampleMapped true := by
  obtain ⟨-, -, -, -, -, -, hleft, -⟩ := sampleLedger_counts
  unfold sampleRefused
  rw [limit_limit, ← hleft, limit_self]

/-- The directory and a table are there already, and the parent does not notice. -/
theorem clone_atomic_sample :
    ∃ m', cloneDirectory 2 sampleRefused = (none, m') ∧ m'.pmm.usedFrames = 7 ∧
      userLoad m' 2 sampleVirt = some 0 ∧
      ∃ m₂, userStore 2 sampleVirt (fun _ => 5) (limit 0 m') = (some (), m₂) ∧ userLoad m₂ 2 sampleVirt = some 5 := by
  obtain ⟨tier, hI, hmine⟩ := sampleRefused_inhabited
  have hledger : sampleLedger.pmm = sampleRefused.pmm := by unfold sampleLedger; rfl
  obtain ⟨htotal, -, -, -, hhint, hseven, -, hfew, hzero, hstored, hfive⟩ := sampleLedger_counts
  rw [hledger] at htotal hhint hseven
  obtain ⟨hrefused, hatomic⟩ := clone_atomic hI sampleLedger_kept hledger (htotal ▸ hhint)
  have hnone : (cloneDirectory 2 (limit 2 sampleRefused)).1 = none := by
    refine hrefused 2 7 (sampleCloned true) ?_ (by decide) hfew
    rw [sampleMapped_unlimited]
    exact sampleCloned_run true
  have hsame : limit 2 sampleRefused = sampleRefused := by
    unfold sampleRefused
    rw [limit_limit]
  rw [hsame] at hnone
  obtain ⟨m', hm'⟩ : ∃ m', cloneDirectory 2 sampleRefused = (none, m') := ⟨_, Prod.ext hnone rfl⟩
  obtain ⟨⟨-, -, hused, -⟩, hload, hstore⟩ := hatomic m' hm'
  obtain ⟨m₁, hm₁⟩ : ∃ m₁, m₁ = (userStore 2 sampleVirt (fun _ => 5) (limit 0 sampleRefused)).2 := ⟨_, rfl⟩
  have hbefore : userStore 2 sampleVirt (fun _ => 5) (limit 0 sampleRefused) = (some (), m₁) := by
    rw [hm₁]
    exact Prod.ext hstored rfl
  obtain ⟨m₂, hrun₂, hsame₂, -⟩ := hstore 0 sampleVirt (fun _ => 5) m₁ hmine hbefore
  refine ⟨m', hm', ?_, ?_, m₂, hrun₂, ?_⟩
  · rw [hused]
    exact hseven
  · rw [hload sampleVirt hmine]
    exact hzero
  · rw [hsame₂ sampleVirt hmine, hm₁]
    exact hfive

end Zelr.Paging
