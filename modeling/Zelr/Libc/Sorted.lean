import Zelr.Libc.Sort

/-!
# Sorting sorts

What each loop of `qsort` does to the row of elements: it changes places within its range and touches nothing outside the
array, and what it leaves is in order.
-/

namespace Zelr.Libc

open Equiv (swap_apply_left swap_apply_right swap_apply_of_ne_of_ne)

/-! ## Bytes -/

theorem swapBytes_apply (m : Mem) {a b n : Nat} (hapart : a + n ≤ b ∨ b + n ≤ a ∨ a = b) (x : Nat) :
    swapBytes m a b n x =
      if a ≤ x ∧ x < a + n then m (b + (x - a)) else if b ≤ x ∧ x < b + n then m (a + (x - b)) else m x := by
  induction n generalizing x with
  | zero => rw [swapBytes, if_neg (by omega), if_neg (by omega)]
  | succ n ih =>
    have hapart' : a + n ≤ b ∨ b + n ≤ a ∨ a = b := by omega
    rw [swapBytes, Function.update_apply, Function.update_apply]
    have ha : swapBytes m a b n (a + n) = m (a + n) := by
      rw [ih hapart', if_neg (by omega)]
      split
      · rename_i hb
        congr 1
        omega
      · rfl
    have hb : swapBytes m a b n (b + n) = m (b + n) := by
      rw [ih hapart', if_neg (by omega)]
      split
      · rename_i hb'
        omega
      · rfl
    rw [ha, hb, ih hapart']
    split_ifs <;> first | rfl | omega | (congr 1; omega)

variable {size : Nat} {A : Items size} {m m' m'' : Mem} {lo hi i j k p : Nat}

theorem item_apart (size : Nat) {a b : Nat} (h : a ≠ b) : a * size + size ≤ b * size ∨ b * size + size ≤ a * size := by
  rcases Nat.lt_or_gt_of_ne h with hlt | hgt
  · left
    rw [← Nat.succ_mul]
    exact Nat.mul_le_mul_right size hlt
  · right
    rw [← Nat.succ_mul]
    exact Nat.mul_le_mul_right size hgt

theorem place_apart (A : Items size) (a b : Nat) :
    A.base + a * size + size ≤ A.base + b * size ∨ A.base + b * size + size ≤ A.base + a * size ∨
      A.base + a * size = A.base + b * size := by
  by_cases h : a = b
  · rw [h]
    exact .inr (.inr rfl)
  · have := item_apart size h
    omega

theorem item_swapBytes (A : Items size) (m : Mem) (a b k : Nat) :
    A.item (swapBytes m (A.base + a * size) (A.base + b * size) size) k = A.item m (Equiv.swap a b k) := by
  funext r
  have hr := r.isLt
  unfold Items.item
  rw [swapBytes_apply m (place_apart A a b)]
  by_cases hka : k = a
  · subst hka
    rw [swap_apply_left, if_pos (by omega)]
    congr 1
    omega
  · have hka' := item_apart size hka
    rw [if_neg (by omega)]
    by_cases hkb : k = b
    · subst hkb
      rw [swap_apply_right, if_pos (by omega)]
      congr 1
      omega
    · have hkb' := item_apart size hkb
      rw [if_neg (by omega), swap_apply_of_ne_of_ne hka hkb]

/-! ## Rearranging an array -/

/-- Elements of a range change places, and no byte outside the array changes. -/
structure Permuted (A : Items size) (lo hi : Nat) (m m' : Mem) : Prop where
  items : Rearranged lo hi (A.item m) (A.item m')
  frame : ∀ x, x < A.base ∨ A.base + A.count * size ≤ x → m' x = m x

namespace Permuted

theorem refl (A : Items size) (lo hi : Nat) (m : Mem) : Permuted A lo hi m m := ⟨.refl _ _ _, fun _ _ => rfl⟩

theorem trans (h : Permuted A lo hi m m') (h' : Permuted A lo hi m' m'') : Permuted A lo hi m m'' :=
  ⟨h.items.trans h'.items, fun x hx => (h'.frame x hx).trans (h.frame x hx)⟩

theorem widen {lo' hi' : Nat} (h : Permuted A lo hi m m') (hlo : lo' ≤ lo) (hhi : hi ≤ hi') : Permuted A lo' hi' m m' :=
  ⟨h.items.widen hlo hhi, h.frame⟩

end Permuted

theorem swap_spec (A : Items size) (m : Mem) (lo hi a b : Nat) (ha : lo ≤ a ∧ a < hi) (hb : lo ≤ b ∧ b < hi) (hhi : hi ≤ A.count) :
    ∃ m', A.swap m a b = some m' ∧ Permuted A lo hi m m' ∧ ∀ k, A.item m' k = A.item m (Equiv.swap a b k) := by
  refine ⟨_, if_pos ⟨by omega, by omega⟩, ⟨.swap ha hb (item_swapBytes A m a b), fun x hx => ?_⟩, item_swapBytes A m a b⟩
  have ha' : a * size + size ≤ A.count * size := by
    rw [← Nat.succ_mul]
    exact Nat.mul_le_mul_right size (by omega)
  have hb' : b * size + size ≤ A.count * size := by
    rw [← Nat.succ_mul]
    exact Nat.mul_le_mul_right size (by omega)
  rw [swapBytes_apply m (place_apart A a b), if_neg (by omega), if_neg (by omega)]

theorem compare_spec (A : Items size) (m : Mem) {a b : Nat} (ha : a < A.count) (hb : b < A.count) :
    A.compare m a b = some (A.cmp (A.item m a) (A.item m b)) := if_pos ⟨ha, hb⟩

/-! ## Comparing -/

/-- A comparison that is a total preorder: it tells which of two elements comes first, both ways round. -/
structure TotalPreorder (A : Items size) : Prop where
  flip : ∀ x y, A.cmp x y < 0 ↔ 0 < A.cmp y x
  trans : ∀ {x y z}, A.cmp x y ≤ 0 → A.cmp y z ≤ 0 → A.cmp x z ≤ 0

def Items.le (A : Items size) (x y : Fin size → UInt8) : Prop := A.cmp x y ≤ 0

namespace TotalPreorder

variable {x y : Fin size → UInt8}

theorem le_of_nonneg (hA : TotalPreorder A) (h : 0 ≤ A.cmp x y) : A.le y x := by
  have := hA.flip x y
  unfold Items.le
  omega

theorem refl (hA : TotalPreorder A) (x : Fin size → UInt8) : A.le x x := by
  have := hA.flip x x
  unfold Items.le
  omega

theorem le_of_not (hA : TotalPreorder A) (h : ¬ A.cmp x y ≤ 0) : A.le y x := hA.le_of_nonneg (by omega)

theorem nonneg_of_le (hA : TotalPreorder A) (h : A.le y x) : 0 ≤ A.cmp x y := by
  have := hA.flip x y
  unfold Items.le at h
  omega

end TotalPreorder

/-! ## The scans -/

theorem scanUp_spec (A : Items size) (m : Mem) {f : Nat} (hij : i < j) (hj : j < A.count) (hp : p < A.count)
    (hstop : 0 ≤ A.cmp (A.item m j) (A.item m p)) (hf : j ≤ i + f) :
    ∃ i', scanUp A m p f i = some i' ∧ i < i' ∧ i' ≤ j ∧ 0 ≤ A.cmp (A.item m i') (A.item m p) ∧
      ∀ k, i < k → k < i' → A.cmp (A.item m k) (A.item m p) < 0 := by
  induction f generalizing i with
  | zero => omega
  | succ f ih =>
    rw [scanUp, compare_spec A m (by omega) hp, Option.bind_eq_bind, Option.bind_some]
    split
    · rename_i hlt
      have hne : i + 1 ≠ j := by
        rintro rfl
        omega
      obtain ⟨i', hscan, hlo, hhi, hstop', hall⟩ := ih (i := i + 1) (by omega) (by omega)
      refine ⟨i', hscan, by omega, hhi, hstop', fun k hk hki => ?_⟩
      rcases Nat.lt_or_ge (i + 1) k with hk' | hk'
      · exact hall k hk' hki
      · obtain rfl : k = i + 1 := by omega
        exact hlt
    · rename_i hge
      exact ⟨i + 1, rfl, by omega, by omega, by omega, fun k hk hki => by omega⟩

theorem scanDown_spec (A : Items size) (m : Mem) {f : Nat} (hlo : lo ≤ i) (hij : i < j) (hj : j ≤ A.count) (hp : p < A.count)
    (hstop : A.cmp (A.item m i) (A.item m p) ≤ 0) (hf : j ≤ i + f) :
    ∃ j', scanDown A m lo p f j = some j' ∧ i ≤ j' ∧ j' < j ∧ A.cmp (A.item m j') (A.item m p) ≤ 0 ∧
      ∀ k, j' < k → k < j → 0 < A.cmp (A.item m k) (A.item m p) := by
  induction f generalizing j with
  | zero => omega
  | succ f ih =>
    obtain ⟨j, rfl⟩ := Nat.exists_eq_add_one_of_ne_zero (show j ≠ 0 by omega)
    rw [scanDown]
    split
    · rw [compare_spec A m (by omega) hp, Option.bind_eq_bind, Option.bind_some]
      split
      · rename_i hgt
        have hne : i ≠ j := by
          rintro rfl
          omega
        obtain ⟨j', hscan, hle, hlt, hstop', hall⟩ := ih (j := j) (by omega) (by omega) (by omega)
        refine ⟨j', hscan, hle, by omega, hstop', fun k hk hkj => ?_⟩
        rcases Nat.lt_or_ge k j with hk' | hk'
        · exact hall k hk hk'
        · obtain rfl : k = j := by omega
          exact hgt
      · rename_i hle
        exact ⟨j, rfl, by omega, by omega, by omega, fun k hk hkj => by omega⟩
    · rename_i hend
      obtain rfl : j = i := by omega
      exact ⟨j, rfl, le_refl j, by omega, hstop, fun k hk hkj => by omega⟩

/-! ## Parting -/

/-- A range parted at a place: what is before it is not above the pivot, and the rest not below. -/
structure Parted (A : Items size) (m : Mem) (lo i p : Nat) : Prop where
  below : ∀ k, lo ≤ k → k < i → A.cmp (A.item m k) (A.item m p) ≤ 0
  above : ∀ k, i ≤ k → k ≤ p → 0 ≤ A.cmp (A.item m k) (A.item m p)

theorem partLoop_spec {f : Nat} (hlo : lo ≤ i) (hij : i < j) (hjp : j ≤ p) (hp : p < A.count)
    (hbelow : ∀ k, lo ≤ k → k ≤ i → A.cmp (A.item m k) (A.item m p) ≤ 0)
    (habove : ∀ k, j ≤ k → k ≤ p → 0 ≤ A.cmp (A.item m k) (A.item m p)) (hf : j ≤ i + f) :
    ∃ m' i', partLoop A lo p f m i j = some (m', i') ∧ Permuted A lo p m m' ∧ lo < i' ∧ i' ≤ p ∧ Parted A m' lo i' p := by
  induction f generalizing m i j with
  | zero => omega
  | succ f ih =>
    obtain ⟨i', hup, hi, hij', hi0, hbefore⟩ := scanUp_spec A m (f := A.count) hij (by omega) hp (habove j (le_refl j) hjp)
      (by omega)
    obtain ⟨j', hdown, hij'', hj, hj0, hafter⟩ := scanDown_spec A m (f := A.count) hlo hij (by omega) hp
      (hbelow i hlo (le_refl i)) (by omega)
    have hbelow' : ∀ k, lo ≤ k → k < i' → A.cmp (A.item m k) (A.item m p) ≤ 0 := fun k hk hki => by
      rcases Nat.lt_or_ge i k with hik | hik
      · exact Int.le_of_lt (hbefore k hik hki)
      · exact hbelow k hk hik
    have habove' : ∀ k, j' < k → k ≤ p → 0 ≤ A.cmp (A.item m k) (A.item m p) := fun k hk hkp => by
      rcases Nat.lt_or_ge k j with hkj | hkj
      · exact Int.le_of_lt (hafter k hk hkj)
      · exact habove k hkj hkp
    rw [partLoop, hup, hdown]
    simp only [Option.bind_eq_bind, Option.bind_some]
    split
    · rename_i hcross
      refine ⟨m, i', rfl, .refl A lo p m, by omega, by omega, hbelow', fun k hk hkp => ?_⟩
      rcases Nat.eq_or_lt_of_le hk with rfl | hk
      · exact hi0
      · exact habove' k (by omega) hkp
    · rename_i hcross
      obtain ⟨m₁, hswap, hperm, hitem⟩ := swap_spec A m lo p i' j' ⟨by omega, by omega⟩
        ⟨by omega, by omega⟩ (by omega)
      have hp₁ : A.item m₁ p = A.item m p := by rw [hitem, swap_apply_of_ne_of_ne (by omega) (by omega)]
      have hi₁ : A.item m₁ i' = A.item m j' := by rw [hitem, swap_apply_left]
      have hj₁ : A.item m₁ j' = A.item m i' := by rw [hitem, swap_apply_right]
      rw [hswap, Option.bind_some]
      obtain ⟨m', e, hloop, hperm', hle, hep, hparted⟩ := ih (m := m₁) (i := i') (j := j') (by omega) (by omega) (by omega)
        (fun k hk hki => by
          rw [hp₁]
          rcases Nat.eq_or_lt_of_le hki with rfl | hki
          · rw [hi₁]
            exact hj0
          · rw [hitem, swap_apply_of_ne_of_ne (by omega) (by omega)]
            exact hbelow' k hk hki)
        (fun k hk hkp => by
          rw [hp₁]
          rcases Nat.eq_or_lt_of_le hk with rfl | hk
          · rw [hj₁]
            exact hi0
          · rw [hitem, swap_apply_of_ne_of_ne (by omega) (by omega)]
            exact habove' k hk hkp)
        (by omega)
      exact ⟨m', e, hloop, hperm.trans hperm', hle, hep, hparted⟩

section
variable (hA : TotalPreorder A)
include hA

theorem order_spec (m : Mem) (lo hi a b : Nat) (ha : lo ≤ a ∧ a < hi) (hb : lo ≤ b ∧ b < hi)
    (hhi : hi ≤ A.count) :
    ∃ m', A.order m a b = some m' ∧ Permuted A lo hi m m' ∧ A.le (A.item m' b) (A.item m' a) ∧
      (∀ k, k ≠ a → k ≠ b → A.item m' k = A.item m k) ∧
      ∀ x, A.le (A.item m a) x → A.le (A.item m b) x → A.le (A.item m' a) x := by
  rw [Items.order, compare_spec A m (by omega) (by omega), Option.bind_eq_bind, Option.bind_some]
  split
  · rename_i hlt
    obtain ⟨m', hswap, hperm, hitem⟩ := swap_spec A m lo hi a b ha hb hhi
    refine ⟨m', hswap, hperm, ?_, fun k hka hkb => ?_, fun x _ hxb => ?_⟩
    · rw [hitem, hitem, swap_apply_left, swap_apply_right]
      exact Int.le_of_lt hlt
    · rw [hitem, swap_apply_of_ne_of_ne hka hkb]
    · rw [hitem, swap_apply_left]
      exact hxb
  · rename_i hge
    exact ⟨m, rfl, .refl A lo hi m, hA.le_of_nonneg (by omega), fun _ _ _ => rfl, fun _ hxa _ => hxa⟩

theorem settleLast_spec (m : Mem) {mid : Nat} (hlo : lo < mid) (hmid : mid < hi) (hhi : hi < A.count)
    (hle : A.le (A.item m lo) (A.item m mid)) :
    ∃ m', settleLast A m lo mid hi = some m' ∧ Permuted A lo (hi + 1) m m' ∧ A.le (A.item m' lo) (A.item m' mid) ∧
      A.le (A.item m' mid) (A.item m' hi) := by
  rw [settleLast, compare_spec A m (by omega) (by omega), Option.bind_eq_bind, Option.bind_some]
  split
  · rename_i hlt
    obtain ⟨m₁, hswap, hperm, hitem⟩ := swap_spec A m lo (hi + 1) hi mid (by omega) (by omega) hhi
    have hmid₁ : A.item m₁ mid = A.item m hi := by rw [hitem, swap_apply_right]
    have hhi₁ : A.item m₁ hi = A.item m mid := by rw [hitem, swap_apply_left]
    have hlo₁ : A.item m₁ lo = A.item m lo := by rw [hitem, swap_apply_of_ne_of_ne (by omega) (by omega)]
    obtain ⟨m', horder, hperm', hle', hother, hbound⟩ := order_spec hA m₁ lo (hi + 1) mid lo (by omega)
      (by omega) hhi
    rw [hswap, Option.bind_eq_bind, Option.bind_some]
    refine ⟨m', horder, hperm.trans hperm', hle', ?_⟩
    rw [hother hi (by omega) (by omega)]
    apply hbound
    · rw [hmid₁, hhi₁]
      exact Int.le_of_lt hlt
    · rw [hlo₁, hhi₁]
      exact hle
  · rename_i hge
    exact ⟨m, rfl, .refl A _ _ m, hle, hA.le_of_nonneg (by omega)⟩

theorem medianOfThree_spec (m : Mem) (lo mid hi : Nat) (hlo : lo < mid) (hmid : mid + 1 < hi) (hhi : hi < A.count) :
    ∃ m', medianOfThree A m lo mid hi = some m' ∧ Permuted A lo (hi + 1) m m' ∧
      A.le (A.item m' lo) (A.item m' (hi - 1)) ∧ A.le (A.item m' (hi - 1)) (A.item m' hi) := by
  obtain ⟨m₁, hfirst, hperm₁, hle₁, -, -⟩ := order_spec hA m lo (hi + 1) mid lo (by omega) (by omega) hhi
  obtain ⟨m₂, hsecond, hperm₂, hlow, hhigh⟩ := settleLast_spec hA m₁ hlo (by omega) hhi hle₁
  obtain ⟨m', hpark, hperm', hitem⟩ := swap_spec A m₂ lo (hi + 1) mid (hi - 1) (by omega) (by omega) hhi
  have hlo' : A.item m' lo = A.item m₂ lo := by rw [hitem, swap_apply_of_ne_of_ne (by omega) (by omega)]
  have hhi' : A.item m' hi = A.item m₂ hi := by rw [hitem, swap_apply_of_ne_of_ne (by omega) (by omega)]
  have hpivot : A.item m' (hi - 1) = A.item m₂ mid := by rw [hitem, swap_apply_right]
  refine ⟨m', ?_, (hperm₁.trans hperm₂).trans hperm', ?_, ?_⟩
  · rw [medianOfThree, hfirst, Option.bind_eq_bind, Option.bind_some, hsecond, Option.bind_some, hpark]
  · rw [hlo', hpivot]
    exact hlow
  · rw [hpivot, hhi']
    exact hhigh

/-! ## Insertion -/

theorem sink_spec (m : Mem) (base j n : Nat) (hjn : j ≤ n) (hn : base + n < A.count)
    (hrest : ∀ a b, base ≤ a → a < b → b ≤ base + n → a ≠ base + j → b ≠ base + j → A.le (A.item m a) (A.item m b))
    (hbehind : ∀ b, base + j < b → b ≤ base + n → A.le (A.item m (base + j)) (A.item m b)) :
    ∃ m', sink A base j m = some m' ∧ Permuted A base (base + n + 1) m m' ∧
      Ascending A.le base (base + n + 1) (A.item m') := by
  induction j generalizing m with
  | zero =>
    refine ⟨m, rfl, .refl A _ _ m, fun a b ha hab hb => ?_⟩
    by_cases hbase : a = base
    · subst hbase
      exact hbehind b hab (by omega)
    · exact hrest a b ha hab (by omega) (by omega) (by omega)
  | succ j ih =>
    rw [sink, compare_spec A m (by omega) (by omega), Option.bind_eq_bind, Option.bind_some]
    split
    · rename_i hle
      refine ⟨m, rfl, .refl A _ _ m, fun a b ha hab hb => ?_⟩
      by_cases haj : a = base + (j + 1)
      · subst haj
        exact hbehind b hab (by omega)
      · by_cases hbj : b = base + (j + 1)
        · subst hbj
          rcases Nat.lt_or_ge a (base + j) with hlt | hge
          · exact hA.trans (hrest a (base + j) ha hlt (by omega) haj (by omega)) hle
          · obtain rfl : a = base + j := by omega
            exact hle
        · exact hrest a b ha hab (by omega) haj hbj
    · rename_i hgt
      obtain ⟨m₁, hswap, hperm, hitem⟩ := swap_spec A m base (base + n + 1) (base + j) (base + (j + 1))
        (by omega) (by omega) hn
      have hj₁ : A.item m₁ (base + j) = A.item m (base + (j + 1)) := by rw [hitem, swap_apply_left]
      have hj₁' : A.item m₁ (base + (j + 1)) = A.item m (base + j) := by rw [hitem, swap_apply_right]
      have hother : ∀ k, k ≠ base + j → k ≠ base + (j + 1) → A.item m₁ k = A.item m k := fun k hk hk' => by
        rw [hitem, swap_apply_of_ne_of_ne hk hk']
      rw [hswap, Option.bind_eq_bind, Option.bind_some]
      obtain ⟨m', hsink, hperm', hasc⟩ := ih m₁ (by omega)
        (fun a b ha hab hb haj hbj => by
          by_cases haj' : a = base + (j + 1)
          · subst haj'
            rw [hj₁', hother b hbj (by omega)]
            exact hrest (base + j) b (by omega) (by omega) hb (by omega) (by omega)
          · rw [hother a haj haj']
            by_cases hbj' : b = base + (j + 1)
            · subst hbj'
              rw [hj₁']
              exact hrest a (base + j) ha (by omega) (by omega) (by omega) (by omega)
            · rw [hother b hbj hbj']
              exact hrest a b ha hab hb haj' hbj')
        (fun b hb hbn => by
          rw [hj₁]
          by_cases hbj : b = base + (j + 1)
          · subst hbj
            rw [hj₁']
            exact hA.le_of_not hgt
          · rw [hother b (by omega) hbj]
            exact hbehind b (by omega) hbn)
      exact ⟨m', hsink, hperm.trans hperm', hasc⟩

theorem insertionSort_spec (m : Mem) {base n : Nat} (hn : base + n ≤ A.count) :
    ∃ m', insertionSort A m base n = some m' ∧ Permuted A base (base + n) m m' ∧ Ascending A.le base (base + n) (A.item m') := by
  have hloop : ∀ k, k < n ∨ k = 0 → ∃ m', (List.range k).foldlM (fun m k => sink A base (k + 1) m) m = some m' ∧
      Permuted A base (base + n) m m' ∧ Ascending A.le base (base + k + 1) (A.item m') := by
    intro k hk
    induction k with
    | zero => exact ⟨m, rfl, .refl A _ _ m, ascending_short (by omega)⟩
    | succ k ih =>
      obtain ⟨m₁, hfold, hperm, hasc⟩ := ih (by omega)
      obtain ⟨m', hsink, hperm', hasc'⟩ := sink_spec hA m₁ base (k + 1) (k + 1) (le_refl _) (by omega)
        (fun a b ha hab hb _ hbj => hasc a b ha hab (by omega)) (fun b hb hbn => by omega)
      refine ⟨m', ?_, hperm.trans (hperm'.widen (le_refl _) (by omega)), hasc'⟩
      rw [List.range_succ, List.foldlM_append, hfold]
      simpa using hsink
  obtain ⟨m', hfold, hperm, hasc⟩ := hloop (n - 1) (by omega)
  exact ⟨m', hfold, hperm, fun a b ha hab hb => hasc a b ha hab (by omega)⟩

/-! ## Sorting -/

omit hA in
theorem Permuted.le_all (h : Permuted A lo hi m m') {x : Fin size → UInt8} (hx : ∀ k, lo ≤ k → k < hi → A.le (A.item m k) x) :
    ∀ k, lo ≤ k → k < hi → A.le (A.item m' k) x := h.items.all (P := (A.le · x)) hx

omit hA in
theorem Permuted.all_le (h : Permuted A lo hi m m') {x : Fin size → UInt8} (hx : ∀ k, lo ≤ k → k < hi → A.le x (A.item m k)) :
    ∀ k, lo ≤ k → k < hi → A.le x (A.item m' k) := h.items.all (P := A.le x) hx

theorem sides_spec {base n e : Nat} (hbe : base ≤ e) (hen : e < base + n)
    (hbelow : ∀ k, base ≤ k → k < e → A.le (A.item m k) (A.item m e))
    (habove : ∀ k, e < k → k < base + n → A.le (A.item m e) (A.item m k)) {lo₁ hi₁ lo₂ hi₂ : Nat}
    (hsides : lo₁ = base ∧ hi₁ = e ∧ lo₂ = e + 1 ∧ hi₂ = base + n ∨ lo₂ = base ∧ hi₂ = e ∧ lo₁ = e + 1 ∧ hi₁ = base + n)
    {m₁ m₂ : Mem} (h₁ : Permuted A lo₁ hi₁ m m₁) (hasc₁ : Ascending A.le lo₁ hi₁ (A.item m₁)) (h₂ : Permuted A lo₂ hi₂ m₁ m₂)
    (hasc₂ : Ascending A.le lo₂ hi₂ (A.item m₂)) :
    Permuted A base (base + n) m m₂ ∧ Ascending A.le base (base + n) (A.item m₂) := by
  have hperm : Permuted A base (base + n) m m₂ := (h₁.widen (by omega) (by omega)).trans (h₂.widen (by omega) (by omega))
  have hpivot : A.item m₂ e = A.item m e := by
    rw [h₂.items.outside (by omega), h₁.items.outside (by omega)]
  have hstay : ∀ k, lo₁ ≤ k → k < hi₁ → A.item m₂ k = A.item m₁ k := fun k hk hk' => h₂.items.outside (by omega)
  have hcame : ∀ k, lo₂ ≤ k → k < hi₂ → A.item m₁ k = A.item m k := fun k hk hk' => h₁.items.outside (by omega)
  have hasc₁' := hasc₁.congr hstay
  refine ⟨hperm, ?_⟩
  rcases hsides with ⟨rfl, rfl, rfl, rfl⟩ | ⟨rfl, rfl, rfl, rfl⟩
  · refine hasc₁'.join hasc₂ (fun k hk hke => ?_) (fun k hk hkn => ?_) hA.trans
    · rw [hpivot, hstay k hk hke]
      exact h₁.le_all hbelow k hk hke
    · rw [hpivot]
      exact h₂.all_le (fun k hk hkn => by rw [hcame k hk hkn]; exact habove k hk hkn) k hk hkn
  · refine hasc₂.join hasc₁' (fun k hk hke => ?_) (fun k hk hkn => ?_) hA.trans
    · rw [hpivot]
      exact h₂.le_all (fun k hk hkn => by rw [hcame k hk hkn]; exact hbelow k hk hkn) k hk hke
    · rw [hpivot, hstay k hk hkn]
      exact h₁.all_le habove k hk hkn

theorem sortRange_spec (f : Nat) (m : Mem) (base n : Nat) (hf : n < f) (hn : base + n ≤ A.count) :
    ∃ m', sortRange A f m base n = some m' ∧ Permuted A base (base + n) m m' ∧
      Ascending A.le base (base + n) (A.item m') := by
  induction f generalizing m base n with
  | zero => omega
  | succ f ih =>
    rw [sortRange]
    split
    · rename_i hlarge
      obtain ⟨m₁, hmedian, hperm₁, hlo, hhi⟩ := medianOfThree_spec hA m base (base + n / 2) (base + (n - 1))
        (by omega) (by omega) (by omega)
      obtain ⟨m₂, e, hloop, hperm₂, hbe, hep, hparted⟩ := partLoop_spec (A := A) (m := m₁) (i := base) (j := base + (n - 1) - 1)
        (p := base + (n - 1) - 1) (f := n) (le_refl base) (by omega) (le_refl _) (by omega)
        (fun k hk hkb => by
          obtain rfl : k = base := by omega
          exact hlo)
        (fun k hk hkp => by
          obtain rfl : k = base + (n - 1) - 1 := by omega
          exact hA.nonneg_of_le (hA.refl _))
        (by omega)
      obtain ⟨m₃, hswap, hperm₃, hitem⟩ := swap_spec A m₂ base (base + n) e (base + (n - 1) - 1)
        (by omega) (by omega) hn
      have hperm : Permuted A base (base + n) m m₃ :=
        ((hperm₁.widen (le_refl _) (by omega)).trans (hperm₂.widen (le_refl _) (by omega))).trans hperm₃
      have hpivot : A.item m₃ e = A.item m₂ (base + (n - 1) - 1) := by rw [hitem, swap_apply_left]
      have hbelow : ∀ k, base ≤ k → k < e → A.le (A.item m₃ k) (A.item m₃ e) := fun k hk hke => by
        rw [hpivot, hitem, swap_apply_of_ne_of_ne (by omega) (by omega)]
        exact hparted.below k hk hke
      have habove : ∀ k, e < k → k < base + n → A.le (A.item m₃ e) (A.item m₃ k) := fun k hk hkn => by
        rw [hpivot]
        rcases Nat.lt_trichotomy k (base + (n - 1) - 1) with hlt | heq | hgt
        · rw [hitem, swap_apply_of_ne_of_ne (by omega) (by omega)]
          exact hA.le_of_nonneg (hparted.above k (by omega) (by omega))
        · rw [hitem, heq, swap_apply_right]
          exact hA.le_of_nonneg (hparted.above e (le_refl e) hep)
        · obtain rfl : k = base + (n - 1) := by omega
          rw [hitem, swap_apply_of_ne_of_ne (by omega) (by omega), hperm₂.items.outside (by omega),
            hperm₂.items.outside (by omega)]
          exact hhi
      simp only [hmedian, hloop, hswap, Option.bind_eq_bind, Option.bind_some]
      have hright : e + 1 + (n - (e - base) - 1) = base + n := by omega
      have hleft : base + (e - base) = e := by omega
      split
      · obtain ⟨m₄, hfirst, hperm₄, hasc₄⟩ := ih m₃ base (e - base) (by omega) (by omega)
        obtain ⟨m₅, hsecond, hperm₅, hasc₅⟩ := ih m₄ (e + 1) (n - (e - base) - 1) (by omega) (by omega)
        rw [hleft] at hperm₄ hasc₄
        rw [hright] at hperm₅ hasc₅
        obtain ⟨hperm', hasc'⟩ := sides_spec hA (by omega) (by omega) hbelow habove (.inl ⟨rfl, rfl, rfl, rfl⟩) hperm₄ hasc₄
          hperm₅ hasc₅
        rw [hfirst, Option.bind_some]
        exact ⟨m₅, hsecond, hperm.trans hperm', hasc'⟩
      · obtain ⟨m₄, hfirst, hperm₄, hasc₄⟩ := ih m₃ (e + 1) (n - (e - base) - 1) (by omega) (by omega)
        obtain ⟨m₅, hsecond, hperm₅, hasc₅⟩ := ih m₄ base (e - base) (by omega) (by omega)
        rw [hright] at hperm₄ hasc₄
        rw [hleft] at hperm₅ hasc₅
        obtain ⟨hperm', hasc'⟩ := sides_spec hA (by omega) (by omega) hbelow habove (.inr ⟨rfl, rfl, rfl, rfl⟩) hperm₄ hasc₄
          hperm₅ hasc₅
        rw [hfirst, Option.bind_some]
        exact ⟨m₅, hsecond, hperm.trans hperm', hasc'⟩
    · exact insertionSort_spec hA m hn

end

/-- Sorting comes to its end, stays within the array, and leaves the same elements in order. -/
theorem qsort_sorts (hA : TotalPreorder A) (m : Mem) :
    ∃ m', qsort A m = some m' ∧
      ((List.range A.count).map (A.item m')).Perm ((List.range A.count).map (A.item m)) ∧
      (∀ i j, i < j → j < A.count → A.cmp (A.item m' i) (A.item m' j) ≤ 0) ∧
      ∀ x, x < A.base ∨ A.base + A.count * size ≤ x → m' x = m x := by
  unfold qsort
  split
  · rename_i hshort
    refine ⟨m, rfl, .refl _, fun i j hij hj => ?_, fun _ _ => rfl⟩
    obtain rfl : size = 0 := hshort.resolve_left (by omega)
    rw [Subsingleton.elim (A.item m i) (A.item m j)]
    exact hA.refl _
  · obtain ⟨m', hsort, hperm, hasc⟩ := sortRange_spec hA (A.count + 1) m 0 A.count (by omega) (by omega)
    rw [Nat.zero_add] at hperm hasc
    exact ⟨m', hsort, hperm.items.perm, fun i j hij hj => hasc i j (Nat.zero_le i) hij hj, hperm.frame⟩

/-- Records of two bytes, by the second of them. -/
def records : Items 2 := ⟨4096, 1000, fun x y => (x 1).toNat - (y 1).toNat⟩

def shuffled : Mem := fun x => UInt8.ofNat (x * x / 7)

theorem records_sorted : ∃ m', qsort records shuffled = some m' ∧
    ((List.range records.count).map (records.item m')).Perm ((List.range records.count).map (records.item shuffled)) ∧
    (∀ i j, i < j → j < records.count → records.cmp (records.item m' i) (records.item m' j) ≤ 0) ∧
    ∀ x, x < records.base ∨ records.base + records.count * 2 ≤ x → m' x = shuffled x := by
  refine qsort_sorts ⟨fun x y => ?_, fun {x y z} hxy hyz => ?_⟩ shuffled
  · change (_ - _ : Int) < 0 ↔ 0 < (_ - _ : Int)
    omega
  · change (_ - _ : Int) ≤ 0
    change (_ - _ : Int) ≤ 0 at hxy hyz
    omega

end Zelr.Libc
