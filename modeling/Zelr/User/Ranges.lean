import Mathlib.Tactic.IntervalCases
import Zelr.Paging.Refused
import Zelr.User.Memory

/-!
# Pages of a range

How many a loop goes over, and what a page handed over or taken away is in the reference.
-/

namespace Zelr.User

open Act Paging
open Pmm (put_same put_other)

/-! ## Addresses -/

section Addresses

variable {a b n : Word}

theorem pageOf_toNat (a : Word) : (pageOf a).toNat = a.toNat / 4096 * 4096 := by
  have hshift : pageOf a = (a >>> 12) <<< 12 := by
    unfold pageOf
    ext i hi
    interval_cases i <;> simp
  rw [hshift, BitVec.toNat_shiftLeft, BitVec.toNat_ushiftRight, Nat.shiftLeft_eq, Nat.shiftRight_eq_div_pow]
  have hlt := a.isLt
  exact Nat.mod_eq_of_lt (by omega)

theorem roundUp_toNat (n : Word) : (roundUp n).toNat = (n.toNat + 4095) % 2 ^ 64 / 4096 * 4096 := by
  have hpage : roundUp n = pageOf (n + 4095) := by
    unfold roundUp pageOf
    rw [show n + PAGE - 1 = n + 4095 by unfold PAGE; rw [BitVec.sub_eq_add_neg, BitVec.add_assoc]; rfl]
    rfl
  rw [hpage, pageOf_toNat, BitVec.toNat_add]
  rfl

theorem add_toNat (h : a.toNat + b.toNat < 2 ^ 64) : (a + b).toNat = a.toNat + b.toNat := by
  rw [BitVec.toNat_add, Nat.mod_eq_of_lt h]

def pagesOn (a : Word) (k : Nat) : Word := a + BitVec.ofNat 64 (k * 4096)

theorem pagesOn_toNat {k : Nat} (h : a.toNat + k * 4096 < 2 ^ 64) : (pagesOn a k).toNat = a.toNat + k * 4096 := by
  have hk : (BitVec.ofNat 64 (k * 4096)).toNat = k * 4096 := by
    rw [BitVec.toNat_ofNat]
    exact Nat.mod_eq_of_lt (by omega)
  unfold pagesOn
  rw [add_toNat (by rw [hk]; exact h), hk]

theorem pagesOn_succ (a : Word) (k : Nat) : pagesOn (a + PAGE) k = pagesOn a (k + 1) := by
  unfold pagesOn PAGE
  rw [BitVec.add_assoc, Nat.add_mul, Nat.add_comm (k * 4096), BitVec.ofNat_add]
  rfl

@[simp] theorem pagesOn_zero (a : Word) : pagesOn a 0 = a := by
  unfold pagesOn
  rw [Nat.zero_mul]
  exact BitVec.add_zero a

end Addresses

/-! ## Loops -/

section Loops

variable {σ : Type} {body : Word → Act σ Unit} {first limit : Word}

def pagesBetween (first limit : Word) : Nat := (limit.toNat - first.toNat + 4095) / 4096

theorem pagesLoop_triple {E : σ → Prop} : ∀ (n : Nat) {fuel : Nat} {first : Word} {I : Nat → σ → Prop},
    pagesBetween first limit = n → first.toNat + n * 4096 < 2 ^ 64 → n < fuel →
      (∀ k, k < n → Triple (I k) (body (pagesOn first k)) (fun _ => I (k + 1)) E) →
        Triple (I 0) (pagesLoop body limit fuel first) (fun _ => I n) E := by
  intro n
  induction n with
  | zero =>
    intro fuel first I hn hwrap hfuel _
    obtain ⟨fuel, rfl⟩ := Nat.exists_eq_add_of_lt hfuel
    unfold pagesBetween at hn
    rw [Nat.zero_add, pagesLoop, if_neg (by rw [BitVec.lt_def]; omega)]
    exact fun _ hs => hs
  | succ n ih =>
    intro fuel first I hn hwrap hfuel hbody
    obtain ⟨fuel, rfl⟩ : ∃ f, fuel = f + 1 := ⟨fuel - 1, by omega⟩
    unfold pagesBetween at hn
    have hnext : (first + PAGE).toNat = first.toNat + 4096 := add_toNat (b := PAGE) (by
      show first.toNat + 4096 < 2 ^ 64
      omega)
    rw [pagesLoop, if_pos (by rw [BitVec.lt_def]; omega)]
    have hfirst := hbody 0 (by omega)
    rw [pagesOn_zero] at hfirst
    refine Triple.bind hfirst fun _ => ?_
    apply ih (I := fun k => I (k + 1)) (by unfold pagesBetween; rw [hnext]; omega) (by rw [hnext]; omega) (by omega)
    intro k hk
    rw [pagesOn_succ]
    exact hbody (k + 1) (by omega)

theorem forPages_triple (body : Word → Act σ Unit) (first limit : Word) {I : Nat → σ → Prop} {E : σ → Prop}
    (hwrap : first.toNat + pagesBetween first limit * 4096 < 2 ^ 64)
    (hbody : ∀ k, k < pagesBetween first limit →
      Triple (I k) (body (pagesOn first k)) (fun _ => I (k + 1)) E) :
    Triple (I 0) (forPages body first limit) (fun _ => I (pagesBetween first limit)) E :=
  pagesLoop_triple _ rfl hwrap (by omega) hbody

end Loops

/-!
## The ranges a program asked for

The array as a set of ranges of whole pages in the window, no byte in two of them.
-/

@[simp] theorem mmap_base_toNat : USER_MMAP_BASE.toNat = 0x8038000000 := rfl
@[simp] theorem mmap_max_toNat : USER_MMAP_MAX.toNat = 0x8040000000 := rfl

def Apart (v w : Vma) : Prop :=
  v.base.toNat + v.len.toNat ≤ w.base.toNat ∨ w.base.toNat + w.len.toNat ≤ v.base.toNat

theorem Apart.symm {v w : Vma} (h : Apart v w) : Apart w v := Or.symm h

structure Inside (v : Vma) : Prop where
  aligned : v.base.toNat % 4096 = 0
  whole : v.len.toNat % 4096 = 0
  low : USER_MMAP_BASE.toNat ≤ v.base.toNat
  high : v.base.toNat + v.len.toNat ≤ USER_MMAP_MAX.toNat

structure Ranges (vma : List Vma) : Prop where
  inside : ∀ (i : Nat) (v : Vma), vma[i]? = some v → v.base ≠ 0 → Inside v
  free : ∀ (i : Nat) (v : Vma), vma[i]? = some v → v.base = 0 → v.len = 0
  apart : ∀ (i j : Nat) (v w : Vma), vma[i]? = some v → vma[j]? = some w → i ≠ j → v.base ≠ 0 → w.base ≠ 0 → Apart v w

theorem Ranges.nil : Ranges [] := ⟨by simp, by simp, by simp⟩

section Table

variable {vma vma' : List Vma} {v : Vma} {i : Nat} {base len : Word} {prot : BitVec 32}

theorem Inside.limit (h : Inside v) : (v.base + v.len).toNat = v.base.toNat + v.len.toNat := by
  have := h.high
  rw [mmap_max_toNat] at this
  exact add_toNat (by omega)

theorem Ranges.set (h : Ranges vma) (hin : Inside v)
    (hapart : ∀ (j : Nat) (w : Vma), vma[j]? = some w → j ≠ i → w.base ≠ 0 → Apart v w) : Ranges (vma.set i v) := by
  have hcase : ∀ (j : Nat) (w : Vma), (vma.set i v)[j]? = some w → (j = i ∧ w = v) ∨ (j ≠ i ∧ vma[j]? = some w) := by
    intro j w hj
    rw [List.getElem?_set] at hj
    split at hj
    · next hij =>
      split at hj
      · exact Or.inl ⟨hij.symm, (Option.some.inj hj).symm⟩
      · cases hj
    · next hij => exact Or.inr ⟨Ne.symm hij, hj⟩
  refine ⟨?_, ?_, ?_⟩
  · intro j w hj hw
    rcases hcase j w hj with ⟨-, rfl⟩ | ⟨-, hj⟩
    · exact hin
    · exact h.inside j w hj hw
  · intro j w hj hw
    rcases hcase j w hj with ⟨-, rfl⟩ | ⟨-, hj⟩
    · have := hin.low
      rw [hw] at this
      exact absurd this (by decide)
    · exact h.free j w hj hw
  · intro j k w x hj hk hjk hw hx
    rcases hcase j w hj with ⟨rfl, rfl⟩ | ⟨hji, hold⟩
    · rcases hcase k x hk with ⟨rfl, -⟩ | ⟨hki, hold⟩
      · exact absurd rfl hjk
      · exact hapart k x hold hki hx
    · rcases hcase k x hk with ⟨rfl, rfl⟩ | ⟨hki, hold'⟩
      · exact (hapart j w hold hji hw).symm
      · exact h.apart j k w x hold hold' hjk hw hx

theorem Ranges.clear (h : Ranges vma) (i : Nat) (v : Vma) :
    Ranges (vma.set i { v with base := 0, len := 0 }) := by
  have hcase : ∀ (j : Nat) (w : Vma), (vma.set i { v with base := 0, len := 0 })[j]? = some w →
      (w.base = 0 ∧ w.len = 0) ∨ vma[j]? = some w := by
    intro j w hj
    rw [List.getElem?_set] at hj
    split at hj
    · split at hj
      · cases hj
        exact Or.inl ⟨rfl, rfl⟩
      · cases hj
    · exact Or.inr hj
  refine ⟨?_, ?_, ?_⟩
  · intro j w hj hw
    rcases hcase j w hj with ⟨hzero, -⟩ | hj
    · exact absurd hzero hw
    · exact h.inside j w hj hw
  · intro j w hj hw
    rcases hcase j w hj with ⟨-, hzero⟩ | hj
    · exact hzero
    · exact h.free j w hj hw
  · intro j k w x hj hk hjk hw hx
    rcases hcase j w hj with ⟨hzero, -⟩ | hj
    · exact absurd hzero hw
    · rcases hcase k x hk with ⟨hzero, -⟩ | hk
      · exact absurd hzero hx
      · exact h.apart j k w x hj hk hjk hw hx

/-! ## The entry a range goes in -/

theorem slotFor_spec (h : slotFor vma = some (i, vma')) :
    (∃ z, vma'[i]? = some z ∧ z.base = 0) ∧ (vma' = vma ∨ vma' = vma ++ [⟨0, 0, 0⟩]) := by
  unfold slotFor at h
  split at h
  · next k hk =>
    cases h
    obtain ⟨hlt, hfree, -⟩ := List.findIdx?_eq_some_iff_getElem.mp hk
    exact ⟨⟨vma[i], List.getElem?_eq_getElem hlt, by simpa using hfree⟩, Or.inl rfl⟩
  · split at h
    · cases h
      exact ⟨⟨⟨0, 0, 0⟩, by simp, rfl⟩, Or.inr rfl⟩
    · cases h

theorem getElem?_grown {w : Vma} {j : Nat} (hj : (vma ++ [⟨0, 0, 0⟩])[j]? = some w) :
    vma[j]? = some w ∨ w = ⟨0, 0, 0⟩ := by
  rw [List.getElem?_append] at hj
  split at hj
  · exact Or.inl hj
  · right
    rcases hk : j - vma.length with _ | k
    · rw [hk] at hj
      exact (Option.some.inj hj).symm
    · rw [hk] at hj
      cases hj

theorem Ranges.slot (hR : Ranges vma) (h : slotFor vma = some (i, vma')) : Ranges vma' := by
  obtain ⟨-, rfl | rfl⟩ := slotFor_spec h
  · exact hR
  · refine ⟨?_, ?_, ?_⟩
    · intro j w hj hw
      rcases getElem?_grown hj with hj | rfl
      · exact hR.inside j w hj hw
      · exact absurd rfl hw
    · intro j w hj hw
      rcases getElem?_grown hj with hj | rfl
      · exact hR.free j w hj hw
      · rfl
    · intro j k w x hj hk hjk hw hx
      rcases getElem?_grown hj with hj | rfl
      · rcases getElem?_grown hk with hk | rfl
        · exact hR.apart j k w x hj hk hjk hw hx
        · exact absurd rfl hx
      · exact absurd rfl hw

/-! ## The gap it goes in -/

theorem vmaClear_iff (hR : Ranges vma) (hfit : base.toNat + len.toNat < 2 ^ 64) :
    vmaClear vma base len = true ↔
      ∀ (j : Nat) (w : Vma), vma[j]? = some w → w.base ≠ 0 → Apart ⟨base, len, 0⟩ w := by
  have hone : ∀ (j : Nat) (w : Vma), vma[j]? = some w → w.base ≠ 0 →
      ((!(decide (base < w.base + w.len) && decide (w.base < base + len))) = true ↔ Apart ⟨base, len, 0⟩ w) := by
    intro j w hj hw
    rw [Bool.not_eq_true', Bool.and_eq_false_iff, decide_eq_false_iff_not, decide_eq_false_iff_not, BitVec.lt_def,
      BitVec.lt_def, (hR.inside j w hj hw).limit, add_toNat hfit]
    unfold Apart
    simp only
    omega
  unfold vmaClear
  rw [List.all_eq_true]
  constructor
  · intro h j w hj hw
    have hmem := h w (List.mem_of_getElem? hj)
    rw [Bool.or_eq_true, beq_iff_eq] at hmem
    exact (hone j w hj hw).mp (hmem.resolve_left hw)
  · intro h w hw
    obtain ⟨j, hj⟩ := List.getElem?_of_mem hw
    rw [Bool.or_eq_true, beq_iff_eq]
    by_cases hzero : w.base = 0
    · exact Or.inl hzero
    · exact Or.inr ((hone j w hj hzero).mpr (h j w hj hzero))

theorem place_spec : ∀ (n : Nat) {a b : Word}, place vma len n a = some b →
    (∃ k, k < n ∧ b = pagesOn a k) ∧ b + len ≤ USER_MMAP_MAX ∧ vmaClear vma b len = true := by
  intro n
  induction n with
  | zero =>
    intro a b h
    cases h
  | succ n ih =>
    intro a b h
    unfold place at h
    split at h
    · next hfit =>
      split at h
      · next hclear =>
        cases h
        exact ⟨⟨0, by omega, (pagesOn_zero a).symm⟩, hfit, hclear⟩
      · obtain ⟨⟨k, hk, rfl⟩, hrest⟩ := ih h
        exact ⟨⟨k + 1, by omega, pagesOn_succ a k⟩, hrest⟩
    · cases h

theorem place_inside (prot : BitVec 32) (hR : Ranges vma) (hlen : len.toNat ≤ 0x8000000) (hwhole : len.toNat % 4096 = 0)
    (h : place vma len PLACES USER_MMAP_BASE = some base) :
    Inside ⟨base, len, prot⟩ ∧ ∀ (j : Nat) (w : Vma), vma[j]? = some w → w.base ≠ 0 → Apart ⟨base, len, prot⟩ w := by
  obtain ⟨⟨k, hk, hbase⟩, hfit, hclear⟩ := place_spec _ h
  unfold PLACES at hk
  have hplace : base.toNat = 0x8038000000 + k * 4096 := by
    rw [hbase, pagesOn_toNat (by rw [mmap_base_toNat]; omega), mmap_base_toNat]
  rw [BitVec.le_def, add_toNat (by omega), mmap_max_toNat] at hfit
  refine ⟨⟨?_, hwhole, ?_, hfit⟩, (vmaClear_iff hR (by omega)).mp hclear⟩
  · show base.toNat % 4096 = 0
    omega
  · show USER_MMAP_BASE.toNat ≤ base.toNat
    rw [mmap_base_toNat]
    omega

theorem place_empty (hR : Ranges vma) : place vma 0#64 PLACES USER_MMAP_BASE = some USER_MMAP_BASE := by
  have hclear : vmaClear vma USER_MMAP_BASE 0#64 = true := by
    rw [vmaClear_iff hR (by decide)]
    intro j w hj hw
    exact Or.inl ((hR.inside j w hj hw).low)
  unfold PLACES place
  rw [if_pos (by decide), if_pos hclear]

end Table

/-! ## Asking and giving back -/

section Calls

variable {t t' : Task} {base len : Word} {prot : BitVec 32}

theorem roundUp_whole (n : Word) : (roundUp n).toNat % 4096 = 0 := by
  rw [roundUp_toNat]
  exact Nat.mul_mod_left _ _

theorem roundUp_least (h : len.toNat + 4095 < 2 ^ 64) : len.toNat ≤ (roundUp len).toNat := by
  rw [roundUp_toNat, Nat.mod_eq_of_lt h]
  omega

theorem roundUp_past (h : 2 ^ 64 ≤ len.toNat + 4095) : roundUp len = 0#64 := by
  have hlt := len.isLt
  apply BitVec.eq_of_toNat_eq
  rw [roundUp_toNat, BitVec.toNat_ofNat, Nat.mod_eq_sub_mod h, Nat.mod_eq_of_lt (by omega)]
  omega

theorem userMmap_some (h : userMmap len prot t = (some base, t')) :
    ∃ slot vma, slotFor t.vma = some (slot, vma) ∧ (roundUp len).toNat ≤ 0x8000000 ∧
      place vma (roundUp len) PLACES USER_MMAP_BASE = some base ∧
      t' = { t with vma := vma.set slot ⟨base, roundUp len, prot⟩ } := by
  unfold userMmap at h
  rw [bind_apply, get_apply] at h
  simp only at h
  split at h
  · cases h
  · split at h
    · cases h
    · next hlen =>
      rcases hslot : slotFor t.vma with _ | ⟨slot, vma⟩
      · rw [hslot] at h
        cases h
      · rw [hslot] at h
        simp only at h
        rcases hplace : place vma (roundUp len) PLACES USER_MMAP_BASE with _ | a
        · rw [hplace] at h
          cases h
        · rw [hplace] at h
          cases h
          refine ⟨slot, vma, rfl, ?_, hplace, rfl⟩
          rw [gt_iff_lt, BitVec.lt_def, not_lt] at hlen
          exact hlen

theorem userMmap_none (h : userMmap len prot t = (none, t')) :
    t' = t ∨ ∃ slot vma, slotFor t.vma = some (slot, vma) ∧ t' = { t with vma := vma } := by
  unfold userMmap at h
  rw [bind_apply, get_apply] at h
  simp only at h
  split at h
  · cases h
    exact Or.inl rfl
  · split at h
    · cases h
      exact Or.inl rfl
    · rcases hslot : slotFor t.vma with _ | ⟨slot, vma⟩
      · rw [hslot] at h
        cases h
        exact Or.inl rfl
      · rw [hslot] at h
        simp only at h
        rcases hplace : place vma (roundUp len) PLACES USER_MMAP_BASE with _ | a
        · rw [hplace] at h
          cases h
          refine Or.inr ⟨slot, vma, rfl, ?_⟩
          obtain ⟨⟨z, hz, hbase⟩, -⟩ := slotFor_spec hslot
          have hsame : vma.modify slot (fun v => { v with base := 0 }) = vma := by
            apply List.ext_getElem?
            intro j
            rw [List.getElem?_modify]
            split
            · next hj =>
              rw [← hj, hz]
              rcases z with ⟨base, len, prot⟩
              cases hbase
              rfl
            · simp
          rw [hsame]
        · rw [hplace] at h
          cases h

theorem userMmap_ranges (hR : Ranges t.vma) : Ranges (userMmap len prot t).2.vma := by
  rcases h : userMmap len prot t with ⟨_ | base, t'⟩
  · rcases userMmap_none h with rfl | ⟨slot, vma, hslot, rfl⟩
    · exact hR
    · exact hR.slot hslot
  · obtain ⟨slot, vma, hslot, hlen, hplace, rfl⟩ := userMmap_some h
    have hR' := hR.slot hslot
    obtain ⟨hin, hapart⟩ := place_inside prot hR' hlen (roundUp_whole len) hplace
    exact hR'.set hin fun j w hj _ hw => hapart j w hj hw

end Calls

end Zelr.User
