import Mathlib.Data.List.Dedup
import Mathlib.Data.List.Range
import Mathlib.Logic.Equiv.Basic

/-!
# Rearranging

A row of items by their places, of which those between two places change places.
-/

namespace Zelr

variable {α : Type} {v v' v'' : Nat → α} {lo hi lo' hi' i j k : Nat} {le : α → α → Prop}

def Rearranged (lo hi : Nat) (v v' : Nat → α) : Prop :=
  ∃ σ : Equiv.Perm Nat, (∀ k, ¬ (lo ≤ k ∧ k < hi) → σ k = k) ∧ ∀ k, v' k = v (σ k)

namespace Rearranged

theorem refl (lo hi : Nat) (v : Nat → α) : Rearranged lo hi v v := ⟨Equiv.refl Nat, fun _ _ => rfl, fun _ => rfl⟩

section
variable (h : Rearranged lo hi v v')
include h

theorem trans (h' : Rearranged lo hi v' v'') : Rearranged lo hi v v'' := by
  obtain ⟨σ, hstay, hv⟩ := h
  obtain ⟨τ, hstay', hv'⟩ := h'
  refine ⟨τ.trans σ, fun k hk => ?_, fun k => ?_⟩
  · rw [Equiv.trans_apply, hstay' k hk, hstay k hk]
  · rw [hv', hv, Equiv.trans_apply]

theorem widen (hlo : lo' ≤ lo) (hhi : hi ≤ hi') : Rearranged lo' hi' v v' := by
  obtain ⟨σ, hstay, hv⟩ := h
  exact ⟨σ, fun k hk => hstay k fun hin => hk ⟨hlo.trans hin.1, hin.2.trans_le hhi⟩, hv⟩

omit h in
theorem swap (hi' : lo ≤ i ∧ i < hi) (hj : lo ≤ j ∧ j < hi) (hv : ∀ k, v' k = v (Equiv.swap i j k)) :
    Rearranged lo hi v v' := by
  refine ⟨Equiv.swap i j, fun k hk => Equiv.swap_apply_of_ne_of_ne ?_ ?_, hv⟩
  · rintro rfl
    exact hk hi'
  · rintro rfl
    exact hk hj

theorem outside (hk : ¬ (lo ≤ k ∧ k < hi)) : v' k = v k := by
  obtain ⟨σ, hstay, hv⟩ := h
  rw [hv, hstay k hk]

theorem from_inside (hk : lo ≤ k ∧ k < hi) : ∃ j, (lo ≤ j ∧ j < hi) ∧ v' k = v j := by
  obtain ⟨σ, hstay, hv⟩ := h
  refine ⟨σ k, ?_, hv k⟩
  by_contra hout
  have hfix : σ k = k := σ.injective (hstay (σ k) hout)
  rw [hfix] at hout
  exact hout hk

theorem all {P : α → Prop} (hP : ∀ k, lo ≤ k → k < hi → P (v k)) :
    ∀ k, lo ≤ k → k < hi → P (v' k) := by
  intro k hlo hhi
  obtain ⟨j, hj, hk⟩ := h.from_inside ⟨hlo, hhi⟩
  rw [hk]
  exact hP j hj.1 hj.2

end

theorem perm (h : Rearranged 0 hi v v') : ((List.range hi).map v').Perm ((List.range hi).map v) := by
  obtain ⟨σ, hstay, hv⟩ := h
  have hmap : (List.range hi).map v' = ((List.range hi).map σ).map v := by
    rw [List.map_map]
    exact List.map_congr_left fun k _ => hv k
  have hinto : ∀ k, σ k < hi ↔ k < hi := by
    intro k
    constructor
    · intro hk
      by_contra hout
      rw [hstay k fun hin => hout hin.2] at hk
      exact hout hk
    · intro hk
      by_contra hout
      have hfix : σ k = k := σ.injective (hstay (σ k) fun hin => hout hin.2)
      exact hout (hfix.symm ▸ hk)
  rw [hmap]
  apply List.Perm.map
  rw [List.perm_ext_iff_of_nodup (List.nodup_range.map σ.injective) List.nodup_range]
  intro k
  rw [List.mem_map, List.mem_range]
  constructor
  · rintro ⟨j, hj, rfl⟩
    exact (hinto j).mpr (List.mem_range.mp hj)
  · intro hk
    refine ⟨σ.symm k, List.mem_range.mpr ((hinto _).mp ?_), σ.apply_symm_apply k⟩
    rwa [Equiv.apply_symm_apply]

end Rearranged

/-! ## Order -/

def Ascending (le : α → α → Prop) (lo hi : Nat) (v : Nat → α) : Prop := ∀ i j, lo ≤ i → i < j → j < hi → le (v i) (v j)

theorem ascending_short (h : hi ≤ lo + 1) : Ascending le lo hi v := by
  intro i j hlo hij hhi
  omega

theorem Ascending.congr (h : Ascending le lo hi v) (hv : ∀ k, lo ≤ k → k < hi → v' k = v k) : Ascending le lo hi v' := by
  intro i j hlo hij hhi
  rw [hv i hlo (by omega), hv j (by omega) hhi]
  exact h i j hlo hij hhi

theorem Ascending.join (hleft : Ascending le lo i v) (hright : Ascending le (i + 1) hi v)
    (hbelow : ∀ k, lo ≤ k → k < i → le (v k) (v i)) (habove : ∀ k, i < k → k < hi → le (v i) (v k))
    (htrans : ∀ {a b c : α}, le a b → le b c → le a c) : Ascending le lo hi v := by
  intro a b hlo hab hhi
  rcases Nat.lt_trichotomy a i with ha | rfl | ha
  · rcases Nat.lt_trichotomy b i with hb | rfl | hb
    · exact hleft a b hlo hab hb
    · exact hbelow a hlo ha
    · exact htrans (hbelow a hlo ha) (habove b hb hhi)
  · exact habove b hab hhi
  · exact hright a b ha hab hhi

end Zelr
