import Mathlib.Data.UInt

/-!
# Loops in steps of sixteen

`for (u32 i = 0; i < len; i += 16)`. The counter has thirty-two bits, so a bound in the last step before it
wraps is never reached.
-/

namespace Zelr.Stride

variable {σ : Type} (body : σ → UInt32 → σ) (len : UInt32)

def loop : Nat → UInt32 → σ → Option σ
  | 0, _, _ => none
  | n + 1, i, s => if i < len then loop n (i + 16) (body s i) else some s

def turns (len : Nat) : Nat := (len + 15) / 16

def offsets (len : Nat) : List UInt32 := (List.range (turns len)).map fun k => UInt32.ofNat (16 * k)

variable {body} {len}

theorem loop_from {n k : Nat} {s : σ} (hlen : len.toNat ≤ 2 ^ 32 - 16) (hk : k ≤ turns len.toNat)
    (hn : turns len.toNat - k < n) :
    loop body len n (UInt32.ofNat (16 * k)) s =
      some (((List.range' k (turns len.toNat - k)).map fun k => UInt32.ofNat (16 * k)).foldl body s) := by
  induction n generalizing k s with
  | zero => omega
  | succ n ih =>
    unfold turns at hk hn ih ⊢
    have hi : (UInt32.ofNat (16 * k)).toNat = 16 * k := by
      rw [UInt32.toNat_ofNat', Nat.mod_eq_of_lt (by omega)]
    rw [loop]
    split
    next hlt =>
      have hlt' : 16 * k < len.toNat := by
        rw [← hi]
        exact hlt
      have hnext : UInt32.ofNat (16 * k) + 16 = UInt32.ofNat (16 * (k + 1)) := by
        apply UInt32.toNat_inj.mp
        rw [UInt32.toNat_add, hi, UInt32.toNat_ofNat']
        rfl
      rw [hnext, ih (by omega) (by omega)]
      obtain ⟨r, hr⟩ : ∃ r, (len.toNat + 15) / 16 - k = r + 1 := ⟨(len.toNat + 15) / 16 - k - 1, by omega⟩
      rw [hr, show (len.toNat + 15) / 16 - (k + 1) = r by omega, List.range'_succ, List.map_cons, List.foldl_cons]
    next hge =>
      have hge' : len.toNat ≤ 16 * k := by
        rw [← hi]
        exact Nat.not_lt.mp hge
      rw [show (len.toNat + 15) / 16 - k = 0 by omega]
      rfl

theorem loop_ends {n : Nat} {s : σ} (hlen : len.toNat ≤ 2 ^ 32 - 16) (hn : turns len.toNat < n) :
    loop body len n 0 s = some ((offsets len.toNat).foldl body s) := by
  have hfrom := @loop_from σ body len n 0 s hlen (Nat.zero_le _) hn
  rw [Nat.sub_zero, ← List.range_eq_range'] at hfrom
  exact hfrom

theorem loop_never {n : Nat} {i : UInt32} {s : σ} (hlen : 2 ^ 32 - 16 < len.toNat) (hi : i.toNat % 16 = 0) :
    loop body len n i s = none := by
  induction n generalizing i s with
  | zero => rfl
  | succ n ih =>
    have hbound := i.toNat_lt
    have hlt : i < len := by
      rw [UInt32.lt_iff_toNat_lt]
      omega
    rw [loop, if_pos hlt]
    refine ih ?_
    rw [UInt32.toNat_add]
    change (i.toNat + 16) % 2 ^ 32 % 16 = 0
    omega

end Zelr.Stride
