import Mathlib.Data.List.Nodup

/-!
# Maps in the order of insertion

A map is its entries in the order their keys were added.
-/

namespace Zelr.Ordered

variable {κ ν : Type} [DecidableEq κ] {m : List (κ × ν)} {k : κ}

def keys (m : List (κ × ν)) : List κ := m.map Prod.fst

def get (m : List (κ × ν)) (k : κ) : Option ν := (m.find? fun e => e.1 = k).map Prod.snd

/-- The value changed where there is one, and made where there is none. -/
def put (m : List (κ × ν)) (k : κ) (made : ν) (change : ν → ν) : List (κ × ν) :=
  if k ∈ keys m then m.map fun e => if e.1 = k then (k, change e.2) else e else m ++ [(k, made)]

def erase (m : List (κ × ν)) (k : κ) : List (κ × ν) := m.filter fun e => e.1 ≠ k

theorem keys_put (m : List (κ × ν)) (k : κ) (made : ν) (change : ν → ν) :
    keys (put m k made change) = if k ∈ keys m then keys m else keys m ++ [k] := by
  unfold put
  split
  · rw [keys, List.map_map, keys]
    apply List.map_congr_left
    intro e _
    rw [Function.comp_apply]
    split
    · rename_i hk
      exact hk.symm
    · rfl
  · exact List.map_append

theorem keys_erase (m : List (κ × ν)) (k : κ) : keys (erase m k) = (keys m).filter (· ≠ k) := by
  rw [keys, keys, erase, List.filter_map]
  rfl

theorem nodup_put (h : (keys m).Nodup) (k : κ) (made : ν) (change : ν → ν) : (keys (put m k made change)).Nodup := by
  rw [keys_put]
  split
  · exact h
  · rename_i hk
    rw [← List.concat_eq_append]
    exact h.concat hk

theorem nodup_erase (h : (keys m).Nodup) (k : κ) : (keys (erase m k)).Nodup := by
  rw [keys_erase]
  exact h.filter _

theorem get_eq_none : get m k = none ↔ k ∉ keys m := by
  rw [get, Option.map_eq_none_iff, List.find?_eq_none, keys, List.mem_map]
  constructor
  · rintro h ⟨e, he, rfl⟩
    exact h e he (decide_eq_true rfl)
  · intro h e he hk
    exact h ⟨e, he, of_decide_eq_true hk⟩

theorem get_of_mem (h : (keys m).Nodup) {v : ν} (hmem : (k, v) ∈ m) : get m k = some v := by
  induction m with
  | nil => cases hmem
  | cons e m ih =>
    obtain ⟨hno, hrest⟩ := List.nodup_cons.mp h
    unfold get
    rcases List.mem_cons.mp hmem with rfl | hmem
    · simp
    · have hne : e.1 ≠ k := by
        rintro rfl
        exact hno (List.mem_map.mpr ⟨_, hmem, rfl⟩)
      simp only [List.find?_cons, decide_eq_false hne]
      exact ih hrest hmem

end Zelr.Ordered
