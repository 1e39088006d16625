import Mathlib.Data.List.Rotate

/-!
# Rings

A buffer of fixed length read as a queue: it starts at `head`, holds `count` elements, and wraps at
the end of the buffer.
-/

namespace Zelr.Ring

variable {count n head : Nat}

variable {α : Type}

def contents (buf : List α) (head count : Nat) : List α := (buf.rotate head).take count

theorem contents_length (buf : List α) (head : Nat) (h : count ≤ buf.length) :
    (contents buf head count).length = count := by
  simp [contents, h]

theorem getElem?_contents (buf : List α) (head : Nat) {i : Nat} (hcount : count ≤ buf.length)
    (hi : i < count) : (contents buf head count)[i]? = buf[(head + i) % buf.length]? := by
  rw [contents, List.getElem?_take_of_lt hi, List.getElem?_rotate (by omega), Nat.add_comm]

theorem mod_of_lt_two_mul {a : Nat} (h : a < 2 * n) : a % n = if a < n then a else a - n := by
  split
  · exact Nat.mod_eq_of_lt ‹_›
  · rw [Nat.mod_eq_sub_mod (by omega), Nat.mod_eq_of_lt (by omega)]

theorem contents_push {buf buf' xs : List α} (hlen : buf'.length = buf.length)
    (hroom : count + xs.length ≤ buf.length)
    (hkept : ∀ i < count, buf'[(head + i) % buf.length]? = buf[(head + i) % buf.length]?)
    (hnew : ∀ i < xs.length, buf'[(head + count + i) % buf.length]? = xs[i]?) :
    contents buf' head (count + xs.length) = contents buf head count ++ xs := by
  apply List.ext_getElem?
  intro i
  have hfull : (contents buf' head (count + xs.length)).length = _ := contents_length buf' head (by omega)
  have hold : (contents buf head count).length = _ := contents_length buf head (by omega)
  by_cases hi : i < count + xs.length
  · rw [getElem?_contents _ _ (by omega) hi, hlen]
    by_cases hlt : i < count
    · rw [List.getElem?_append_left (by omega), getElem?_contents _ _ (by omega) hlt]
      exact hkept i hlt
    · rw [List.getElem?_append_right (by omega), hold, ← hnew (i - count) (by omega)]
      congr 2
      omega
  · rw [List.getElem?_eq_none (by omega), List.getElem?_eq_none (by simp; omega)]

theorem contents_pop (buf : List α) (hcount : count ≤ buf.length) (hn : n ≤ count) :
    contents buf ((head + n) % buf.length) (count - n) = (contents buf head count).drop n := by
  rw [contents, List.rotate_mod, ← List.rotate_rotate, contents, List.drop_take]
  have hlen : n ≤ (buf.rotate head).length := by
    rw [List.length_rotate]
    omega
  rw [List.rotate_eq_drop_append_take hlen, List.take_append_of_le_length]
  rw [List.length_drop, List.length_rotate]
  omega

theorem contents_take (buf : List α) (hhead : head ≤ buf.length) (hn : n ≤ count) :
    (contents buf head count).take n =
      (buf.drop head).take n ++ (buf.take head).take (n - (buf.length - head)) := by
  rw [contents, List.take_take, Nat.min_eq_left hn, List.rotate_eq_drop_append_take hhead, List.take_append,
    List.length_drop]

end Zelr.Ring
