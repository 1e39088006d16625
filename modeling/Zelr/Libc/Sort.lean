import Zelr.Base.Rearranged
import Zelr.Base.Words

/-!
# Sorting in the C library

`qsort` over byte-addressed memory. A pointer into the array is the element it points at; an access past the ends of the
array is none, and so is a loop that does not come to its end.
-/

namespace Zelr.Libc

/-- An array, and the caller's comparison of two elements. -/
structure Items (size : Nat) where
  base : Nat
  count : Nat
  cmp : (Fin size → UInt8) → (Fin size → UInt8) → Int

variable {size : Nat} (A : Items size)

def Items.item (m : Mem) (k : Nat) : Fin size → UInt8 := fun r => m (A.base + k * size + r)

def Items.compare (m : Mem) (a b : Nat) : Option Int :=
  if a < A.count ∧ b < A.count then some (A.cmp (A.item m a) (A.item m b)) else none

def swapBytes (m : Mem) (a b : Nat) : Nat → Mem
  | 0 => m
  | i + 1 =>
    let m := swapBytes m a b i
    Function.update (Function.update m (a + i) (m (b + i))) (b + i) (m (a + i))

def Items.swap (m : Mem) (a b : Nat) : Option Mem :=
  if a < A.count ∧ b < A.count then some (swapBytes m (A.base + a * size) (A.base + b * size) size) else none

/-! ## Parting -/

/-- `do { i += size; } while (cmp(i, pivot) < 0)` -/
def scanUp (m : Mem) (pivot : Nat) : Nat → Nat → Option Nat
  | 0, _ => none
  | f + 1, i => do
    let c ← A.compare m (i + 1) pivot
    if c < 0 then scanUp m pivot f (i + 1) else some (i + 1)

/-- `do { j -= size; } while (j > lo && cmp(j, pivot) > 0)` -/
def scanDown (m : Mem) (lo pivot : Nat) : Nat → Nat → Option Nat
  | f + 1, j + 1 =>
    if j > lo then do
      let c ← A.compare m j pivot
      if c > 0 then scanDown m lo pivot f j else some j
    else some j
  | _, _ => none

def partLoop (lo pivot : Nat) : Nat → Mem → Nat → Nat → Option (Mem × Nat)
  | 0, _, _, _ => none
  | f + 1, m, i, j => do
    let i ← scanUp A m pivot A.count i
    let j ← scanDown A m lo pivot A.count j
    if i ≥ j then some (m, i)
    else partLoop lo pivot f (← A.swap m i j) i j

/-- `if (cmp(a, b) < 0) swap_bytes(a, b, size);` -/
def Items.order (m : Mem) (a b : Nat) : Option Mem := do
  let c ← A.compare m a b
  if c < 0 then A.swap m a b else some m

def settleLast (m : Mem) (lo mid hi : Nat) : Option Mem := do
  let c ← A.compare m hi mid
  if c < 0 then do
    let m ← A.swap m hi mid
    A.order m mid lo
  else some m

def medianOfThree (m : Mem) (lo mid hi : Nat) : Option Mem := do
  let m ← A.order m mid lo
  let m ← settleLast A m lo mid hi
  A.swap m mid (hi - 1)

/-! ## Sorting -/

def sink (base : Nat) : Nat → Mem → Option Mem
  | 0, m => some m
  | k + 1, m => do
    let c ← A.compare m (base + k) (base + (k + 1))
    if c ≤ 0 then some m else sink base k (← A.swap m (base + k) (base + (k + 1)))

def insertionSort (m : Mem) (base n : Nat) : Option Mem :=
  (List.range (n - 1)).foldlM (fun m k => sink A base (k + 1) m) m

def sortRange : Nat → Mem → Nat → Nat → Option Mem
  | 0, _, _, _ => none
  | f + 1, m, base, n =>
    if n > 12 then do
      let hi := base + (n - 1)
      let pivot := hi - 1
      let m ← medianOfThree A m base (base + n / 2) hi
      let r ← partLoop A base pivot n m base pivot
      let m ← A.swap r.1 r.2 pivot
      let left := r.2 - base
      let right := n - left - 1
      if left < right then do
        let m ← sortRange f m base left
        sortRange f m (r.2 + 1) right
      else do
        let m ← sortRange f m (r.2 + 1) right
        sortRange f m base left
    else insertionSort A m base n

def qsort (m : Mem) : Option Mem :=
  if A.count < 2 ∨ size = 0 then some m else sortRange A (A.count + 1) m 0 A.count

end Zelr.Libc
