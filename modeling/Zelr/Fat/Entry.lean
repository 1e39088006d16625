import Zelr.Fat.Utf
import Zelr.Fat.Names

/-!
# Directory entries

An entry is thirty-two bytes, and means one of two things by its attribute: a file or directory under
its short name, or thirteen characters of the long name of the entry behind it.
-/

namespace Zelr.Fat

def ENT_FREE : UInt8 := 0x00
def ENT_DELETED : UInt8 := 0xE5
def ATTR_VOLUME_ID : UInt8 := 0x08
def ATTR_DIRECTORY : UInt8 := 0x10
def ATTR_ARCHIVE : UInt8 := 0x20
def ATTR_LFN : UInt8 := 0x0F
def ATTR_LFN_MASK : UInt8 := 0x3F
def LFN_CHARS : Nat := 13
def LFN_LAST : UInt8 := 0x40

/-- The name, the attribute, and the twenty bytes behind it. -/
structure Dirent where
  name : Bytes
  attr : UInt8
  tail : Bytes
  deriving DecidableEq

def Dirent.zero : Dirent := ⟨List.replicate 11 0, 0, List.replicate 20 0⟩

def Dirent.first (e : Dirent) : UInt8 := byteAt e.name 0

def Dirent.usable (e : Dirent) : Bool := e.first = ENT_FREE || e.first = ENT_DELETED

def entryIsReal (e : Dirent) : Bool :=
  e.first ≠ ENT_FREE && e.first ≠ ENT_DELETED && e.attr &&& ATTR_LFN ≠ ATTR_LFN && e.attr &&& ATTR_VOLUME_ID = 0

def shortChecksum (name : Bytes) : UInt8 := name.foldl (fun sum c => ((sum &&& 1) <<< 7) + (sum >>> 1) + c) 0

/-! ## An entry read as part of a long name -/

/-- `lfn_t` is the same bytes. -/
def Dirent.isLfn (e : Dirent) : Bool := e.attr &&& ATTR_LFN_MASK = ATTR_LFN

def Dirent.checksum (e : Dirent) : UInt8 := byteAt e.tail 1

def Dirent.seq (e : Dirent) : Nat := (e.first &&& 0x1F).toNat

def Dirent.isLast (e : Dirent) : Bool := e.first &&& LFN_LAST ≠ 0

def leUnits : Bytes → List Nat
  | a :: b :: s => (a.toNat + 256 * b.toNat) :: leUnits s
  | _ => []

def leBytes : List Nat → Bytes
  | [] => []
  | u :: us => UInt8.ofNat u :: UInt8.ofNat (u / 256) :: leBytes us

def lfnGet (e : Dirent) : List Nat :=
  leUnits ((e.name.drop 1).take 10 ++ (e.tail.drop 2).take 12 ++ (e.tail.drop 16).take 4)

def lfnPut (seq sum : UInt8) (chunk : List Nat) : Dirent where
  name := seq :: leBytes (chunk.take 5)
  attr := ATTR_LFN
  tail := [0, sum] ++ leBytes ((chunk.drop 5).take 6) ++ [0, 0] ++ leBytes ((chunk.drop 11).take 2)

/-! ## Reading a long name -/

def filler (u : Nat) : Bool := u = 0x0000 || u = 0xFFFF

def storeUnits (off : Nat) (chars : List Nat) (units : Nat → Nat) : Option (Nat → Nat) :=
  if (List.range chars.length).any fun k => !filler (chars.getD k 0) && off + k ≥ FAT_NAME_MAX - 1 then none
  else some fun i =>
    if off ≤ i ∧ i < off + chars.length ∧ !filler (chars.getD (i - off) 0) then chars.getD (i - off) 0 else units i

def lfnScan (want : UInt8) : List Dirent → (Nat → Nat) → Option (Nat → Nat)
  | [], _ => none
  | raw :: rest, units =>
    if !raw.isLfn || raw.checksum ≠ want || raw.seq = 0 then none
    else
      match storeUnits ((raw.seq - 1) * LFN_CHARS) (lfnGet raw) units with
      | none => none
      | some units => if raw.isLast then some units else lfnScan want rest units

def nameFrom (units : Nat → Nat) : Option Bytes :=
  match nameOfUnits (((List.range FAT_NAME_MAX).map units).takeWhile (· ≠ 0)) 0 with
  | some [] => none
  | r => r

def longNameOf (slots : List Dirent) (index : Nat) (e : Dirent) : Option Bytes :=
  if index = 0 then none
  else (lfnScan (shortChecksum e.name) (slots.take index).reverse fun _ => 0).bind nameFrom

/-! ## Writing a long name -/

/-- The thirteen units of the part numbered `j` from the front. -/
def chunkOf (us : List Nat) (j : Nat) : List Nat :=
  (List.range LFN_CHARS).map fun k =>
    let pos := j * LFN_CHARS + k
    if pos < us.length then us.getD pos 0 else if pos = us.length then 0x0000 else 0xFFFF

def lfnSlots (us : List Nat) : Nat := (us.length + LFN_CHARS - 1) / LFN_CHARS

/-- The slot written `i`th, the last part first. -/
def lfnSlot (us : List Nat) (sum : UInt8) (i : Nat) : Dirent :=
  let n := lfnSlots us
  lfnPut (UInt8.ofNat (n - i) ||| if i = 0 then LFN_LAST else 0) sum (chunkOf us (n - i - 1))

/-! ## Units and bytes -/

theorem leUnits_leBytes {us : List Nat} (h : ∀ u ∈ us, u < 65536) : leUnits (leBytes us) = us := by
  induction us with
  | nil => rfl
  | cons u us ih =>
    have hu := h u List.mem_cons_self
    rw [leBytes, leUnits, ih fun x hx => h x (List.mem_cons_of_mem _ hx), UInt8.toNat_ofNat', UInt8.toNat_ofNat']
    congr 1
    omega

theorem leBytes_length (us : List Nat) : (leBytes us).length = 2 * us.length := by
  induction us with
  | nil => rfl
  | cons u us ih =>
    rw [leBytes, List.length_cons, List.length_cons, List.length_cons, ih]
    omega

theorem leBytes_append (us vs : List Nat) : leBytes (us ++ vs) = leBytes us ++ leBytes vs := by
  induction us with
  | nil => rfl
  | cons u us ih => rw [List.cons_append, leBytes, leBytes, ih, List.cons_append, List.cons_append]

theorem lfnGet_lfnPut {chunk : List Nat} (hlen : chunk.length = LFN_CHARS) (h : ∀ u ∈ chunk, u < 65536)
    (seq sum : UInt8) : lfnGet (lfnPut seq sum chunk) = chunk := by
  rw [LFN_CHARS] at hlen
  have h5 : (leBytes (chunk.take 5)).length = 10 := by
    rw [leBytes_length, List.length_take]
    omega
  have h6 : (leBytes ((chunk.drop 5).take 6)).length = 12 := by
    rw [leBytes_length, List.length_take, List.length_drop]
    omega
  have h2 : (leBytes ((chunk.drop 11).take 2)).length = 4 := by
    rw [leBytes_length, List.length_take, List.length_drop]
    omega
  have hone : ((lfnPut seq sum chunk).name.drop 1).take 10 = leBytes (chunk.take 5) := by
    rw [lfnPut, List.drop_one, List.tail_cons, List.take_of_length_le h5.le]
  have htwo : ((lfnPut seq sum chunk).tail.drop 2).take 12 = leBytes ((chunk.drop 5).take 6) := by
    have hdrop : (lfnPut seq sum chunk).tail.drop 2 =
        leBytes ((chunk.drop 5).take 6) ++ ([0, 0] ++ leBytes ((chunk.drop 11).take 2)) := by
      rw [lfnPut, List.append_assoc, List.append_assoc]
      rfl
    rw [hdrop, List.take_append_of_le_length h6.ge, List.take_of_length_le h6.le]
  have hthree : ((lfnPut seq sum chunk).tail.drop 16).take 4 = leBytes ((chunk.drop 11).take 2) := by
    have hlen : ([0, sum] ++ leBytes ((chunk.drop 5).take 6) ++ [0, 0]).length = 16 := by
      rw [List.length_append, List.length_append, h6]
      rfl
    rw [lfnPut, List.drop_append_of_le_length hlen.ge, List.drop_of_length_le hlen.le, List.nil_append,
      List.take_of_length_le h2.le]
  have hsplit : chunk = chunk.take 5 ++ (chunk.drop 5).take 6 ++ (chunk.drop 11).take 2 := by
    have hrest : (chunk.drop 11).take 2 = chunk.drop 11 := by
      rw [List.take_of_length_le]
      rw [List.length_drop]
      omega
    have hmid : (chunk.drop 5).take 6 ++ chunk.drop 11 = chunk.drop 5 := by
      rw [show chunk.drop 11 = (chunk.drop 5).drop 6 by rw [List.drop_drop], List.take_append_drop]
    rw [hrest, List.append_assoc, hmid, List.take_append_drop]
  rw [lfnGet, hone, htwo, hthree, ← leBytes_append, ← leBytes_append, ← hsplit, leUnits_leBytes h]

theorem chunkOf_length (us : List Nat) (j : Nat) : (chunkOf us j).length = LFN_CHARS := by
  rw [chunkOf, List.length_map, List.length_range]

theorem chunkOf_getD (us : List Nat) (j : Nat) {k : Nat} (hk : k < LFN_CHARS) :
    (chunkOf us j).getD k 0 = if j * LFN_CHARS + k < us.length then us.getD (j * LFN_CHARS + k) 0
      else if j * LFN_CHARS + k = us.length then 0x0000 else 0xFFFF := by
  rw [chunkOf, List.getD_eq_getElem?_getD, List.getElem?_map, List.getElem?_range hk]
  rfl

theorem chunkOf_lt {us : List Nat} (h : ∀ u ∈ us, u < 65536) (j : Nat) : ∀ u ∈ chunkOf us j, u < 65536 := by
  intro u hu
  obtain ⟨k, hk, rfl⟩ := List.mem_map.mp hu
  dsimp only
  split
  · rename_i hlt
    rw [List.getD_eq_getElem?_getD, List.getElem?_eq_getElem hlt, Option.getD_some]
    exact h _ (List.getElem_mem hlt)
  · split
    · decide
    · decide

end Zelr.Fat
