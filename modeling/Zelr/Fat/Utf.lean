import Zelr.Base.Bytes

/-!
# Names in UTF-8 above, UTF-16 on the disk

The two conversions of `fat.c`, and that the second undoes the first.
-/

namespace Zelr.Fat

variable {n k cp len : Nat} {s rest bs : Bytes} {us : List Nat}

def FAT_NAME_MAX : Nat := 64

/-! ## UTF-8 to code units -/

def utf8Lead (c : Nat) : Option (Nat × Nat) :=
  if c < 0x80 then some (c, 0)
  else if c &&& 0xE0 = 0xC0 then some (c &&& 0x1F, 1)
  else if c &&& 0xF0 = 0xE0 then some (c &&& 0x0F, 2)
  else if c &&& 0xF8 = 0xF0 then some (c &&& 0x07, 3)
  else none

def utf8Tail : Nat → Nat → Bytes → Option (Nat × Bytes)
  | 0, cp, s => some (cp, s)
  | _ + 1, _, [] => none
  | k + 1, cp, t :: s => if t.toNat &&& 0xC0 = 0x80 then utf8Tail k (cp * 64 + (t.toNat &&& 0x3F)) s else none

def least : Nat → Nat
  | 0 => 0
  | 1 => 0x80
  | 2 => 0x800
  | _ => 0x10000

def utf8Next : Bytes → Option (Nat × Bytes)
  | [] => none
  | c :: s => do
    let (bits, more) ← utf8Lead c.toNat
    let (cp, rest) ← utf8Tail more bits s
    if cp < least more ∨ cp > 0x10FFFF ∨ (0xD800 ≤ cp ∧ cp ≤ 0xDFFF) then none else some (cp, rest)

def unitsOf (cp : Nat) : List Nat :=
  if cp ≥ 0x10000 then [0xD800 + (cp - 0x10000) / 1024, 0xDC00 + (cp - 0x10000) % 1024] else [cp]

def unitsFrom : Nat → Bytes → Nat → Nat → Option (List Nat)
  | _, [], _, _ => some []
  | 0, _ :: _, _, _ => none
  | k + 1, c :: s, n, cap => do
    let (cp, rest) ← utf8Next (c :: s)
    if n + (unitsOf cp).length > cap then none
    else
      let us ← unitsFrom k rest (n + (unitsOf cp).length) cap
      some (unitsOf cp ++ us)

def utf8ToUnits (s : Bytes) (cap : Nat) : Option (List Nat) := unitsFrom s.length s 0 cap

/-! ## Code units to UTF-8 -/

def utf8Put (cp : Nat) : Bytes :=
  if cp < 0x80 then [UInt8.ofNat cp]
  else if cp < 0x800 then [UInt8.ofNat (0xC0 + cp / 64), UInt8.ofNat (0x80 + cp % 64)]
  else if cp < 0x10000 then
    [UInt8.ofNat (0xE0 + cp / 4096), UInt8.ofNat (0x80 + cp / 64 % 64), UInt8.ofNat (0x80 + cp % 64)]
  else
    [UInt8.ofNat (0xF0 + cp / 262144), UInt8.ofNat (0x80 + cp / 4096 % 64), UInt8.ofNat (0x80 + cp / 64 % 64),
      UInt8.ofNat (0x80 + cp % 64)]

def putNext (cp len : Nat) (rest : Nat → Option Bytes) : Option Bytes :=
  let enc := utf8Put cp
  if len + enc.length ≥ FAT_NAME_MAX then none else (rest (len + enc.length)).map (enc ++ ·)

/-- The name that some units are, `len` bytes of it being there already. -/
def nameOfUnits : List Nat → Nat → Option Bytes
  | [], _ => some []
  | [u], len => if 0xD800 ≤ u ∧ u ≤ 0xDFFF then none else putNext u len fun _ => some []
  | u :: v :: us, len =>
    if (0xD800 ≤ u ∧ u ≤ 0xDBFF) ∧ (0xDC00 ≤ v ∧ v ≤ 0xDFFF) then
      putNext (0x10000 + (u - 0xD800) * 1024 + (v - 0xDC00)) len (nameOfUnits us)
    else if 0xD800 ≤ u ∧ u ≤ 0xDFFF then none
    else putNext u len (nameOfUnits (v :: us))

/-! ## There and back -/

def Scalar (cp : Nat) : Prop := cp ≤ 0x10FFFF ∧ ¬ (0xD800 ≤ cp ∧ cp ≤ 0xDFFF)

theorem lead_bits : ∀ c < 256,
    (c &&& 0xE0 = 0xC0 ↔ 0xC0 ≤ c ∧ c < 0xE0) ∧ (c &&& 0xF0 = 0xE0 ↔ 0xE0 ≤ c ∧ c < 0xF0) ∧
      (c &&& 0xF8 = 0xF0 ↔ 0xF0 ≤ c ∧ c < 0xF8) ∧ (c &&& 0xC0 = 0x80 ↔ 0x80 ≤ c ∧ c < 0xC0) ∧
      c &&& 0x1F = c % 32 ∧ c &&& 0x0F = c % 16 ∧ c &&& 0x07 = c % 8 ∧ c &&& 0x3F = c % 64 := by
  decide +kernel

theorem ofNat_eq {c : UInt8} (h : n = c.toNat) : UInt8.ofNat n = c := by
  rw [h, UInt8.ofNat_toNat]

theorem utf8Tail_succ {cp' : Nat} (h : utf8Tail (k + 1) cp s = some (cp', rest)) :
    ∃ t s', s = t :: s' ∧ 0x80 ≤ t.toNat ∧ t.toNat < 0xC0 ∧ utf8Tail k (cp * 64 + t.toNat % 64) s' = some (cp', rest) := by
  cases s with
  | nil => cases h
  | cons t s =>
    obtain ⟨-, -, -, htail, -, -, -, hlow⟩ := lead_bits t.toNat t.toNat_lt
    unfold utf8Tail at h
    split at h
    · rename_i hbits
      rw [hlow] at h
      obtain ⟨hge, hlt⟩ := htail.mp hbits
      exact ⟨t, s, rfl, hge, hlt, h⟩
    · cases h

theorem utf8Next_put (h : utf8Next s = some (cp, rest)) :
    Scalar cp ∧ s = utf8Put cp ++ rest := by
  cases s with
  | nil => cases h
  | cons c s =>
    obtain ⟨h1, h2, h3, -, hb1, hb2, hb3, -⟩ := lead_bits c.toNat c.toNat_lt
    simp only [utf8Next, Option.bind_eq_bind, Option.bind_eq_some_iff, Prod.exists] at h
    obtain ⟨bits, more, hlead, cp', rest', htail, hlast⟩ := h
    obtain ⟨hvalid, heq⟩ := Option.ite_none_left_eq_some.mp hlast
    cases heq
    have hscalar : Scalar cp := ⟨by omega, by omega⟩
    refine ⟨hscalar, ?_⟩
    unfold utf8Lead at hlead
    split at hlead
    · cases hlead
      cases htail
      rw [utf8Put, if_pos ‹_›, ofNat_eq rfl]
      rfl
    · split at hlead
      · rename_i hbits
        cases hlead
        obtain ⟨t, s', rfl, htl, hth, heq⟩ := utf8Tail_succ htail
        cases heq
        rw [show least 1 = 0x80 from rfl] at hvalid
        have hrange := h1.mp hbits
        rw [hb1] at *
        rw [utf8Put, if_neg (by omega), if_pos (by omega), ofNat_eq (c := c) (by omega), ofNat_eq (c := t) (by omega)]
        rfl
      · split at hlead
        · rename_i hbits
          cases hlead
          obtain ⟨t, s', rfl, htl, hth, htail⟩ := utf8Tail_succ htail
          obtain ⟨t', s'', rfl, htl', hth', heq⟩ := utf8Tail_succ htail
          cases heq
          rw [show least 2 = 0x800 from rfl] at hvalid
          have hrange := h2.mp hbits
          rw [hb2] at *
          rw [utf8Put, if_neg (by omega), if_neg (by omega), if_pos (by omega), ofNat_eq (c := c) (by omega),
            ofNat_eq (c := t) (by omega), ofNat_eq (c := t') (by omega)]
          rfl
        · split at hlead
          · rename_i hbits
            cases hlead
            obtain ⟨t, s', rfl, htl, hth, htail⟩ := utf8Tail_succ htail
            obtain ⟨t', s'', rfl, htl', hth', htail⟩ := utf8Tail_succ htail
            obtain ⟨t'', s''', rfl, htl'', hth'', heq⟩ := utf8Tail_succ htail
            cases heq
            rw [show least 3 = 0x10000 from rfl] at hvalid
            have hrange := h3.mp hbits
            rw [hb3] at *
            rw [utf8Put, if_neg (by omega), if_neg (by omega), if_neg (by omega), ofNat_eq (c := c) (by omega),
              ofNat_eq (c := t) (by omega), ofNat_eq (c := t') (by omega), ofNat_eq (c := t'') (by omega)]
            rfl
          · cases hlead

theorem unitsFrom_some {cap : Nat} (h : unitsFrom k s n cap = some us) :
    ∃ cps : List Nat, (∀ cp ∈ cps, Scalar cp) ∧ s = cps.flatMap utf8Put ∧ us = cps.flatMap unitsOf ∧
      (us = [] ∨ n + us.length ≤ cap) := by
  induction k generalizing s n us with
  | zero =>
    cases s with
    | nil =>
      cases h
      exact ⟨[], nofun, rfl, rfl, .inl rfl⟩
    | cons c s => cases h
  | succ k ih =>
    cases s with
    | nil =>
      cases h
      exact ⟨[], nofun, rfl, rfl, .inl rfl⟩
    | cons c s =>
      simp only [unitsFrom, Option.bind_eq_bind, Option.bind_eq_some_iff, Prod.exists] at h
      obtain ⟨cp, rest, hnext, hrest⟩ := h
      obtain ⟨hroom, hrest⟩ := Option.ite_none_left_eq_some.mp hrest
      obtain ⟨us', hus', heq⟩ := Option.bind_eq_some_iff.mp hrest
      cases heq
      obtain ⟨hscalar, hput⟩ := utf8Next_put hnext
      obtain ⟨cps, hcps, rfl, rfl, hlen⟩ := ih hus'
      refine ⟨cp :: cps, ?_, hput, rfl, .inr ?_⟩
      · rintro x (_ | ⟨_, hx⟩)
        · exact hscalar
        · exact hcps x hx
      · rw [List.length_append]
        rcases hlen with hnil | hlen
        · rw [hnil, List.length_nil]
          omega
        · omega

theorem unitsOf_cases (cp : Nat) (h : Scalar cp) :
    (cp < 0x10000 ∧ unitsOf cp = [cp]) ∨ ∃ u v, unitsOf cp = [u, v] ∧ (0xD800 ≤ u ∧ u ≤ 0xDBFF) ∧
      (0xDC00 ≤ v ∧ v ≤ 0xDFFF) ∧ 0x10000 + (u - 0xD800) * 1024 + (v - 0xDC00) = cp := by
  obtain ⟨hle, -⟩ := h
  by_cases hbig : cp ≥ 0x10000
  · exact .inr ⟨_, _, if_pos hbig, by omega, by omega, by omega⟩
  · exact .inl ⟨by omega, if_neg hbig⟩

theorem putNext_eq {cp len : Nat} {rest : Nat → Option Bytes} {bs : Bytes}
    (hrest : rest (len + (utf8Put cp).length) = some bs) (hroom : len + (utf8Put cp ++ bs).length < FAT_NAME_MAX) :
    putNext cp len rest = some (utf8Put cp ++ bs) := by
  rw [List.length_append] at hroom
  unfold putNext
  dsimp only
  rw [if_neg (by omega), hrest, Option.map_some]

theorem nameOfUnits_flatMap {cps : List Nat} (h : ∀ cp ∈ cps, Scalar cp)
    (hroom : len + (cps.flatMap utf8Put).length < FAT_NAME_MAX) :
    nameOfUnits (cps.flatMap unitsOf) len = some (cps.flatMap utf8Put) := by
  induction cps generalizing len with
  | nil => rfl
  | cons cp cps ih =>
    have hcp := h cp List.mem_cons_self
    have hcps : ∀ x ∈ cps, Scalar x := fun x hx => h x (List.mem_cons_of_mem _ hx)
    rw [List.flatMap_cons] at hroom ⊢
    rw [List.flatMap_cons]
    have hrest := @ih (len + (utf8Put cp).length) hcps (by rw [List.length_append] at hroom; omega)
    rcases unitsOf_cases cp hcp with ⟨hsmall, hone⟩ | ⟨u, v, htwo, hu, hv, hsum⟩
    · have hplain : ¬ (0xD800 ≤ cp ∧ cp ≤ 0xDFFF) := hcp.2
      rw [hone, List.singleton_append]
      cases hus : cps.flatMap unitsOf with
      | nil =>
        rw [hus] at hrest
        rw [nameOfUnits, if_neg hplain]
        exact @putNext_eq _ _ (fun _ => some []) _ hrest hroom
      | cons w ws =>
        rw [hus] at hrest
        rw [nameOfUnits, if_neg (by omega), if_neg hplain]
        exact putNext_eq hrest hroom
    · rw [htwo, List.cons_append, List.singleton_append, nameOfUnits, if_pos ⟨hu, hv⟩, hsum]
      exact putNext_eq hrest hroom

theorem utf8Put_length_pos (cp : Nat) : 0 < (utf8Put cp).length := by
  unfold utf8Put
  split
  · exact Nat.succ_pos _
  · split
    · exact Nat.succ_pos _
    · split <;> exact Nat.succ_pos _

theorem utf8Put_length_two {cp : Nat} (h : 0x10000 ≤ cp) : 2 ≤ (utf8Put cp).length := by
  unfold utf8Put
  rw [if_neg (by omega), if_neg (by omega), if_neg (by omega)]
  exact Nat.le_add_left 2 2

theorem putNext_some {rest : Nat → Option Bytes} (h : putNext cp len rest = some bs) :
    ∃ tail, rest (len + (utf8Put cp).length) = some tail ∧ bs = utf8Put cp ++ tail := by
  unfold putNext at h
  dsimp only at h
  obtain ⟨-, h⟩ := Option.ite_none_left_eq_some.mp h
  obtain ⟨tail, htail, rfl⟩ := Option.map_eq_some_iff.mp h
  exact ⟨tail, htail, rfl⟩

theorem length_le_nameOfUnits (n : Nat) (hn : us.length ≤ n)
    (h : nameOfUnits us len = some bs) : us.length ≤ bs.length := by
  induction n generalizing us len bs with
  | zero => omega
  | succ n ih =>
    match us with
    | [] => exact Nat.zero_le _
    | [u] =>
      rw [nameOfUnits] at h
      obtain ⟨-, h⟩ := Option.ite_none_left_eq_some.mp h
      obtain ⟨tail, -, rfl⟩ := putNext_some h
      have hpos := utf8Put_length_pos u
      rw [List.length_append, List.length_singleton]
      omega
    | u :: v :: us =>
      rw [List.length_cons, List.length_cons] at hn
      rw [nameOfUnits] at h
      split at h
      · generalize hcp : 0x10000 + (u - 0xD800) * 1024 + (v - 0xDC00) = cp at h
        obtain ⟨tail, htail, rfl⟩ := putNext_some h
        have htwo := @utf8Put_length_two cp (by omega)
        have hrest := ih (by omega) htail
        rw [List.length_append, List.length_cons, List.length_cons]
        omega
      · obtain ⟨-, h⟩ := Option.ite_none_left_eq_some.mp h
        obtain ⟨tail, htail, rfl⟩ := putNext_some h
        have hpos := utf8Put_length_pos u
        have hrest := ih (by rw [List.length_cons]; omega) htail
        rw [List.length_append, List.length_cons]
        omega

end Zelr.Fat
