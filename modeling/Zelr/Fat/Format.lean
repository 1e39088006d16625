import Zelr.Fat.Mount
import Zelr.Fat.Raw

/-!
# Making a volume

`fat_format_at`: which layout it picks for a size, and what it writes. Any request to write can be refused;
what is written is read back.
-/

namespace Zelr.Fat

variable {bits total spc : Nat} {l : Layout}

def BB_SECTORS : Nat := 32

def RUN_SECTORS : Nat := 64

def ZELR_VOLUME_ID : Nat := 0x5A4C5200

/-! ## The layout -/

/-- Sectors in front of the clusters when a table has `fsize`. -/
def used (reserved fats roots fsize : Nat) : Nat :=
  u32 (reserved + fats * fsize + (roots * 32 + SECTOR_SIZE - 1) / SECTOR_SIZE)

def need (ent clusters : Nat) : Nat := u32 ((clusters + 2) * ent + SECTOR_SIZE - 1) / SECTOR_SIZE

/-- The loop of `fat_layout`: how large a table is after it, when it does not give up. -/
def settle (total spc ent reserved fats roots : Nat) : Nat → Nat → Option Nat
  | 0, fsize => some fsize
  | k + 1, fsize =>
    if total ≤ used reserved fats roots fsize then none
    else
      let more := need ent ((total - used reserved fats roots fsize) / spc)
      if more = fsize then some fsize else settle total spc ent reserved fats roots k more

def fatLayout (total spc bits reserved fats roots : Nat) : Option (Nat × Nat) :=
  let ent := if bits = 32 then 4 else 2
  match settle total spc ent reserved fats roots 16 1 with
  | none => none
  | some fsize =>
    if total ≤ used reserved fats roots fsize then none
    else
      let clusters := (total - used reserved fats roots fsize) / spc
      let more := need ent clusters
      if more > fsize then
        if total ≤ used reserved fats roots more then none
        else some (more, (total - used reserved fats roots more) / spc)
      else some (fsize, clusters)

structure Layout where
  bits : Nat
  spc : Nat
  fsize : Nat
  clusters : Nat
  reserved : Nat
  roots : Nat
  deriving DecidableEq, Repr

def tryLayout (total bits reserved roots least most spc : Nat) : Option Layout :=
  match fatLayout total spc bits reserved 2 roots with
  | none => none
  | some (fsize, clusters) =>
    if clusters < least ∨ clusters > most then none else some ⟨bits, spc, fsize, clusters, reserved, roots⟩

def firstSpc (total : Nat) : Nat :=
  if total ≤ 16777216 then 8 else if total ≤ 33554432 then 16 else if total ≤ 67108864 then 32 else 64

def pick (total : Nat) : Option Layout :=
  match [4, 8, 16, 32, 64].findSome? (tryLayout total 16 (1 + BB_SECTORS) 512 4085 65524) with
  | some l => some l
  | none =>
    ([8, 16, 32, 64, 128].dropWhile (· < firstSpc total)).findSome?
      (tryLayout total 32 (8 + BB_SECTORS) 0 65525 0x0FFFFFF5)

/-! ## The boot sector -/

def le32 (n : Nat) : Bytes := le16 n ++ le16 (n / 2 ^ 16)

def zeroSector : Bytes := List.replicate SECTOR_SIZE 0

def sectorOf (stores : List (Nat × Bytes)) : Bytes := stores.foldl (fun sec s => put sec s.1 s.2) zeroSector

def stubWords : Bytes := ascii "This disk holds files. Start the machine from its installer instead.\r\n" ++ [0]

def stubCode (words : Nat) : Bytes :=
  [0xFA, 0x31, 0xC0, 0x8E, 0xD8, 0xBE] ++ le16 (0x7C00 + words) ++
    [0xAC, 0x84, 0xC0, 0x74, 0x09, 0xB4, 0x0E, 0xBB, 0x07, 0x00, 0xCD, 0x10, 0xEB, 0xF2, 0xF4, 0xEB, 0xFD]

def bootStub (start : Nat) : List (Nat × Bytes) :=
  let words := start + 25
  if words + stubWords.length > 510 then [] else [(start, stubCode words), (words, stubWords)]

def labelField (label : Option Bytes) : Bytes :=
  blanks 11 ((((label.getD []).takeWhile (· ≠ 0)).take 11).map upcase)

def Layout.codeAt (l : Layout) : Nat := if l.bits = 32 then 0x5A else 0x3E

def bootStores (l : Layout) (total : Nat) (label : Option Bytes) : List (Nat × Bytes) :=
  [(0, [0xEB, UInt8.ofNat (l.codeAt - 2), 0x90]), (3, ascii "ZELR    "), (11, le16 SECTOR_SIZE),
    (13, [UInt8.ofNat l.spc]), (14, le16 l.reserved), (16, [2]), (17, le16 l.roots), (19, le16 0), (21, [0xF8]),
    (22, le16 (if l.bits = 32 then 0 else l.fsize)), (24, le16 32), (26, le16 8), (28, le32 0), (32, le32 total)] ++
  (if l.bits = 32 then
    [(36, le32 l.fsize), (40, le16 0), (42, le16 0), (44, le32 2), (48, le16 1), (50, le16 6), (64, [0x80]),
      (66, [0x29]), (67, le32 ZELR_VOLUME_ID), (71, labelField label), (82, ascii "FAT32   ")]
  else
    [(36, [0x80]), (38, [0x29]), (39, le32 ZELR_VOLUME_ID), (43, labelField label), (54, ascii "FAT16   ")]) ++
  bootStub l.codeAt ++ [(510, [0x55, 0xAA])]

def infoSector : Bytes :=
  sectorOf [(0, le32 0x41615252), (484, le32 0x61417272), (488, le32 0xFFFFFFFF), (492, le32 0xFFFFFFFF),
    (508, le32 0xAA550000)]

def headSector (bits : Nat) : Bytes :=
  sectorOf (if bits = 32 then [(0, le32 0x0FFFFFF8), (4, le32 0x0FFFFFFF), (8, le32 0x0FFFFFFF)]
    else [(0, le16 0xFFF8), (2, le16 0xFFFF)])

/-! ## Writing -/

/-- Sectors written from an address on, which comes round behind the last there is. -/
def Device.put (dev : Device) (a : Nat) : List Bytes → Device
  | [] => dev
  | s :: ss => Device.put { dev with read := Function.update dev.read a (some s) } (u32 (a + 1)) ss

/-- Where the volume is made, and which of the requests are refused. -/
structure Site where
  partBase : Nat
  partSectors : Nat
  refuses : Nat → Bool

/-- The disk while the volume is made, and how many requests there were. -/
structure Making where
  dev : Device
  asked : Nat

def volWrite (v : Site) (lba : Nat) (data : List Bytes) (m : Making) : Option Making :=
  if v.partSectors ≠ 0 ∧ (lba ≥ v.partSectors ∨ data.length > v.partSectors - lba) then none
  else if v.refuses m.asked then none
  else some ⟨m.dev.put (u32 (v.partBase + lba)) data, m.asked + 1⟩

/-- The loop of `zero_sectors`; every turn takes one sector at least. -/
def zeroFrom (v : Site) (most : Nat) : Nat → Nat → Nat → Making → Option Making
  | 0, _, count, m => if count = 0 then some m else none
  | k + 1, lba, count, m =>
    if count = 0 then some m
    else
      let n := if count < most then count else most
      (volWrite v lba (List.replicate n zeroSector) m).bind (zeroFrom v most k (u32 (lba + n)) (count - n))

def zeroSectors (v : Site) (lba count : Nat) (m : Making) : Option Making :=
  zeroFrom v (if count < RUN_SECTORS then count else RUN_SECTORS) count lba count m

def clearReserved (v : Site) (l : Layout) (m : Making) : Option Making :=
  if l.reserved > 1 then zeroSectors v 1 (l.reserved - 1) m else some m

def writeSpares (v : Site) (l : Layout) (boot : Bytes) (m : Making) : Option Making :=
  if l.bits = 32 then do
    let m ← volWrite v 1 [infoSector] m
    let m ← volWrite v 7 [infoSector] m
    volWrite v 6 [boot] m
  else some m

def writeVolume (v : Site) (l : Layout) (boot : Bytes) (m : Making) : Option Making := do
  let m ← volWrite v 0 [boot] m
  let m ← clearReserved v l m
  let m ← writeSpares v l boot m
  let m ← zeroSectors v l.reserved l.fsize m
  let m ← zeroSectors v (u32 (l.reserved + l.fsize)) l.fsize m
  let m ← volWrite v l.reserved [headSector l.bits] m
  let m ← volWrite v (u32 (l.reserved + l.fsize)) [headSector l.bits] m
  zeroSectors v (u32 (l.reserved + 2 * l.fsize))
    (if l.bits = 32 then l.spc else (l.roots * 32 + SECTOR_SIZE - 1) / SECTOR_SIZE) m

def volumeSize (dev : Device) (base sectors : Nat) : Nat :=
  if sectors ≠ 0 then sectors else u32 (dev.sectors + (2 ^ 32 - base))

def fatFormatAt (dev : Device) (refuses : Nat → Bool) (base sectors : Nat) (label : Option Bytes) :
    Option (Device × Geometry) :=
  if !dev.present then none
  else
    let total := volumeSize dev base sectors
    if total < 8192 then none
    else
      match pick total with
      | none => none
      | some l =>
        match writeVolume ⟨base, sectors, refuses⟩ l (sectorOf (bootStores l total label)) ⟨dev, 0⟩ with
        | none => none
        | some m => (fatMountAt m.dev base).map fun g => (m.dev, g)

def fatGet (dev : Device) (g : Geometry) (cluster : Nat) : Nat :=
  let off := u32 (cluster * (g.fatBits / 8))
  let lba := u32 (g.fatStart + off / SECTOR_SIZE)
  if g.partSectors ≠ 0 ∧ lba ≥ g.partSectors then Raw.eoc g.fatBits
  else
    match dev.read (u32 (g.partBase + lba)) with
    | none => Raw.eoc g.fatBits
    | some sec =>
      if g.fatBits = 32 then u32At sec (off % SECTOR_SIZE) &&& 0x0FFFFFFF else u16At sec (off % SECTOR_SIZE)

/-!
## The layout that is picked

The size of a table and the number of clusters depend on each other.
-/

def Layout.dataStart (l : Layout) : Nat :=
  l.reserved + 2 * l.fsize + (l.roots * 32 + SECTOR_SIZE - 1) / SECTOR_SIZE

/-- What holds of a layout for a volume of `total` sectors. -/
structure Layout.Good (l : Layout) (total : Nat) : Prop where
  spc : l.spc ∈ [4, 8, 16, 32, 64, 128]
  width : (l.bits = 16 ∧ l.reserved = 33 ∧ l.roots = 512 ∧ 4085 ≤ l.clusters ∧ l.clusters ≤ 65524 ∧ l.fsize < 2 ^ 16) ∨
    (l.bits = 32 ∧ l.reserved = 40 ∧ l.roots = 0 ∧ 65525 ≤ l.clusters ∧ l.clusters ≤ 0x0FFFFFF5)
  table : 0 < l.fsize
  small : l.fsize ≤ 2 ^ 23
  room : l.dataStart < total
  clusters : l.clusters = (total - l.dataStart) / l.spc
  covered : (l.clusters + 2) * (l.bits / 8) ≤ l.fsize * SECTOR_SIZE

section Settling

/-- What the loop is given: a cluster is at least two entries' bytes long in sectors. -/
structure Given (total spc ent reserved roots : Nat) : Prop where
  counted : total < 2 ^ 32
  entry : 0 < ent ∧ ent ≤ 4
  cluster : 2 * ent ≤ spc
  front : reserved + (roots * 32 + SECTOR_SIZE - 1) / SECTOR_SIZE ≤ 100

def tableMost (total spc ent : Nat) : Nat := ((total / spc + 2) * ent + SECTOR_SIZE - 1) / SECTOR_SIZE

variable {total spc ent reserved roots f c : Nat}

section
variable (h : Given total spc ent reserved roots)
include h

theorem Given.few (hc : c ≤ total / spc) : c * ent < 2 ^ 31 := by
  have hmul : c * (2 * ent) ≤ total :=
    calc c * (2 * ent) ≤ total / spc * spc := Nat.mul_le_mul hc h.cluster
      _ ≤ total := Nat.div_mul_le_self ..
  have htotal := h.counted
  rw [Nat.mul_left_comm] at hmul
  omega

theorem Given.need_eq (hc : c ≤ total / spc) :
    need ent c = ((c + 2) * ent + SECTOR_SIZE - 1) / SECTOR_SIZE := by
  have hfew := h.few hc
  have hent := h.entry
  unfold need
  rw [u32_of_lt]
  rw [Nat.add_mul, SECTOR_SIZE]
  omega

theorem Given.need_covers (hc : c ≤ total / spc) :
    (c + 2) * ent ≤ need ent c * SECTOR_SIZE := by
  rw [h.need_eq hc, SECTOR_SIZE]
  omega

theorem Given.need_bounds (hc : c ≤ total / spc) :
    0 < need ent c ∧ need ent c ≤ tableMost total spc ent := by
  have hent := h.entry
  rw [h.need_eq hc, tableMost, SECTOR_SIZE]
  have hmul : (c + 2) * ent ≤ (total / spc + 2) * ent := Nat.mul_le_mul_right ent (by omega)
  have htwo : 2 * ent ≤ (c + 2) * ent := Nat.mul_le_mul_right ent (by omega)
  omega

theorem Given.most_le : tableMost total spc ent ≤ 2 ^ 23 := by
  have hfew := h.few le_rfl
  have hent := h.entry
  rw [tableMost, Nat.add_mul, SECTOR_SIZE]
  omega

theorem Given.used_eq (hf : f ≤ tableMost total spc ent) :
    used reserved 2 roots f = reserved + 2 * f + (roots * 32 + SECTOR_SIZE - 1) / SECTOR_SIZE := by
  have hmost := h.most_le
  have hfront := h.front
  unfold used
  rw [u32_of_lt]
  omega

theorem Given.settle_bounds {k f' : Nat} (hpos : 0 < f)
    (hf : f ≤ tableMost total spc ent) (hsettle : settle total spc ent reserved 2 roots k f = some f') :
    0 < f' ∧ f' ≤ tableMost total spc ent := by
  induction k generalizing f with
  | zero =>
    cases hsettle
    exact ⟨hpos, hf⟩
  | succ k ih =>
    rw [settle] at hsettle
    split at hsettle
    · cases hsettle
    · dsimp only at hsettle
      split at hsettle
      · cases hsettle
        exact ⟨hpos, hf⟩
      · obtain ⟨hmore, hmost⟩ := h.need_bounds
          (show (total - used reserved 2 roots f) / spc ≤ total / spc from Nat.div_le_div_right (Nat.sub_le ..))
        exact ih hmore hmost hsettle

end

theorem fatLayout_spec (h : Given total spc (if bits = 32 then 4 else 2) reserved roots)
    (hlayout : fatLayout total spc bits reserved 2 roots = some (f, c)) :
    0 < f ∧ f ≤ tableMost total spc (if bits = 32 then 4 else 2) ∧
      reserved + 2 * f + (roots * 32 + SECTOR_SIZE - 1) / SECTOR_SIZE < total ∧
      c = (total - (reserved + 2 * f + (roots * 32 + SECTOR_SIZE - 1) / SECTOR_SIZE)) / spc ∧
      (c + 2) * (if bits = 32 then 4 else 2) ≤ f * SECTOR_SIZE := by
  unfold fatLayout at hlayout
  dsimp only at hlayout
  generalize (if bits = 32 then 4 else 2) = ent at h hlayout ⊢
  have hone : 1 ≤ tableMost total spc ent :=
    (h.need_bounds (Nat.zero_le _)).1.trans_le (h.need_bounds (Nat.zero_le _)).2
  split at hlayout
  · cases hlayout
  · rename_i fsize hsettle
    obtain ⟨hpos, hmost⟩ := h.settle_bounds Nat.one_pos hone hsettle
    have hused := h.used_eq hmost
    split at hlayout
    · cases hlayout
    · rename_i hroom
      have hfew : (total - used reserved 2 roots fsize) / spc ≤ total / spc := Nat.div_le_div_right (Nat.sub_le ..)
      have hcovers := h.need_covers hfew
      obtain ⟨hnpos, hnmost⟩ := h.need_bounds hfew
      split at hlayout
      · rename_i hmore
        have hused' := h.used_eq hnmost
        split at hlayout
        · cases hlayout
        · rename_i hroom'
          cases hlayout
          refine ⟨hnpos, hnmost, by omega, by rw [hused'], ?_⟩
          -- a larger table leaves no more clusters
          refine le_trans (Nat.mul_le_mul_right ent ?_) hcovers
          have hless : (total - used reserved 2 roots (need ent ((total - used reserved 2 roots fsize) / spc))) / spc ≤
              (total - used reserved 2 roots fsize) / spc := Nat.div_le_div_right (by omega)
          omega
      · cases hlayout
        refine ⟨hpos, hmost, by omega, by rw [hused], hcovers.trans (Nat.mul_le_mul_right _ (by omega))⟩

end Settling

theorem tryLayout_eq {reserved roots least most : Nat}
    (h : tryLayout total bits reserved roots least most spc = some l) :
    fatLayout total spc bits reserved 2 roots = some (l.fsize, l.clusters) ∧ least ≤ l.clusters ∧ l.clusters ≤ most ∧
      l = ⟨bits, spc, l.fsize, l.clusters, reserved, roots⟩ := by
  unfold tryLayout at h
  split at h
  · cases h
  · rename_i f c hlayout
    split at h
    · cases h
    · rename_i hrange
      obtain ⟨hleast, hmost⟩ := not_or.mp hrange
      cases h
      exact ⟨hlayout, Nat.not_lt.mp hleast, Nat.not_lt.mp hmost, rfl⟩

theorem few_table {total spc front f : Nat} (hspc : spc ∈ [4, 8, 16, 32, 64]) (hfront : front ≤ 100)
    (hf : f ≤ tableMost total spc 2) (hfew : (total - (front + 2 * f)) / spc ≤ 65524) : f < 2 ^ 16 := by
  unfold tableMost at hf
  rw [SECTOR_SIZE] at hf
  simp only [List.mem_cons, List.not_mem_nil, or_false] at hspc
  rcases hspc with rfl | rfl | rfl | rfl | rfl <;> omega

theorem try16 (htotal : total < 2 ^ 32) (hspc : spc ∈ [4, 8, 16, 32, 64])
    (h : tryLayout total 16 (1 + BB_SECTORS) 512 4085 65524 spc = some l) : l.Good total := by
  obtain ⟨hlayout, hleast, hmost, heq⟩ := tryLayout_eq h
  have hfour : 4 ≤ spc := by
    simp only [List.mem_cons, List.not_mem_nil, or_false] at hspc
    omega
  have hgiven : Given total spc (if 16 = 32 then 4 else 2) (1 + BB_SECTORS) 512 :=
    ⟨htotal, by decide, hfour, by decide⟩
  obtain ⟨hpos, hbound, hroom, hclusters, hcovered⟩ := fatLayout_spec hgiven hlayout
  have hsmall := hgiven.most_le
  have hdata : l.dataStart = 1 + BB_SECTORS + 2 * l.fsize + (512 * 32 + SECTOR_SIZE - 1) / SECTOR_SIZE := by
    rw [Layout.dataStart, heq]
  have hfew : l.fsize < 2 ^ 16 := by
    refine @few_table _ _ 65 _ hspc (by decide) hbound ?_
    have hfront : 65 + 2 * l.fsize = 1 + BB_SECTORS + 2 * l.fsize + (512 * 32 + SECTOR_SIZE - 1) / SECTOR_SIZE := by
      rw [BB_SECTORS, SECTOR_SIZE]
      omega
    rw [hfront, ← hclusters]
    exact hmost
  refine ⟨?_, .inl ⟨?_, ?_, ?_, hleast, hmost, hfew⟩, hpos, hbound.trans hsmall, ?_, ?_, ?_⟩
  · rw [heq]
    exact List.mem_append_left [128] hspc
  · rw [heq]
  · rw [heq, BB_SECTORS]
  · rw [heq]
  · rw [hdata]
    exact hroom
  · rw [hdata, hclusters, heq]
  · have hbits : l.bits = 16 := by rw [heq]
    rw [hbits]
    exact hcovered

theorem try32 (htotal : total < 2 ^ 32) (hspc : spc ∈ [8, 16, 32, 64, 128])
    (h : tryLayout total 32 (8 + BB_SECTORS) 0 65525 0x0FFFFFF5 spc = some l) : l.Good total := by
  obtain ⟨hlayout, hleast, hmost, heq⟩ := tryLayout_eq h
  have height : 8 ≤ spc := by
    simp only [List.mem_cons, List.not_mem_nil, or_false] at hspc
    omega
  have hgiven : Given total spc (if 32 = 32 then 4 else 2) (8 + BB_SECTORS) 0 :=
    ⟨htotal, by decide, height, by decide⟩
  obtain ⟨hpos, hbound, hroom, hclusters, hcovered⟩ := fatLayout_spec hgiven hlayout
  have hsmall := hgiven.most_le
  have hdata : l.dataStart = 8 + BB_SECTORS + 2 * l.fsize + (0 * 32 + SECTOR_SIZE - 1) / SECTOR_SIZE := by
    rw [Layout.dataStart, heq]
  refine ⟨?_, .inr ⟨?_, ?_, ?_, hleast, hmost⟩, hpos, hbound.trans hsmall, ?_, ?_, ?_⟩
  · rw [heq]
    exact List.mem_cons_of_mem 4 hspc
  · rw [heq]
  · rw [heq, BB_SECTORS]
  · rw [heq]
  · rw [hdata]
    exact hroom
  · rw [hdata, hclusters, heq]
  · have hbits : l.bits = 32 := by rw [heq]
    rw [hbits]
    exact hcovered

theorem pick_good (htotal : total < 2 ^ 32) (h : pick total = some l) : l.Good total := by
  unfold pick at h
  split at h
  · rename_i hfound
    cases h
    obtain ⟨spc, hspc, htry⟩ := List.exists_of_findSome?_eq_some hfound
    exact try16 htotal hspc htry
  · obtain ⟨spc, hspc, htry⟩ := List.exists_of_findSome?_eq_some h
    exact try32 htotal ((List.dropWhile_sublist _).mem hspc) htry

end Zelr.Fat
