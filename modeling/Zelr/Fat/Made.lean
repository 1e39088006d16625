import Zelr.Fat.Boot

/-!
# Formatting and mounting agree

What is on the disk after a format, sector by sector, and that a mount finds the layout that was picked with
every cluster free but the root's.
-/

namespace Zelr.Fat

variable {sec : Bytes} {most k last i c : Nat}

/-! ## Sectors written -/

section Writing

variable {v : Site} {dev : Device} {m m' : Making} {base lba count x : Nat} {data : List Bytes}

theorem Device.put_present (dev : Device) (a : Nat) (data : List Bytes) :
    (dev.put a data).present = dev.present ∧ (dev.put a data).sectors = dev.sectors := by
  induction data generalizing dev a with
  | nil => exact ⟨rfl, rfl⟩
  | cons s data ih => exact ih _ _

theorem Device.put_read (hend : lba + data.length ≤ 2 ^ 32) (hx : x < 2 ^ 32) :
    (dev.put (u32 (base + lba)) data).read (u32 (base + x)) =
      if lba ≤ x ∧ x < lba + data.length then some (data.getD (x - lba) []) else dev.read (u32 (base + x)) := by
  induction data generalizing dev lba with
  | nil => rw [if_neg (by rw [List.length_nil]; omega)]; rfl
  | cons s data ih =>
    rw [List.length_cons] at hend ⊢
    rw [Device.put, u32_u32_add, Nat.add_assoc, ih (by omega)]
    by_cases hfirst : x = lba
    · rw [if_neg (by omega), if_pos (by omega), hfirst, Nat.sub_self]
      exact Function.update_self ..
    · by_cases hin : lba + 1 ≤ x ∧ x < lba + 1 + data.length
      · rw [if_pos hin, if_pos (by omega), show x - lba = x - (lba + 1) + 1 by omega, List.getD_cons_succ]
      · rw [if_neg hin, if_neg (by omega)]
        refine Function.update_of_ne ?_ _ _
        unfold u32
        omega

def Making.sector (m : Making) (base x : Nat) : Option Bytes := m.dev.read (u32 (base + x))

def Making.Same (m m' : Making) : Prop := m'.dev.present = m.dev.present ∧ m'.dev.sectors = m.dev.sectors

theorem Making.Same.trans {m₁ m₂ m₃ : Making} (h : m₁.Same m₂) (h' : m₂.Same m₃) : m₁.Same m₃ :=
  ⟨h'.1.trans h.1, h'.2.trans h.2⟩

theorem volWrite_sector (h : volWrite v lba data m = some m') (hend : lba + data.length ≤ 2 ^ 32) :
    m.Same m' ∧ ∀ x, x < 2 ^ 32 → m'.sector v.partBase x =
      if lba ≤ x ∧ x < lba + data.length then some (data.getD (x - lba) []) else m.sector v.partBase x := by
  unfold volWrite at h
  split at h
  · cases h
  · split at h
    · cases h
    · cases h
      exact ⟨Device.put_present .., fun x hx => Device.put_read hend hx⟩

theorem volWrite_one (h : volWrite v lba [sec] m = some m') (hend : lba < 2 ^ 32) :
    m.Same m' ∧ ∀ x, x < 2 ^ 32 → m'.sector v.partBase x = if x = lba then some sec else m.sector v.partBase x := by
  obtain ⟨hsame, hread⟩ := volWrite_sector h (by rw [List.length_singleton]; omega)
  refine ⟨hsame, fun x hx => ?_⟩
  rw [hread x hx, List.length_singleton]
  by_cases heq : x = lba
  · rw [if_pos (by omega), if_pos heq, heq, Nat.sub_self]
    rfl
  · rw [if_neg (by omega), if_neg heq]

def Zeroed (base lba count : Nat) (m m' : Making) : Prop :=
  m.Same m' ∧ ∀ x, x < 2 ^ 32 → m'.sector base x =
    if lba ≤ x ∧ x < lba + count then some zeroSector else m.sector base x

theorem Zeroed.none (base lba : Nat) (m : Making) : Zeroed base lba 0 m m :=
  ⟨⟨rfl, rfl⟩, fun x _ => by rw [if_neg (by omega)]⟩

theorem zeroFrom_sector (h : zeroFrom v most k lba count m = some m') (hend : lba + count ≤ 2 ^ 32) :
    Zeroed v.partBase lba count m m' := by
  induction k generalizing lba count m with
  | zero =>
    rw [zeroFrom] at h
    split at h
    · rename_i hzero
      cases h
      rw [hzero]
      exact .none ..
    · cases h
  | succ k ih =>
    rw [zeroFrom] at h
    split at h
    · rename_i hzero
      cases h
      rw [hzero]
      exact .none ..
    · dsimp only at h
      have hpart : (if count < most then count else most) ≤ count := by split <;> omega
      generalize (if count < most then count else most) = n at h hpart
      obtain ⟨t, hwrite, hrest⟩ := Option.bind_eq_some_iff.mp h
      obtain ⟨hsame, hread⟩ := volWrite_sector hwrite (by rw [List.length_replicate]; omega)
      rw [List.length_replicate] at hread
      have hrun : ∀ x, x < 2 ^ 32 → t.sector v.partBase x =
          if lba ≤ x ∧ x < lba + n then some zeroSector else m.sector v.partBase x := by
        intro x hx
        rw [hread x hx]
        by_cases hin : lba ≤ x ∧ x < lba + n
        · rw [if_pos hin, if_pos hin, List.getD_eq_getElem?_getD, List.getElem?_replicate, if_pos (by omega)]
          rfl
        · rw [if_neg hin, if_neg hin]
      have hnext := u32_lt (lba + n)
      by_cases hlast : count - n = 0
      · -- the run is over, wherever the next one would have begun
        obtain ⟨hsame', hread'⟩ := ih hrest (by omega)
        refine ⟨hsame.trans hsame', fun x hx => ?_⟩
        rw [hread' x hx, if_neg (by omega), hrun x hx, show n = count by omega]
      · have hsmall : u32 (lba + n) = lba + n := u32_of_lt (by omega)
        obtain ⟨hsame', hread'⟩ := ih hrest (by omega)
        rw [hsmall] at hread'
        refine ⟨hsame.trans hsame', fun x hx => ?_⟩
        rw [hread' x hx, hrun x hx]
        by_cases hin : lba ≤ x ∧ x < lba + count
        · rw [if_pos hin]
          split
          · rfl
          · rw [if_pos (by omega)]
        · rw [if_neg hin, if_neg (by omega), if_neg (by omega)]

theorem zeroSectors_sector (h : zeroSectors v lba count m = some m') (hend : lba + count ≤ 2 ^ 32) :
    Zeroed v.partBase lba count m m' := zeroFrom_sector h hend

/-! ### When nothing is refused -/

def Site.Works (v : Site) (last : Nat) : Prop :=
  (v.partSectors = 0 ∨ last ≤ v.partSectors) ∧ ∀ n, v.refuses n = false

theorem Site.Works.write {last : Nat} (h : v.Works last) (hdata : data ≠ []) (hend : lba + data.length ≤ last)
    (m : Making) : ∃ m', volWrite v lba data m = some m' := by
  have hlen := List.length_pos_iff.mpr hdata
  unfold volWrite
  rw [if_neg (by rcases h.1 with h | h <;> omega), h.2, if_neg Bool.false_ne_true]
  exact ⟨_, rfl⟩

theorem Site.Works.zeroFrom (h : v.Works last) (hmost : 0 < most) (hk : count ≤ k)
    (hend : lba + count ≤ last) (hlast : last < 2 ^ 32) (m : Making) :
    ∃ m', zeroFrom v most k lba count m = some m' := by
  induction k generalizing lba count m with
  | zero => exact ⟨m, if_pos (by omega)⟩
  | succ k ih =>
    rw [Fat.zeroFrom]
    split
    · exact ⟨m, rfl⟩
    · dsimp only
      have hpart : 0 < (if count < most then count else most) ∧ (if count < most then count else most) ≤ count := by
        split <;> omega
      generalize (if count < most then count else most) = n at hpart
      have hsmall : u32 (lba + n) = lba + n := u32_of_lt (by omega)
      obtain ⟨t, ht⟩ := @h.write _ lba (List.replicate n zeroSector) _
        (by rw [Ne, List.replicate_eq_nil_iff]; omega) (by rw [List.length_replicate]; omega) m
      rw [ht, hsmall]
      exact ih (by omega) (by omega) t

theorem Site.Works.zeroSectors (h : v.Works last) (hend : lba + count ≤ last) (hlast : last < 2 ^ 32)
    (m : Making) : ∃ m', zeroSectors v lba count m = some m' := by
  unfold Fat.zeroSectors
  by_cases hzero : count = 0
  · rw [hzero]
    exact ⟨m, rfl⟩
  · exact h.zeroFrom (by rw [RUN_SECTORS]; split <;> omega) le_rfl hend hlast m

end Writing

/-! ## The whole volume -/

section Volume

variable {v : Site} {l : Layout} {total : Nat} {boot : Bytes} {m m' : Making}

theorem writeSpares_sector (h : writeSpares v l boot m = some m') :
    m.Same m' ∧ ∀ x, x < 2 ^ 32 → x = 0 ∨ 8 ≤ x → m'.sector v.partBase x = m.sector v.partBase x := by
  unfold writeSpares at h
  split at h
  · obtain ⟨m₁, h₁, h⟩ := Option.bind_eq_some_iff.mp h
    obtain ⟨m₂, h₂, h₃⟩ := Option.bind_eq_some_iff.mp h
    obtain ⟨hsame₁, hread₁⟩ := volWrite_one h₁ (by decide)
    obtain ⟨hsame₂, hread₂⟩ := volWrite_one h₂ (by decide)
    obtain ⟨hsame₃, hread₃⟩ := volWrite_one h₃ (by decide)
    refine ⟨(hsame₁.trans hsame₂).trans hsame₃, fun x hx hout => ?_⟩
    rw [hread₃ x hx, if_neg (by omega), hread₂ x hx, if_neg (by omega), hread₁ x hx, if_neg (by omega)]
  · cases h
    exact ⟨⟨rfl, rfl⟩, fun _ _ _ => rfl⟩

theorem Layout.Good.tables (h : l.Good total) (htotal : total < 2 ^ 32) :
    33 ≤ l.reserved ∧ l.reserved + 2 * l.fsize < total ∧ u32 (l.reserved + l.fsize) = l.reserved + l.fsize ∧
      u32 (l.reserved + 2 * l.fsize) = l.reserved + 2 * l.fsize ∧
      l.reserved + 2 * l.fsize + (if l.bits = 32 then l.spc else (l.roots * 32 + SECTOR_SIZE - 1) / SECTOR_SIZE) ≤ total := by
  have hroom := h.room
  have hmul := Nat.div_mul_le_self (total - l.dataStart) l.spc
  rw [← h.clusters] at hmul
  unfold Layout.dataStart at hroom hmul
  generalize (l.roots * 32 + SECTOR_SIZE - 1) / SECTOR_SIZE = root at hroom hmul ⊢
  have hbefore : l.reserved + 2 * l.fsize < total := lt_of_le_of_lt (Nat.le_add_right ..) hroom
  refine ⟨?_, hbefore, u32_of_lt (by omega), u32_of_lt (by omega), ?_⟩
  · rcases h.width with ⟨-, hres, -⟩ | ⟨-, hres, -⟩ <;> omega
  · split
    · have hmany : 1 * l.spc ≤ l.clusters * l.spc := by
        refine Nat.mul_le_mul_right _ ?_
        rcases h.width with ⟨-, -, -, hleast, -⟩ | ⟨-, -, -, hleast, -⟩ <;> omega
      omega
    · exact hroom.le

theorem writeVolume_sector (hl : l.Good total) (htotal : total < 2 ^ 32) (h : writeVolume v l boot m = some m') :
    m.Same m' ∧ m'.sector v.partBase 0 = some boot ∧
      ∀ k, k < l.fsize → m'.sector v.partBase (l.reserved + k) =
        some (if k = 0 then headSector l.bits else zeroSector) := by
  obtain ⟨hpos, hbefore, hsecond, hroot, hlast⟩ := hl.tables htotal
  have hfront := hl.front.1
  have htable := hl.table
  unfold writeVolume at h
  rw [hsecond, hroot] at h
  obtain ⟨m₁, h₁, h⟩ := Option.bind_eq_some_iff.mp h
  obtain ⟨m₂, h₂, h⟩ := Option.bind_eq_some_iff.mp h
  obtain ⟨m₃, h₃, h⟩ := Option.bind_eq_some_iff.mp h
  obtain ⟨m₄, h₄, h⟩ := Option.bind_eq_some_iff.mp h
  obtain ⟨m₅, h₅, h⟩ := Option.bind_eq_some_iff.mp h
  obtain ⟨m₆, h₆, h⟩ := Option.bind_eq_some_iff.mp h
  obtain ⟨m₇, h₇, h₈⟩ := Option.bind_eq_some_iff.mp h
  rw [clearReserved, if_pos (by omega)] at h₂
  obtain ⟨hsame₁, hread₁⟩ := volWrite_one h₁ (by decide)
  obtain ⟨hsame₂, hread₂⟩ := zeroSectors_sector h₂ (by omega)
  obtain ⟨hsame₃, hread₃⟩ := writeSpares_sector h₃
  obtain ⟨hsame₄, hread₄⟩ := zeroSectors_sector h₄ (by omega)
  obtain ⟨hsame₅, hread₅⟩ := zeroSectors_sector h₅ (by omega)
  obtain ⟨hsame₆, hread₆⟩ := volWrite_one h₆ (by omega)
  obtain ⟨hsame₇, hread₇⟩ := volWrite_one h₇ (by omega)
  obtain ⟨hsame₈, hread₈⟩ := zeroSectors_sector h₈ (hlast.trans htotal.le)
  refine ⟨?_, ?_, fun k hk => ?_⟩
  · exact ((((((hsame₁.trans hsame₂).trans hsame₃).trans hsame₄).trans hsame₅).trans hsame₆).trans hsame₇).trans hsame₈
  · rw [hread₈ 0 (by decide), if_neg (by omega), hread₇ 0 (by decide), if_neg (by omega), hread₆ 0 (by decide),
      if_neg (by omega), hread₅ 0 (by decide), if_neg (by omega), hread₄ 0 (by decide), if_neg (by omega),
      hread₃ 0 (by decide) (.inl rfl), hread₂ 0 (by decide), if_neg (by omega), hread₁ 0 (by decide), if_pos rfl]
  · have hx : l.reserved + k < 2 ^ 32 := by omega
    rw [hread₈ _ hx, if_neg (by omega), hread₇ _ hx, if_neg (by omega), hread₆ _ hx]
    by_cases hk0 : k = 0
    · rw [if_pos (by omega), if_pos hk0]
    · rw [if_neg (by omega), if_neg hk0, hread₅ _ hx, if_neg (by omega), hread₄ _ hx, if_pos (by omega)]

theorem writeVolume_some (hl : l.Good total) (htotal : total < 2 ^ 32) (hv : v.Works total) (m : Making) :
    ∃ m', writeVolume v l boot m = some m' := by
  obtain ⟨hpos, hbefore, hsecond, hroot, hlast⟩ := hl.tables htotal
  have hone : ∀ lba sec, lba < total → ∀ m, ∃ m', volWrite v lba [sec] m = some m' :=
    fun lba sec hlba m => hv.write (List.cons_ne_nil _ _) (by rw [List.length_singleton]; omega) m
  have hspares : ∀ m, ∃ m', writeSpares v l boot m = some m' := by
    intro m
    unfold writeSpares
    split
    · obtain ⟨a, ha⟩ := hone 1 infoSector (by omega) m
      obtain ⟨b, hb⟩ := hone 7 infoSector (by omega) a
      obtain ⟨c, hc⟩ := hone 6 boot (by omega) b
      refine ⟨c, ?_⟩
      simp only [Option.bind_eq_bind]
      rw [ha, Option.bind_some, hb, Option.bind_some, hc]
    · exact ⟨m, rfl⟩
  obtain ⟨m₁, h₁⟩ := hone 0 boot (by omega) m
  obtain ⟨m₂, h₂⟩ := hv.zeroSectors (show 1 + (l.reserved - 1) ≤ total by omega) htotal m₁
  obtain ⟨m₃, h₃⟩ := hspares m₂
  obtain ⟨m₄, h₄⟩ := hv.zeroSectors (show l.reserved + l.fsize ≤ total by omega) htotal m₃
  obtain ⟨m₅, h₅⟩ := hv.zeroSectors (show l.reserved + l.fsize + l.fsize ≤ total by omega) htotal m₄
  obtain ⟨m₆, h₆⟩ := hone l.reserved (headSector l.bits) (by omega) m₅
  obtain ⟨m₇, h₇⟩ := hone (l.reserved + l.fsize) (headSector l.bits) (by omega) m₆
  obtain ⟨m₈, h₈⟩ := hv.zeroSectors hlast htotal m₇
  refine ⟨m₈, ?_⟩
  unfold writeVolume
  rw [hsecond, hroot]
  simp only [Option.bind_eq_bind]
  rw [h₁, Option.bind_some, clearReserved, if_pos (by omega), h₂, Option.bind_some, h₃, Option.bind_some, h₄,
    Option.bind_some, h₅, Option.bind_some, h₆, Option.bind_some, h₇, Option.bind_some, h₈]

end Volume

/-! ## The tables read -/

section Tables

theorem u16At_zero (h : ∀ k, k < 2 → byteAt sec (i + k) = 0) : u16At sec i = 0 := by
  rw [u16At, h 1 (by decide), show byteAt sec i = 0 from h 0 (by decide)]
  rfl

theorem u32At_zero (h : ∀ k, k < 4 → byteAt sec (i + k) = 0) : u32At sec i = 0 := by
  rw [u32At, u16At_zero fun k hk => h k (by omega), u16At_zero fun k hk => by rw [Nat.add_assoc]; exact h (2 + k) (by omega)]
  rfl

theorem headSector_16 (hc : 2 ≤ c) : u16At (headSector 16) (c * 2) = 0 := by
  have hasc : Ascending SECTOR_SIZE [(0, le16 0xFFF8), (2, le16 0xFFFF)] := ⟨by decide, by decide⟩
  have hend : ∀ s ∈ [(0, le16 0xFFF8), (2, le16 0xFFFF)], s.1 + s.2.length ≤ 4 := by decide
  exact u16At_zero fun k _ => byteAt_sectorOf_behind hasc fun s hs => (hend s hs).trans (by omega)

theorem headSector_32 (hc : 2 ≤ c) :
    u32At (headSector 32) (c * 4) &&& 0x0FFFFFFF = if c = 2 then 0x0FFFFFFF else 0 := by
  have hasc : Ascending SECTOR_SIZE [(0, le32 0x0FFFFFF8), (4, le32 0x0FFFFFFF), (8, le32 0x0FFFFFFF)] :=
    ⟨by decide, by decide⟩
  have hend : ∀ s ∈ [(0, le32 0x0FFFFFF8), (4, le32 0x0FFFFFFF), (8, le32 0x0FFFFFFF)], s.1 + s.2.length ≤ 12 := by decide
  by_cases hroot : c = 2
  · have hread : u32At (headSector 32) 8 = 0x0FFFFFFF := u32At_sectorOf hasc (by simp) (by decide)
    rw [if_pos hroot, hroot, hread]
    rfl
  · have hread : u32At (headSector 32) (c * 4) = 0 :=
      u32At_zero fun k _ => byteAt_sectorOf_behind hasc fun s hs => (hend s hs).trans (by omega)
    rw [if_neg hroot, hread]
    rfl

variable {dev : Device} {l : Layout} {total base c : Nat}

theorem fatGet_made (hl : l.Good total) (htotal : total < 2 ^ 32)
    (htable : ∀ k, k < l.fsize → dev.read (u32 (base + (l.reserved + k))) =
      some (if k = 0 then headSector l.bits else zeroSector))
    (hlow : 2 ≤ c) (hhigh : c < l.clusters + 2) :
    fatGet dev (l.geometry total base) c = if c = (l.geometry total base).rootCluster then Raw.eoc l.bits else 0 := by
  obtain ⟨-, hbefore, -⟩ := hl.tables htotal
  have hcovered := hl.covered
  have hsmall := hl.small
  have hwidth : 0 < l.bits / 8 := by
    rcases hl.bits with h | h <;> rw [h] <;> decide
  have hend : c * (l.bits / 8) + l.bits / 8 ≤ l.fsize * SECTOR_SIZE := by
    rw [← Nat.succ_mul]
    exact (Nat.mul_le_mul_right _ hhigh).trans hcovered
  have hoff : u32 (c * (l.bits / 8)) = c * (l.bits / 8) := by
    refine u32_of_lt ?_
    rw [SECTOR_SIZE] at hend
    omega
  have hk : c * (l.bits / 8) / SECTOR_SIZE < l.fsize := by
    rw [Nat.div_lt_iff_lt_mul (by decide)]
    omega
  have hlba : u32 (l.reserved + c * (l.bits / 8) / SECTOR_SIZE) = l.reserved + c * (l.bits / 8) / SECTOR_SIZE :=
    u32_of_lt (by omega)
  unfold fatGet Layout.geometry
  dsimp only
  rw [hoff, hlba, if_neg (by omega), htable _ hk]
  dsimp only
  have hnarrow : ¬ (16 : Nat) = 32 := by decide
  rcases hl.bits with hbits | hbits
  · rw [hbits, if_neg hnarrow, if_neg hnarrow, if_neg (show ¬ c = 0 by omega), SECTOR_SIZE]
    by_cases hfirst : c * (16 / 8) / 512 = 0
    · rw [if_pos hfirst, Nat.mod_eq_of_lt (by omega)]
      exact headSector_16 hlow
    · rw [if_neg hfirst]
      exact u16At_zero fun k _ => byteAt_zeroSector _
  · rw [hbits, if_pos rfl, if_pos rfl, SECTOR_SIZE]
    by_cases hfirst : c * (32 / 8) / 512 = 0
    · rw [if_pos hfirst, Nat.mod_eq_of_lt (by omega)]
      exact headSector_32 hlow
    · rw [if_neg hfirst, u32At_zero fun k _ => byteAt_zeroSector _, if_neg (show ¬ c = 2 by omega)]
      rfl

end Tables

/-! ## Format and mount -/

theorem Layout.Good.large {l : Layout} {total : Nat} (h : l.Good total) : 8192 ≤ total := by
  have hmul := Nat.div_mul_le_self (total - l.dataStart) l.spc
  rw [← h.clusters] at hmul
  have hmany : 4085 * 4 ≤ l.clusters * l.spc := by
    refine Nat.mul_le_mul ?_ h.spc_lt.1
    rcases h.width with ⟨-, -, -, hleast, -⟩ | ⟨-, -, -, hleast, -⟩ <;> omega
  omega

theorem boot_mark {l : Layout} {total : Nat} {label : Option Bytes} (h : l.Good total) :
    byteAt (sectorOf (bootStores l total label)) 510 = 0x55 ∧ byteAt (sectorOf (bootStores l total label)) 511 = 0xAA := by
  have hasc : Ascending zeroSector.length (bootStores l total label) := by
    rw [zeroSector, List.length_replicate]
    exact bootStores_ascending h.bits
  have hmem : (510, [0x55, 0xAA]) ∈ bootStores l total label := List.mem_append_right _ List.mem_cons_self
  exact ⟨byteAt_stores hasc hmem (k := 0) Nat.two_pos, byteAt_stores hasc hmem (k := 1) Nat.one_lt_two⟩

theorem volumeSize_lt (dev : Device) (base : Nat) {sectors : Nat} (h : sectors < 2 ^ 32) :
    volumeSize dev base sectors < 2 ^ 32 := by
  unfold volumeSize
  split
  · exact h
  · exact u32_lt _

/-- A layout that is picked has its areas in order inside the volume, and room for every cluster in the tables; the
volume mounts with it, every cluster free but the root's. -/
theorem format_mount_agree (dev : Device) (refuses : Nat → Bool) (base sectors : Nat) (label : Option Bytes) (l : Layout)
    (hbase : base < 2 ^ 32) (hsectors : sectors < 2 ^ 32) (hpick : pick (volumeSize dev base sectors) = some l) :
    (l.geometry (volumeSize dev base sectors) base).Sane ∧
      (∀ dev' g, fatFormatAt dev refuses base sectors label = some (dev', g) →
        fatMountAt dev' base = some g ∧ g = l.geometry (volumeSize dev base sectors) base ∧
          ∀ c, 2 ≤ c → c < g.clusterCount + 2 →
            fatGet dev' g c = if c = g.rootCluster then Raw.eoc g.fatBits else 0) ∧
      (dev.present = true → (dev.sectors = 0 ∨ base + volumeSize dev base sectors ≤ dev.sectors) →
        (∀ n, refuses n = false) → (fatFormatAt dev refuses base sectors label).isSome) := by
  have htotal := volumeSize_lt dev base hsectors
  have hl := pick_good htotal hpick
  have hlarge := hl.large
  generalize htot : volumeSize dev base sectors = total at hpick htotal hl hlarge ⊢
  have hmounts : ∀ m, writeVolume ⟨base, sectors, refuses⟩ l (sectorOf (bootStores l total label)) ⟨dev, 0⟩ = some m →
      dev.present = true → fatMountAt m.dev base =
        (if dev.sectors ≠ 0 ∧ (base ≥ dev.sectors ∨ total > dev.sectors - base) then none
          else some (l.geometry total base)) ∧
      ∀ k, k < l.fsize → m.dev.read (u32 (base + (l.reserved + k))) =
        some (if k = 0 then headSector l.bits else zeroSector) := by
    intro m hwrite hpresent
    obtain ⟨⟨hsame, hdisk⟩, hboot, htable⟩ := writeVolume_sector hl htotal hwrite
    refine ⟨?_, htable⟩
    have hread : m.dev.read base = some (sectorOf (bootStores l total label)) := by
      rw [← hboot, Making.sector, Nat.add_zero, u32_of_lt hbase]
    have hasc : Ascending SECTOR_SIZE (bootStores l total label) := bootStores_ascending hl.bits
    obtain ⟨hlow, hhigh⟩ := @boot_mark l total label hl
    unfold fatMountAt
    rw [hsame, hpresent, hread, hdisk]
    dsimp only
    rw [if_neg (by decide), hlow, hhigh, if_neg (by decide), layout_boot hl htotal]
    rfl
  refine ⟨hl.sane htotal, fun dev' g hformat => ?_, fun hpresent hdisk hworks => ?_⟩
  · unfold fatFormatAt at hformat
    dsimp only at hformat
    split at hformat
    · cases hformat
    · rename_i hpresent
      rw [htot, if_neg (by omega), hpick] at hformat
      dsimp only at hformat
      split at hformat
      · cases hformat
      · rename_i m hwrite
        obtain ⟨g', hmount, heq⟩ := Option.map_eq_some_iff.mp hformat
        cases heq
        obtain ⟨hresult, htable⟩ := hmounts m hwrite (by simpa using hpresent)
        have hg := hresult
        rw [hmount] at hg
        split at hg
        · cases hg
        · cases hg
          exact ⟨hmount, rfl, fun c hc hc' => fatGet_made hl htotal htable hc hc'⟩
  · have hsite : (Site.mk base sectors refuses).Works total := by
      refine ⟨?_, hworks⟩
      by_cases hzero : sectors = 0
      · exact .inl hzero
      · rw [volumeSize, if_pos hzero] at htot
        exact .inr htot.ge
    obtain ⟨m, hwrite⟩ := @writeVolume_some _ l total (sectorOf (bootStores l total label)) hl htotal hsite ⟨dev, 0⟩
    obtain ⟨hresult, -⟩ := hmounts m hwrite hpresent
    unfold fatFormatAt
    dsimp only
    rw [hpresent, if_neg (by decide), htot, if_neg (by omega), hpick]
    dsimp only
    rw [hwrite]
    dsimp only
    rw [hresult, if_neg (by omega)]
    rfl

/-- A disk of ten megabytes with nothing to be read on it. -/
def blankDevice : Device := ⟨true, 20000, fun _ => none⟩

theorem format_mount_agree_blank : ∃ dev' g, fatFormatAt blankDevice (fun _ => false) 0 0 (some (ascii "work")) =
    some (dev', g) ∧ fatMountAt dev' 0 = some g ∧ g.fatBits = 16 ∧ g.clusterCount = 4973 ∧ g.dataStart = 105 ∧
      g.Sane ∧ fatGet dev' g 4974 = 0 := by
  have hpick : pick (volumeSize blankDevice 0 0) = some ⟨16, 4, 20, 4973, 33, 512⟩ := by decide +kernel
  obtain ⟨hsane, hagree, hworks⟩ := format_mount_agree blankDevice (fun _ => false) 0 0 (some (ascii "work")) _
    (by decide) (by decide) hpick
  obtain ⟨⟨dev', g⟩, hformat⟩ := Option.isSome_iff_exists.mp (hworks rfl (.inr (by decide)) fun _ => rfl)
  obtain ⟨hmount, rfl, hfree⟩ := hagree dev' g hformat
  exact ⟨dev', _, hformat, hmount, rfl, rfl, rfl, hsane, hfree 4974 (by decide) (by decide)⟩

end Zelr.Fat
