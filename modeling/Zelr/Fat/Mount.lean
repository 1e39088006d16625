import Zelr.Base.Bytes
import Mathlib.Data.List.Range

/-!
# Mounting a volume

What `fat_mount_at` takes from a boot sector, on 32 bits as the source has it, and which boot sectors give
a layout whose areas lie one after the other with room for every entry of the table.
-/

namespace Zelr.Fat

variable {n start base total : Nat} {b : Bpb} {g : Geometry}

def SECTOR_SIZE : Nat := 512

/-- What an assignment to a `u32` keeps. -/
def u32 (n : Nat) : Nat := n % 2 ^ 32

/-- The fields of a boot sector that a mount reads. -/
structure Bpb where
  bytesPerSector : Nat
  sectorsPerCluster : Nat
  reservedSectors : Nat
  numFats : Nat
  rootEntries : Nat
  totalSectors : Nat
  fatSectors : Nat
  rootCluster : Nat
  deriving DecidableEq, Repr

def u16At (sec : Bytes) (i : Nat) : Nat := (byteAt sec i).toNat + (byteAt sec (i + 1)).toNat * 2 ^ 8

def u32At (sec : Bytes) (i : Nat) : Nat := u16At sec i + u16At sec (i + 2) * 2 ^ 16

def bpbOf (sec : Bytes) : Bpb where
  bytesPerSector := u16At sec 11
  sectorsPerCluster := (byteAt sec 13).toNat
  reservedSectors := u16At sec 14
  numFats := (byteAt sec 16).toNat
  rootEntries := u16At sec 17
  totalSectors := if u16At sec 19 ≠ 0 then u16At sec 19 else u32At sec 32
  fatSectors := if u16At sec 22 ≠ 0 then u16At sec 22 else u32At sec 36
  rootCluster := u32At sec 44

structure Geometry where
  fatBits : Nat
  rootCluster : Nat
  sectorsPerCluster : Nat
  reservedSectors : Nat
  numFats : Nat
  totalSectors : Nat
  fatSectors : Nat
  fatStart : Nat
  rootStart : Nat
  rootSectors : Nat
  dataStart : Nat
  clusterCount : Nat
  partBase : Nat
  partSectors : Nat
  deriving DecidableEq, Repr

def layout (b : Bpb) (base : Nat) : Option Geometry :=
  if b.bytesPerSector ≠ SECTOR_SIZE then none
  else if b.sectorsPerCluster = 0 ∨ b.numFats = 0 ∨ b.fatSectors = 0 then none
  else
    let fatStart := b.reservedSectors
    let rootSectors := (b.rootEntries * 32 + SECTOR_SIZE - 1) / SECTOR_SIZE
    let rootStart := u32 (fatStart + u32 (b.numFats * b.fatSectors))
    let dataStart := u32 (rootStart + rootSectors)
    if dataStart ≥ b.totalSectors then none
    else
      let clusterCount := (b.totalSectors - dataStart) / b.sectorsPerCluster
      if clusterCount < 4085 then none
      else if clusterCount > 65524 then
        if b.rootEntries ≠ 0 then none
        else
          let dataStart := u32 (fatStart + u32 (b.numFats * b.fatSectors))
          if dataStart ≥ b.totalSectors then none
          else
            let clusterCount := (b.totalSectors - dataStart) / b.sectorsPerCluster
            if b.rootCluster < 2 ∨ b.rootCluster ≥ u32 (clusterCount + 2) then none
            else
              some ⟨32, b.rootCluster, b.sectorsPerCluster, b.reservedSectors, b.numFats, b.totalSectors,
                b.fatSectors, fatStart, 0, 0, dataStart, clusterCount, base, b.totalSectors⟩
      else if b.rootEntries = 0 then none
      else
        some ⟨16, 0, b.sectorsPerCluster, b.reservedSectors, b.numFats, b.totalSectors, b.fatSectors,
          fatStart, rootStart, rootSectors, dataStart, clusterCount, base, b.totalSectors⟩

/-- A disk: whether it is there, how many sectors it has when it says so and 0 when not, and what a
read of one sector gives. -/
structure Device where
  present : Bool
  sectors : Nat
  read : Nat → Option Bytes

def fatMountAt (dev : Device) (base : Nat) : Option Geometry :=
  if !dev.present then none
  else
    match dev.read base with
    | none => none
    | some sec =>
      if byteAt sec 510 ≠ 0x55 ∨ byteAt sec 511 ≠ 0xAA then none
      else
        match layout (bpbOf sec) base with
        | none => none
        | some g =>
          if dev.sectors ≠ 0 ∧ (base ≥ dev.sectors ∨ g.totalSectors > dev.sectors - base) then none else some g

/-! ## What a layout should be -/

def Geometry.areas (g : Geometry) : List (Nat × Nat) :=
  (0, g.reservedSectors) :: (List.range g.numFats).map (fun i => (g.fatStart + i * g.fatSectors, g.fatSectors))
    ++ (if g.fatBits = 16 then [(g.rootStart, g.rootSectors)] else [])
    ++ [(g.dataStart, g.clusterCount * g.sectorsPerCluster)]

structure Geometry.Sane (g : Geometry) : Prop where
  /-- Each area ends where the next begins or before. -/
  ordered : g.areas.Pairwise fun a b => a.1 + a.2 ≤ b.1
  inside : ∀ a ∈ g.areas, a.1 + a.2 ≤ g.totalSectors
  room : (g.clusterCount + 2) * (g.fatBits / 8) ≤ g.fatSectors * SECTOR_SIZE

def Bpb.tablesEnd (b : Bpb) : Nat := b.reservedSectors + b.numFats * b.fatSectors

def Bpb.clustersAt (b : Bpb) : Nat := b.tablesEnd + (b.rootEntries * 32 + SECTOR_SIZE - 1) / SECTOR_SIZE

def Bpb.clusters (b : Bpb) : Nat := (b.totalSectors - b.clustersAt) / b.sectorsPerCluster

/-- The areas in front of the clusters can be counted on 32 bits, and a table has an entry for each cluster. -/
structure Bpb.Fits (b : Bpb) : Prop where
  counted : b.clustersAt < 2 ^ 32
  covered : (b.clusters + 2) * (if b.clusters > 65524 then 4 else 2) ≤ b.fatSectors * SECTOR_SIZE

theorem u32_of_lt (h : n < 2 ^ 32) : u32 n = n := Nat.mod_eq_of_lt h

theorem u32_add_u32 (a n : Nat) : u32 (a + u32 n) = u32 (a + n) := Nat.add_mod_mod ..

theorem u32_u32_add (a n : Nat) : u32 (u32 a + n) = u32 (a + n) := Nat.mod_add_mod ..

theorem u32_lt (n : Nat) : u32 n < 2 ^ 32 := Nat.mod_lt n (by decide)

theorem copies_pairwise (start len n : Nat) :
    ((List.range n).map fun i => (start + i * len, len)).Pairwise fun a b => a.1 + a.2 ≤ b.1 := by
  refine List.pairwise_map.mpr (List.pairwise_lt_range.imp ?_)
  intro i j hij
  have hmul : (i + 1) * len ≤ j * len := Nat.mul_le_mul_right len hij
  rw [Nat.add_mul, Nat.one_mul] at hmul
  simp only
  omega

theorem mem_copies {len : Nat} {a : Nat × Nat} (h : a ∈ (List.range n).map fun i => (start + i * len, len)) :
    start ≤ a.1 ∧ a.1 + a.2 ≤ start + n * len := by
  obtain ⟨i, hi, rfl⟩ := List.mem_map.mp h
  have hmul : (i + 1) * len ≤ n * len := Nat.mul_le_mul_right len (List.mem_range.mp hi)
  rw [Nat.add_mul, Nat.one_mul] at hmul
  simp only
  omega

theorem last_copy (start len : Nat) (hn : n ≠ 0) :
    ∃ a ∈ (List.range n).map (fun i => (start + i * len, len)), a.1 + a.2 = start + n * len := by
  refine ⟨(start + (n - 1) * len, len), List.mem_map.mpr ⟨n - 1, List.mem_range.mpr (by omega), rfl⟩, ?_⟩
  obtain ⟨k, rfl⟩ := Nat.exists_eq_succ_of_ne_zero hn
  simp only [Nat.succ_eq_add_one, Nat.add_sub_cancel, Nat.add_mul, Nat.one_mul]
  omega

theorem ordered_iff (start len : Nat) (hn : n ≠ 0) (rest : List (Nat × Nat)) :
    ((0, start) :: (List.range n).map (fun i => (start + i * len, len)) ++ rest).Pairwise (fun a b => a.1 + a.2 ≤ b.1) ↔
      (∀ a ∈ rest, start + n * len ≤ a.1) ∧ rest.Pairwise fun a b => a.1 + a.2 ≤ b.1 := by
  rw [List.pairwise_append, List.pairwise_cons]
  constructor
  · rintro ⟨-, hrest, hbefore⟩
    refine ⟨?_, hrest⟩
    obtain ⟨c, hc, hend⟩ := last_copy start len hn
    intro a ha
    rw [← hend]
    exact hbefore c (List.mem_cons_of_mem _ hc) a ha
  · rintro ⟨hbefore, hrest⟩
    refine ⟨⟨?_, copies_pairwise start len n⟩, hrest, ?_⟩
    · intro a ha
      simpa using (mem_copies ha).1
    · intro a ha b hb
      have hb' := hbefore b hb
      rcases List.mem_cons.mp ha with rfl | ha
      · simp only
        omega
      · exact (mem_copies ha).2.trans hb'

theorem layout_cases (h : layout b base = some g) :
    b.sectorsPerCluster ≠ 0 ∧ b.numFats ≠ 0 ∧
    ((b.rootEntries = 0 ∧ u32 b.tablesEnd < b.totalSectors ∧
        (b.totalSectors - u32 b.tablesEnd) / b.sectorsPerCluster > 65524 ∧
        g = ⟨32, b.rootCluster, b.sectorsPerCluster, b.reservedSectors, b.numFats, b.totalSectors, b.fatSectors,
          b.reservedSectors, 0, 0, u32 b.tablesEnd, (b.totalSectors - u32 b.tablesEnd) / b.sectorsPerCluster, base,
          b.totalSectors⟩) ∨
      (u32 b.clustersAt < b.totalSectors ∧ ¬ (b.totalSectors - u32 b.clustersAt) / b.sectorsPerCluster > 65524 ∧
        g = ⟨16, 0, b.sectorsPerCluster, b.reservedSectors, b.numFats, b.totalSectors, b.fatSectors,
          b.reservedSectors, u32 b.tablesEnd, (b.rootEntries * 32 + SECTOR_SIZE - 1) / SECTOR_SIZE,
          u32 b.clustersAt, (b.totalSectors - u32 b.clustersAt) / b.sectorsPerCluster, base, b.totalSectors⟩)) := by
  have htables : u32 (b.reservedSectors + u32 (b.numFats * b.fatSectors)) = u32 b.tablesEnd := u32_add_u32 ..
  have hclusters : u32 (u32 b.tablesEnd + (b.rootEntries * 32 + SECTOR_SIZE - 1) / SECTOR_SIZE) = u32 b.clustersAt :=
    u32_u32_add ..
  simp only [layout, htables, hclusters] at h
  split at h
  · cases h
  · split at h
    · cases h
    · rename_i hzero
      rw [not_or, not_or] at hzero
      refine ⟨hzero.1, hzero.2.1, ?_⟩
      split at h
      · cases h
      · split at h
        · cases h
        · split at h
          · rename_i hroom hmany
            split at h
            · cases h
            · rename_i hroot
              have hroot : b.rootEntries = 0 := not_not.mp hroot
              have hat : b.clustersAt = b.tablesEnd := by
                simp [Bpb.clustersAt, hroot, SECTOR_SIZE]
              rw [hat] at hmany
              split at h
              · cases h
              · rename_i hlt
                split at h
                · cases h
                · exact .inl ⟨hroot, not_le.mp hlt, hmany, (Option.some.inj h).symm⟩
          · rename_i hlt _ hfew
            split at h
            · cases h
            · exact .inr ⟨not_le.mp hlt, hfew, (Option.some.inj h).symm⟩

theorem clusters_inside {per : Nat} (h : start < total) : start + (total - start) / per * per ≤ total := by
  have hmul := Nat.div_mul_le_self (total - start) per
  omega

theorem inside_of_ordered {l : List (Nat × Nat)} {last : Nat × Nat}
    (h : (l ++ [last]).Pairwise fun a b => a.1 + a.2 ≤ b.1) (hlast : last.1 + last.2 ≤ total) :
    ∀ a ∈ l ++ [last], a.1 + a.2 ≤ total := by
  intro a ha
  rcases List.mem_append.mp ha with ha | ha
  · have hle := (List.pairwise_append.mp h).2.2 a ha last (List.mem_singleton_self last)
    omega
  · cases List.mem_singleton.mp ha
    exact hlast

/-- **A layout is sane when its areas were counted without wrapping and its tables are large enough**, and then only. -/
theorem layout_sane_iff (h : layout b base = some g) : g.Sane ↔ b.Fits := by
  obtain ⟨hper, hfats, ⟨hroot, hlt, hmany, rfl⟩ | ⟨hlt, hfew, rfl⟩⟩ := layout_cases h
  · have hat : b.clustersAt = b.tablesEnd := by
      simp [Bpb.clustersAt, hroot, SECTOR_SIZE]
    constructor
    · intro hs
      have hord := hs.ordered
      simp only [Geometry.areas, Nat.reduceEqDiff, if_false, List.append_nil] at hord
      rw [ordered_iff _ _ hfats] at hord
      have hend : b.tablesEnd ≤ u32 b.tablesEnd := hord.1 _ (List.mem_singleton_self _)
      have hcounted : b.tablesEnd < 2 ^ 32 := hend.trans_lt (u32_lt _)
      refine ⟨by rwa [hat], ?_⟩
      have hroom := hs.room
      simp only [u32_of_lt hcounted] at hroom hmany
      rw [Bpb.clusters, hat, if_pos hmany]
      exact hroom
    · intro hf
      have hcounted : b.tablesEnd < 2 ^ 32 := hat ▸ hf.counted
      have hcovered := hf.covered
      rw [u32_of_lt hcounted] at hlt hmany ⊢
      rw [Bpb.clusters, hat, if_pos hmany] at hcovered
      have hord : (Geometry.areas ⟨32, b.rootCluster, b.sectorsPerCluster, b.reservedSectors, b.numFats,
          b.totalSectors, b.fatSectors, b.reservedSectors, 0, 0, b.tablesEnd,
          (b.totalSectors - b.tablesEnd) / b.sectorsPerCluster, base, b.totalSectors⟩).Pairwise
          fun a b => a.1 + a.2 ≤ b.1 := by
        simp only [Geometry.areas, Nat.reduceEqDiff, if_false, List.append_nil]
        rw [ordered_iff _ _ hfats]
        exact ⟨fun a ha => (List.mem_singleton.mp ha) ▸ le_rfl, List.pairwise_singleton ..⟩
      exact ⟨hord, inside_of_ordered hord (clusters_inside hlt), by simpa using hcovered⟩
  · constructor
    · intro hs
      have hord := hs.ordered
      simp only [Geometry.areas, if_true, List.append_assoc, List.singleton_append] at hord
      rw [List.cons_append, ← List.cons_append, ordered_iff _ _ hfats] at hord
      have hend : b.tablesEnd ≤ u32 b.tablesEnd := hord.1 _ List.mem_cons_self
      have htables : u32 b.tablesEnd = b.tablesEnd := u32_of_lt (hend.trans_lt (u32_lt _))
      have hdata : u32 b.tablesEnd + (b.rootEntries * 32 + SECTOR_SIZE - 1) / SECTOR_SIZE ≤ u32 b.clustersAt :=
        (List.pairwise_cons.mp hord.2).1 _ (List.mem_singleton_self _)
      rw [htables] at hdata
      have hcounted : b.clustersAt < 2 ^ 32 := lt_of_le_of_lt hdata (u32_lt _)
      refine ⟨hcounted, ?_⟩
      have hroom := hs.room
      simp only [u32_of_lt hcounted] at hroom hfew
      rw [Bpb.clusters, if_neg hfew]
      exact hroom
    · intro hf
      have hcounted := hf.counted
      have htables : b.tablesEnd < 2 ^ 32 := lt_of_le_of_lt (Nat.le_add_right ..) hcounted
      have hcovered := hf.covered
      rw [u32_of_lt hcounted] at hlt hfew ⊢
      rw [u32_of_lt htables]
      rw [Bpb.clusters, if_neg hfew] at hcovered
      have hord : (Geometry.areas ⟨16, 0, b.sectorsPerCluster, b.reservedSectors, b.numFats, b.totalSectors,
          b.fatSectors, b.reservedSectors, b.tablesEnd, (b.rootEntries * 32 + SECTOR_SIZE - 1) / SECTOR_SIZE,
          b.clustersAt, (b.totalSectors - b.clustersAt) / b.sectorsPerCluster, base, b.totalSectors⟩).Pairwise
          fun a b => a.1 + a.2 ≤ b.1 := by
        simp only [Geometry.areas, if_true, List.append_assoc, List.singleton_append]
        rw [List.cons_append, ← List.cons_append, ordered_iff _ _ hfats]
        refine ⟨?_, ?_⟩
        · intro a ha
          rcases List.mem_cons.mp ha with rfl | ha
          · exact le_rfl
          · cases List.mem_singleton.mp ha
            exact Nat.le_add_right ..
        · refine List.pairwise_cons.mpr ⟨?_, List.pairwise_singleton ..⟩
          intro a ha
          cases List.mem_singleton.mp ha
          exact le_rfl
      exact ⟨hord, inside_of_ordered hord (clusters_inside hlt), by simpa using hcovered⟩

/-- **When a mounted volume is sane**, by what its boot sector says. -/
theorem mount_sane_iff {dev : Device} {base : Nat} {sec : Bytes} {g : Geometry} (hread : dev.read base = some sec)
    (h : fatMountAt dev base = some g) : g.Sane ↔ (bpbOf sec).Fits := by
  simp only [fatMountAt, hread] at h
  split at h
  · cases h
  · split at h
    · cases h
    · split at h
      · cases h
      · rename_i g' hlayout
        split at h
        · cases h
        · cases h
          exact layout_sane_iff hlayout

/-! ## A volume whose tables are too small -/

/-- A boot sector for a FAT16 volume with one copy of the table, `fats` sectors of it, and `total` sectors. -/
def sampleBoot (fats total : UInt8) : Bytes :=
  [0, 0, 0, 0, 0, 0, 0, 0, 0, 0, 0, 0, 2, 1, 1, 0, 1, 16, 0, 0, total, 0, fats] ++ List.replicate 487 0 ++ [0x55, 0xAA]

def sampleDevice (sec : Bytes) : Device := ⟨true, 0, fun _ => some sec⟩

theorem mount_sane_sample :
    ∃ g, fatMountAt (sampleDevice (sampleBoot 20 20)) 0 = some g ∧ (g.Sane ↔ (bpbOf (sampleBoot 20 20)).Fits) := by
  have hsome : (fatMountAt (sampleDevice (sampleBoot 20 20)) 0).isSome := by decide +kernel
  obtain ⟨g, hg⟩ := Option.isSome_iff_exists.mp hsome
  exact ⟨g, hg, mount_sane_iff rfl hg⟩

/-- Five thousand clusters, and a table of one sector. -/
theorem sampleBoot_uncovered :
    ∃ g, fatMountAt (sampleDevice (sampleBoot 1 20)) 0 = some g ∧ ¬ g.Sane := by
  have hsome : fatMountAt (sampleDevice (sampleBoot 1 20)) 0 =
      some ⟨16, 0, 1, 1, 1, 5120, 1, 1, 2, 1, 3, 5117, 0, 5120⟩ := by
    decide +kernel
  refine ⟨_, hsome, ?_⟩
  intro hs
  exact absurd hs.room (by decide)

end Zelr.Fat
