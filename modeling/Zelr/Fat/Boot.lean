import Zelr.Fat.Format

/-!
# The boot sector read back

A mount takes from the boot sector what the formatter stored in it, and comes to the same layout.
-/

namespace Zelr.Fat

/-! ## Stores -/

section Stores

variable {buf data : Bytes} {off i k : Nat} {stores : List (Nat × Bytes)}

/-- Every store lies in the buffer, behind the one before it. -/
structure Ascending (size : Nat) (stores : List (Nat × Bytes)) : Prop where
  inside : ∀ s ∈ stores, s.1 + s.2.length ≤ size
  sorted : stores.Pairwise fun a b => a.1 + a.2.length ≤ b.1

theorem ascending_of_shape {size : Nat} {shape : List (Nat × Nat)} (hshape : stores.map (fun s => (s.1, s.2.length)) = shape)
    (hinside : ∀ a ∈ shape, a.1 + a.2 ≤ size) (hsorted : shape.Pairwise fun a b => a.1 + a.2 ≤ b.1) :
    Ascending size stores := by
  subst hshape
  exact ⟨fun s hs => hinside _ (List.mem_map_of_mem hs), List.pairwise_map.mp hsorted⟩

theorem byteAt_stores_beside (hin : ∀ s ∈ stores, s.1 + s.2.length ≤ buf.length)
    (hi : ∀ s ∈ stores, i < s.1 ∨ s.1 + s.2.length ≤ i) :
    byteAt (stores.foldl (fun sec s => put sec s.1 s.2) buf) i = byteAt buf i := by
  induction stores generalizing buf with
  | nil => rfl
  | cons s stores ih =>
    have hs := hin s List.mem_cons_self
    rw [List.foldl_cons, ih]
    · rcases hi s List.mem_cons_self with hlt | hle
      · exact byteAt_put_before (by omega) hlt
      · exact byteAt_put_behind hs hle
    · rw [put_length_eq hs]
      exact fun t ht => hin t (List.mem_cons_of_mem _ ht)
    · exact fun t ht => hi t (List.mem_cons_of_mem _ ht)

theorem byteAt_stores {s : Nat × Bytes} (h : Ascending buf.length stores) (hs : s ∈ stores) (hk : k < s.2.length) :
    byteAt (stores.foldl (fun sec s => put sec s.1 s.2) buf) (s.1 + k) = byteAt s.2 k := by
  induction stores generalizing buf with
  | nil => cases hs
  | cons t stores ih =>
    have ht := h.inside t List.mem_cons_self
    obtain ⟨hfirst, hsorted⟩ := List.pairwise_cons.mp h.sorted
    have hrest : ∀ s ∈ stores, s.1 + s.2.length ≤ (put buf t.1 t.2).length := by
      rw [put_length_eq ht]
      exact fun s hs => h.inside s (List.mem_cons_of_mem _ hs)
    rw [List.foldl_cons]
    rcases List.mem_cons.mp hs with rfl | hs
    · rw [byteAt_stores_beside hrest fun u hu => .inl (by have hle := hfirst u hu; omega)]
      exact byteAt_put_inside (by omega) hk
    · exact ih ⟨hrest, hsorted⟩ hs

end Stores

section Fields

variable {stores : List (Nat × Bytes)} {off n : Nat}

section
variable (h : Ascending SECTOR_SIZE stores)
include h

theorem byteAt_sectorOf {b : UInt8} (hs : (off, [b]) ∈ stores) :
    byteAt (sectorOf stores) off = b :=
  byteAt_stores (s := (off, [b])) (k := 0) (by rw [zeroSector, List.length_replicate]; exact h) hs Nat.one_pos

theorem u16At_sectorOf (hs : (off, le16 n) ∈ stores) (hn : n < 2 ^ 16) :
    u16At (sectorOf stores) off = n := by
  have hlen : Ascending zeroSector.length stores := by
    rw [zeroSector, List.length_replicate]
    exact h
  have hlow : byteAt (sectorOf stores) off = UInt8.ofNat n := byteAt_stores hlen hs (k := 0) Nat.two_pos
  have hhigh : byteAt (sectorOf stores) (off + 1) = UInt8.ofNat (n / 256) := byteAt_stores hlen hs (k := 1) Nat.one_lt_two
  rw [u16At, hlow, hhigh, UInt8.toNat_ofNat', UInt8.toNat_ofNat']
  omega

theorem u32At_sectorOf (hs : (off, le32 n) ∈ stores) (hn : n < 2 ^ 32) :
    u32At (sectorOf stores) off = n := by
  have hlen : Ascending zeroSector.length stores := by
    rw [zeroSector, List.length_replicate]
    exact h
  have hbyte : ∀ k, k < 4 → byteAt (sectorOf stores) (off + k) = byteAt (le32 n) k := fun k hk => byteAt_stores hlen hs hk
  rw [u32At, u16At, u16At, hbyte 1 (by decide), hbyte 2 (by decide), show off + 2 + 1 = off + 3 from rfl,
    hbyte 3 (by decide), show byteAt (sectorOf stores) off = byteAt (le32 n) 0 from hbyte 0 (by decide)]
  show (UInt8.ofNat n).toNat + (UInt8.ofNat (n / 256)).toNat * 2 ^ 8 +
    ((UInt8.ofNat (n / 2 ^ 16)).toNat + (UInt8.ofNat (n / 2 ^ 16 / 256)).toNat * 2 ^ 8) * 2 ^ 16 = n
  rw [UInt8.toNat_ofNat', UInt8.toNat_ofNat', UInt8.toNat_ofNat', UInt8.toNat_ofNat']
  omega

omit h in
theorem byteAt_zeroSector (i : Nat) : byteAt zeroSector i = 0 := by
  unfold byteAt zeroSector
  rw [List.getD_eq_getElem?_getD, List.getElem?_replicate]
  split <;> rfl

theorem byteAt_sectorOf_behind {i : Nat} (hi : ∀ s ∈ stores, s.1 + s.2.length ≤ i) :
    byteAt (sectorOf stores) i = 0 := by
  have hin : ∀ s ∈ stores, s.1 + s.2.length ≤ zeroSector.length := by
    rw [zeroSector, List.length_replicate]
    exact h.inside
  exact (byteAt_stores_beside hin fun s hs => .inr (hi s hs)).trans (byteAt_zeroSector i)

end

end Fields

/-! ## What the formatter stores -/

variable {l : Layout} {total base : Nat} {label : Option Bytes}

theorem labelField_length (label : Option Bytes) : (labelField label).length = 11 := by
  rw [labelField, blanks, List.length_append, List.length_replicate, List.length_map, List.length_take]
  omega

theorem bootStores_shape16 (h : l.bits = 16) : (bootStores l total label).map (fun s => (s.1, s.2.length)) =
    [(0, 3), (3, 8), (11, 2), (13, 1), (14, 2), (16, 1), (17, 2), (19, 2), (21, 1), (22, 2), (24, 2), (26, 2), (28, 4),
      (32, 4), (36, 1), (38, 1), (39, 4), (43, 11), (54, 8), (62, 25), (87, 71), (510, 2)] := by
  unfold bootStores Layout.codeAt
  rw [if_neg (by rw [h]; decide), if_neg (by rw [h]; decide), if_neg (by rw [h]; decide)]
  simp only [List.map_append, List.map_cons, List.map_nil, labelField_length]
  rfl

theorem bootStores_shape32 (h : l.bits = 32) : (bootStores l total label).map (fun s => (s.1, s.2.length)) =
    [(0, 3), (3, 8), (11, 2), (13, 1), (14, 2), (16, 1), (17, 2), (19, 2), (21, 1), (22, 2), (24, 2), (26, 2), (28, 4),
      (32, 4), (36, 4), (40, 2), (42, 2), (44, 4), (48, 2), (50, 2), (64, 1), (66, 1), (67, 4), (71, 11), (82, 8),
      (90, 25), (115, 71), (510, 2)] := by
  unfold bootStores Layout.codeAt
  rw [if_pos h, if_pos h, if_pos h]
  simp only [List.map_append, List.map_cons, List.map_nil, labelField_length]
  rfl

theorem Layout.Good.bits (h : l.Good total) : l.bits = 16 ∨ l.bits = 32 := by
  rcases h.width with ⟨hbits, -⟩ | ⟨hbits, -⟩
  · exact .inl hbits
  · exact .inr hbits

theorem bootStores_ascending (h : l.bits = 16 ∨ l.bits = 32) : Ascending SECTOR_SIZE (bootStores l total label) := by
  rcases h with h | h
  · exact ascending_of_shape (bootStores_shape16 h) (by decide) (by decide)
  · exact ascending_of_shape (bootStores_shape32 h) (by decide) (by decide)

theorem mem_bootStores {s : Nat × Bytes}
    (h : s ∈ [(0, [0xEB, UInt8.ofNat (l.codeAt - 2), 0x90]), (3, ascii "ZELR    "), (11, le16 SECTOR_SIZE),
      (13, [UInt8.ofNat l.spc]), (14, le16 l.reserved), (16, [2]), (17, le16 l.roots), (19, le16 0), (21, [0xF8]),
      (22, le16 (if l.bits = 32 then 0 else l.fsize)), (24, le16 32), (26, le16 8), (28, le32 0), (32, le32 total)]) :
    s ∈ bootStores l total label :=
  List.mem_append_left _ (List.mem_append_left _ (List.mem_append_left _ h))

theorem Layout.Good.spc_lt (h : l.Good total) : 4 ≤ l.spc ∧ l.spc ≤ 128 := by
  have hspc := h.spc
  simp only [List.mem_cons, List.not_mem_nil, or_false] at hspc
  omega

theorem Layout.Good.front (h : l.Good total) : l.reserved < 64 ∧ l.roots ≤ 512 := by
  rcases h.width with ⟨-, hreserved, hroots, -⟩ | ⟨-, hreserved, hroots, -⟩ <;> omega

theorem bpbOf_boot (h : l.Good total) (htotal : total < 2 ^ 32) :
    ∃ r, (l.bits = 32 → r = 2) ∧ bpbOf (sectorOf (bootStores l total label)) =
      ⟨SECTOR_SIZE, l.spc, l.reserved, 2, l.roots, total, l.fsize, r⟩ := by
  have hasc : Ascending SECTOR_SIZE (bootStores l total label) := bootStores_ascending h.bits
  obtain ⟨hreserved, hroots⟩ := h.front
  have hspc := h.spc_lt
  have hsize : u16At (sectorOf (bootStores l total label)) 11 = SECTOR_SIZE :=
    u16At_sectorOf hasc (mem_bootStores (by simp)) (by decide)
  have hper : (byteAt (sectorOf (bootStores l total label)) 13).toNat = l.spc := by
    rw [byteAt_sectorOf hasc (mem_bootStores (by simp) : (13, [UInt8.ofNat l.spc]) ∈ _), UInt8.toNat_ofNat']
    omega
  have hres : u16At (sectorOf (bootStores l total label)) 14 = l.reserved :=
    u16At_sectorOf hasc (mem_bootStores (by simp)) (by omega)
  have hfats : byteAt (sectorOf (bootStores l total label)) 16 = 2 :=
    byteAt_sectorOf hasc (mem_bootStores (by simp))
  have hroot : u16At (sectorOf (bootStores l total label)) 17 = l.roots :=
    u16At_sectorOf hasc (mem_bootStores (by simp)) (by omega)
  have hshort : u16At (sectorOf (bootStores l total label)) 19 = 0 :=
    u16At_sectorOf hasc (mem_bootStores (by simp)) (by decide)
  have hlong : u32At (sectorOf (bootStores l total label)) 32 = total :=
    u32At_sectorOf hasc (mem_bootStores (by simp)) htotal
  have htable := h.table
  have hsmall := h.small
  refine ⟨u32At (sectorOf (bootStores l total label)) 44, fun hbits => ?_, ?_⟩
  · refine u32At_sectorOf hasc ?_ (by decide)
    unfold bootStores
    rw [if_pos hbits, if_pos hbits]
    simp
  · unfold bpbOf
    rw [hsize, hper, hres, hfats, hroot, hshort, hlong, if_neg (by decide)]
    congr 1
    rcases h.width with ⟨hbits, -, -, -, -, hfew⟩ | ⟨hbits, -⟩
    · have h16 : u16At (sectorOf (bootStores l total label)) 22 = l.fsize := by
        refine u16At_sectorOf hasc (mem_bootStores ?_) hfew
        rw [if_neg (by rw [hbits]; decide)]
        simp
      rw [h16, if_pos (by omega)]
    · have h16 : u16At (sectorOf (bootStores l total label)) 22 = 0 := by
        refine u16At_sectorOf hasc (mem_bootStores ?_) (by decide)
        rw [if_pos hbits]
        simp
      have h32 : u32At (sectorOf (bootStores l total label)) 36 = l.fsize := by
        refine u32At_sectorOf hasc ?_ (by omega)
        unfold bootStores
        rw [if_pos hbits, if_pos hbits]
        simp
      rw [h16, h32, if_neg (by decide)]

/-! ## The same layout -/

/-- What is mounted of a volume that was made so. -/
def Layout.geometry (l : Layout) (total base : Nat) : Geometry where
  fatBits := l.bits
  rootCluster := if l.bits = 32 then 2 else 0
  sectorsPerCluster := l.spc
  reservedSectors := l.reserved
  numFats := 2
  totalSectors := total
  fatSectors := l.fsize
  fatStart := l.reserved
  rootStart := if l.bits = 32 then 0 else l.reserved + 2 * l.fsize
  rootSectors := (l.roots * 32 + SECTOR_SIZE - 1) / SECTOR_SIZE
  dataStart := l.dataStart
  clusterCount := l.clusters
  partBase := base
  partSectors := total

theorem layout_boot (h : l.Good total) (htotal : total < 2 ^ 32) :
    layout (bpbOf (sectorOf (bootStores l total label))) base = some (l.geometry total base) := by
  obtain ⟨r, hr, hbpb⟩ := @bpbOf_boot l total label h htotal
  obtain ⟨hreserved, hroots⟩ := h.front
  have hspc := h.spc_lt
  have htable := h.table
  have hsmall := h.small
  have hroom := h.room
  have hclusters := h.clusters
  unfold Layout.dataStart at hroom hclusters
  rw [hbpb]
  unfold layout Layout.geometry Layout.dataStart
  dsimp only
  have htables : u32 (l.reserved + u32 (2 * l.fsize)) = l.reserved + 2 * l.fsize := by
    rw [u32_add_u32, u32_of_lt]
    omega
  have hdata : u32 (l.reserved + 2 * l.fsize + (l.roots * 32 + SECTOR_SIZE - 1) / SECTOR_SIZE) =
      l.reserved + 2 * l.fsize + (l.roots * 32 + SECTOR_SIZE - 1) / SECTOR_SIZE := u32_of_lt (hroom.trans htotal)
  rw [if_neg (not_not.mpr rfl), if_neg (by omega), htables, hdata, if_neg (Nat.not_le.mpr hroom), ← hclusters]
  rcases h.width with ⟨hbits, -, hroots, hleast, hmost, -⟩ | ⟨hbits, -, hroots, hleast, hmost⟩
  · rw [if_neg (by omega), if_neg (by omega), if_neg (by omega), hbits]
    rfl
  · rw [hroots] at hroom hclusters ⊢
    rw [show l.reserved + 2 * l.fsize + (0 * 32 + SECTOR_SIZE - 1) / SECTOR_SIZE = l.reserved + 2 * l.fsize from rfl]
      at hroom hclusters ⊢
    rw [if_neg (by omega), if_pos (by omega), if_neg (not_not.mpr rfl), if_neg (Nat.not_le.mpr hroom), ← hclusters,
      hr hbits, u32_of_lt (by omega), if_neg (by omega), hbits]
    rfl

theorem Layout.Good.sane (h : l.Good total) (htotal : total < 2 ^ 32) : (l.geometry total base).Sane := by
  refine (layout_sane_iff (@layout_boot l total base none h htotal)).mpr ?_
  obtain ⟨r, -, hbpb⟩ := @bpbOf_boot l total none h htotal
  have hat : (bpbOf (sectorOf (bootStores l total none))).clustersAt = l.dataStart := by rw [hbpb]; rfl
  have hclusters : (bpbOf (sectorOf (bootStores l total none))).clusters = l.clusters := by
    rw [Bpb.clusters, hat, hbpb, h.clusters]
  refine ⟨?_, ?_⟩
  · rw [hat]
    exact h.room.trans htotal
  · rw [hclusters, hbpb]
    have hcovered := h.covered
    rcases h.width with ⟨hbits, -, -, -, hmost, -⟩ | ⟨hbits, -, -, hleast, -⟩
    · rw [hbits] at hcovered
      rw [if_neg (by omega)]
      exact hcovered
    · rw [hbits] at hcovered
      rw [if_pos (by omega)]
      exact hcovered

end Zelr.Fat
