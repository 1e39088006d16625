import Zelr.Parts.Table

/-!
# What is recorded is what is on the disk

Each partition against the entry it was read from.
-/

namespace Zelr.Parts

open Fat

/-! ## The property -/

/-- A partition of at least one sector, wholly inside the disk. -/
structure Sound (d : Disk) (p : Part) : Prop where
  some_sectors : 1 ≤ p.sectors
  inside : p.start + p.sectors ≤ d.sectors

def ReadFrom {E : Type} (tells : E → Part → Prop) (es : List E) (d : Disk) (table : List Part) : Prop :=
  ∃ taken, taken.Sublist es ∧ List.Forall₂ (fun e p => tells e p ∧ Sound d p) taken table

def GptTells (e : GptEntry) (p : Part) : Prop :=
  p.start = e.firstLba ∧ p.start + p.sectors = e.lastLba + 1

def MbrTells (e : MbrEntry) (p : Part) : Prop := p.start = e.start ∧ p.sectors = e.sectors

def gptEntries (h : GptHeader) (array : Bytes) : List GptEntry :=
  (List.range h.entryCount).map (gptEntry array h.entrySize)

/-- A header and an entry array of the disk, both with the checksum they should have. -/
structure Checked (d : Disk) (h : GptHeader) (array : Bytes) : Prop where
  header : ∃ sec, blkRead d 1 1 = some sec ∧ h = gptHeader sec ∧
    (crc32 ((probe sec).take h.headerSize)).toNat = h.headerCrc
  array : blkRead d (u32 h.entryLba) h.arraySectors = some array ∧
    (crc32 (array.take h.arrayBytes)).toNat = h.entryCrc

def Faithful (d : Disk) (s : State) : Prop :=
  match s.scheme with
  | .none => s.table = []
  | .mbr => ∃ sec, blkRead d 0 1 = some sec ∧ ReadFrom MbrTells (mbrEntries sec) d s.table
  | .gpt => ∃ h array, Checked d h array ∧ ReadFrom GptTells (gptEntries h array) d s.table

/-! ## Which entries are taken -/

/-- An entry from sector zero to the last one a `u32` can name. -/
def WholeRange (e : GptEntry) : Prop := e.firstLba = 0 ∧ e.lastLba = 2 ^ 32 - 1

instance (e : GptEntry) : Decidable (WholeRange e) := instDecidableAnd

def Usable (d : Disk) (e : GptEntry) : Prop :=
  guidIsZero e.typeGuid = false ∧ e.firstLba ≤ e.lastLba ∧
    (e.lastLba < d.sectors ∨ WholeRange e)

instance (d : Disk) (e : GptEntry) : Decidable (Usable d e) := instDecidableAnd

theorem gptRange_eq (d : Disk) (e : GptEntry) :
    gptRange d e =
      if Usable d e then some (e.firstLba, u32 (e.lastLba - e.firstLba + 1)) else none := by
  have hpos := d.sectors_pos
  have hlt := d.sectors_lt
  unfold gptRange
  by_cases hguid : guidIsZero e.typeGuid = true
  · rw [if_pos hguid, if_neg (fun he => by simp [he.1] at hguid)]
  · by_cases horder : e.lastLba < e.firstLba
    · rw [if_neg hguid, if_pos horder, if_neg (fun he => Nat.not_le.mpr horder he.2.1)]
    · by_cases hrange : 0xFFFFFFFF < e.firstLba ∨ 0xFFFFFFFF < e.lastLba
      · have hno : ¬ Usable d e := by
          rintro ⟨-, -, hin⟩
          unfold WholeRange at hin
          omega
        rw [if_neg hguid, if_neg horder, if_pos hrange, if_neg hno]
      · have hstart : u32 e.firstLba = e.firstLba := Nat.mod_eq_of_lt (by omega)
        rw [if_neg hguid, if_neg horder, if_neg hrange]
        dsimp only
        rw [hstart]
        simp only [Bool.not_eq_true] at hguid
        by_cases hwhole : WholeRange e
        · obtain ⟨hfirst, hlast⟩ := hwhole
          have hzero : u32 (e.lastLba - e.firstLba + 1) = 0 := by rw [hfirst, hlast]; rfl
          rw [hzero, if_neg (by omega), if_pos ⟨hguid, by omega, Or.inr ⟨hfirst, hlast⟩⟩]
        · have hcount : u32 (e.lastLba - e.firstLba + 1) = e.lastLba - e.firstLba + 1 := by
            unfold WholeRange at hwhole
            exact Nat.mod_eq_of_lt (by omega)
          rw [hcount]
          by_cases hin : e.lastLba < d.sectors
          · rw [if_neg (by omega), if_pos ⟨hguid, by omega, Or.inl hin⟩]
          · rw [if_pos (by omega), if_neg (fun he => hin (he.2.2.resolve_right hwhole))]

variable {d : Disk} {e : GptEntry} {array : Bytes} {h : GptHeader} {table : List Part}

theorem gptTells_of_usable {p : Part} (he : Usable d e)
    (hwhole : ¬ WholeRange e) (hstart : p.start = e.firstLba)
    (hsectors : p.sectors = u32 (e.lastLba - e.firstLba + 1)) : GptTells e p ∧ Sound d p := by
  obtain ⟨-, horder, hin⟩ := he
  have hlast := hin.resolve_right hwhole
  have hlt := d.sectors_lt
  have hcount : u32 (e.lastLba - e.firstLba + 1) = e.lastLba - e.firstLba + 1 :=
    Nat.mod_eq_of_lt (by omega)
  rw [hcount] at hsectors
  exact ⟨⟨hstart, by omega⟩, ⟨by omega, by omega⟩⟩

/-! ## The loop over the slots -/

theorem add_room {d : Disk} {table : List Part} {start sectors : Nat} {mbrType : UInt8} {esp : Bool}
    {name : Bytes} (hroom : table.length < PARTS_MAX) :
    ∃ p, add d table start sectors mbrType esp name = table ++ [p] ∧ p.start = start ∧
      p.sectors = sectors := by
  unfold add
  rw [if_neg (Nat.not_le.mpr hroom)]
  exact ⟨_, rfl, rfl, rfl⟩

theorem gptSlot_eq {d : Disk} {e : GptEntry} {i : Nat} {table : List Part}
    (hroom : table.length < PARTS_MAX) :
    (¬ Usable d e ∧ gptSlot d e i table = table) ∨
    (Usable d e ∧ ∃ p, gptSlot d e i table = table ++ [p] ∧ p.start = e.firstLba ∧
      p.sectors = u32 (e.lastLba - e.firstLba + 1)) := by
  unfold gptSlot
  rw [gptRange_eq]
  by_cases he : Usable d e
  · rw [if_pos he]
    exact Or.inr ⟨he, add_room hroom⟩
  · rw [if_neg he]
    exact Or.inl ⟨he, rfl⟩

theorem gptSlots_eq (d : Disk) (array : Bytes) (entrySize left i : Nat) (table : List Part)
    (hroom : table.length ≤ PARTS_MAX) :
    ∃ ps, gptSlots d array entrySize left i table = table ++ ps ∧
      List.Forall₂ (fun e (p : Part) => p.start = e.firstLba ∧
          p.sectors = u32 (e.lastLba - e.firstLba + 1))
        ((((List.range' i left).map (gptEntry array entrySize)).filter (Usable d ·)).take
          (PARTS_MAX - table.length)) ps := by
  induction left generalizing i table with
  | zero => exact ⟨[], by simp [gptSlots], by simp⟩
  | succ left ih =>
    unfold gptSlots
    by_cases hfull : PARTS_MAX ≤ table.length
    · rw [if_pos hfull, Nat.sub_eq_zero_of_le hfull]
      exact ⟨[], by simp, by simp⟩
    · rw [if_neg hfull, List.range'_succ, List.map_cons]
      obtain ⟨he, hslot⟩ | ⟨he, p, hslot, hp⟩ :=
        @gptSlot_eq d (gptEntry array entrySize i) i table (by omega)
      · rw [hslot, List.filter_cons_of_neg (by simpa using he)]
        exact ih (i + 1) table hroom
      · obtain ⟨ps, hps, hall⟩ := ih (i + 1) (table ++ [p]) (by simp; omega)
        refine ⟨p :: ps, by rw [hslot, hps]; simp, ?_⟩
        rw [List.filter_cons_of_pos (by simpa using he),
          show PARTS_MAX - table.length = PARTS_MAX - (table ++ [p]).length + 1 by simp; omega,
          List.take_succ_cons]
        exact List.Forall₂.cons hp hall

def recorded (d : Disk) (h : GptHeader) (array : Bytes) : List GptEntry :=
  ((gptEntries h array).filter (Usable d ·)).take PARTS_MAX

theorem recorded_sublist (d : Disk) (h : GptHeader) (array : Bytes) :
    (recorded d h array).Sublist (gptEntries h array) :=
  (List.take_sublist _ _).trans List.filter_sublist

theorem recorded_usable
    (he : e ∈ recorded d h array) : Usable d e := by
  have hmem := List.mem_of_mem_take he
  rw [List.mem_filter] at hmem
  simpa using hmem.2

theorem readGpt_table (hread : readGpt d = .ok table) :
    ∃ h array, loadGpt d = .ok (h, array) ∧
      List.Forall₂ (fun e (p : Part) => p.start = e.firstLba ∧
        p.sectors = u32 (e.lastLba - e.firstLba + 1)) (recorded d h array) table := by
  unfold readGpt at hread
  split at hread
  · cases hread
  · next h array hload =>
    obtain ⟨ps, hps, hall⟩ := gptSlots_eq d array h.entrySize h.entryCount 0 [] (by simp)
    cases hread
    rw [hps]
    refine ⟨h, array, hload, ?_⟩
    simpa [recorded, gptEntries, List.range_eq_range'] using hall

theorem loadGpt_checked
    (hload : loadGpt d = .ok (h, array)) : Checked d h array := by
  unfold loadGpt at hload
  split at hload
  · cases hload
  · next sec hsec =>
    dsimp only at hload
    split at hload
    · cases hload
    · cases herror : gptHeaderError sec (gptHeader sec) with
      | some why => simp [herror] at hload
      | none =>
        rw [herror] at hload
        dsimp only at hload
        have hcrc : (crc32 ((probe sec).take (gptHeader sec).headerSize)).toNat =
            (gptHeader sec).headerCrc := by
          unfold gptHeaderError at herror
          by_contra hne
          rw [if_pos hne] at herror
          split at herror <;> cases herror
        split at hload
        · cases hload
        · next array' harray =>
          split at hload
          · cases hload
          · next hsum =>
            cases hload
            exact ⟨⟨sec, hsec, rfl, hcrc⟩, harray, not_not.mp hsum⟩

/-! ## The entries of a boot sector -/

theorem mbrTaken_sound {e : MbrEntry} (h : mbrTaken d e = true) :
    1 ≤ e.sectors ∧ e.start + e.sectors ≤ d.sectors := by
  have hpos := d.sectors_pos
  unfold mbrTaken at h
  split_ifs at h
  omega

theorem mbrSlots_eq {d : Disk} {es : List MbrEntry} {table : List Part}
    (hroom : table.length + es.length ≤ PARTS_MAX) :
    ∃ ps, es.foldl (mbrSlot d) table = table ++ ps ∧
      List.Forall₂ (fun e p => MbrTells e p ∧ Sound d p) (es.filter (mbrTaken d)) ps := by
  induction es generalizing table with
  | nil => exact ⟨[], by simp, by simp⟩
  | cons e es ih =>
    rw [List.length_cons] at hroom
    rw [List.foldl_cons]
    by_cases he : mbrTaken d e = true
    · have hslot : mbrSlot d table e =
          add d table e.start e.sectors e.type (e.type = 0xEF) (mbrTypeName e.type) := if_pos he
      obtain ⟨p, hp, hstart, hsectors⟩ := @add_room d table e.start e.sectors e.type
        (e.type = 0xEF) (mbrTypeName e.type) (by omega)
      obtain ⟨ps, hps, hall⟩ := @ih (table ++ [p]) (by simp; omega)
      obtain ⟨hsome, hinside⟩ := mbrTaken_sound he
      refine ⟨p :: ps, by rw [hslot, hp, hps]; simp, ?_⟩
      rw [List.filter_cons_of_pos he]
      exact List.Forall₂.cons ⟨⟨hstart, hsectors⟩, by omega, by omega⟩ hall
    · have hslot : mbrSlot d table e = table := if_neg he
      rw [hslot, List.filter_cons_of_neg he]
      exact ih (by omega)

theorem readMbr_faithful (h : readMbr d = some table) :
    ∃ sec, blkRead d 0 1 = some sec ∧ ReadFrom MbrTells (mbrEntries sec) d table := by
  unfold readMbr at h
  split at h
  · cases h
  · next sec hsec =>
    split at h
    · cases h
    · split at h
      · cases h
        obtain ⟨ps, hps, hall⟩ := @mbrSlots_eq d (mbrEntries sec) [] (by simp [mbrEntries, PARTS_MAX])
        rw [hps]
        exact ⟨sec, hsec, _, List.filter_sublist, hall⟩
      · cases h

/-! ## When a scan is faithful -/

/-- A GPT that is believed records an entry of the whole range. -/
def RecordsWhole (d : Disk) : Prop :=
  ∃ h array, loadGpt d = .ok (h, array) ∧ ∃ e ∈ recorded d h array, WholeRange e

theorem gpt_faithful
    (hall : List.Forall₂ (fun e (p : Part) => p.start = e.firstLba ∧
      p.sectors = u32 (e.lastLba - e.firstLba + 1)) (recorded d h array) table)
    (hwhole : ∀ e ∈ recorded d h array, ¬ WholeRange e) :
    ReadFrom GptTells (gptEntries h array) d table := by
  refine ⟨recorded d h array, recorded_sublist d h array, ?_⟩
  have hmem := (List.forall₂_and_left (recorded d h array) table).mpr ⟨fun e he => he, hall⟩
  refine hmem.imp ?_
  rintro e p ⟨he, hstart, hsectors⟩
  exact gptTells_of_usable (recorded_usable he) (hwhole e he) hstart hsectors

theorem gpt_not_faithful {es : List GptEntry}
    (hall : List.Forall₂ (fun e (p : Part) => p.start = e.firstLba ∧
      p.sectors = u32 (e.lastLba - e.firstLba + 1)) es table)
    (he : e ∈ es) (hwhole : WholeRange e) :
    ∃ p ∈ table, p.sectors = 0 := by
  induction hall with
  | nil => cases he
  | @cons e' p es ps hp hrest ih =>
    obtain rfl | he := List.mem_cons.mp he
    · refine ⟨p, List.mem_cons_self, ?_⟩
      rw [hp.2, hwhole.1, hwhole.2]
      rfl
    · obtain ⟨q, hq, hzero⟩ := ih he
      exact ⟨q, List.mem_cons_of_mem p hq, hzero⟩

theorem ReadFrom.sound {E : Type} {tells : E → Part → Prop} {es : List E}
    (h : ReadFrom tells es d table) {p : Part} (hp : p ∈ table) : Sound d p := by
  obtain ⟨taken, -, hall⟩ := h
  induction hall with
  | nil => cases hp
  | cons hhead _ ih =>
    obtain rfl | hp := List.mem_cons.mp hp
    · exact hhead.2
    · exact ih hp

theorem not_faithful_of_zero {s : State} (hscheme : s.scheme = .gpt)
    (hzero : 0 ∈ s.table.map Part.sectors) : ¬ Faithful d s := by
  intro hfaithful
  unfold Faithful at hfaithful
  rw [hscheme] at hfaithful
  obtain ⟨h, array, -, hread⟩ := hfaithful
  obtain ⟨p, hp, hnone⟩ := List.mem_map.mp hzero
  have hsome := (hread.sound hp).some_sectors
  omega

/-- Every partition of a scan is what its entry says, inside the disk, not empty, and of a checked table if that is a
GPT, exactly when no entry of the whole range is recorded. -/
theorem partsScan_faithful_iff (d : Disk) :
    Faithful d (partsScan (some d)) ↔ ¬ RecordsWhole d := by
  cases hgpt : readGpt d with
  | ok table =>
    obtain ⟨h, array, hload, hall⟩ := readGpt_table hgpt
    have hscan : partsScan (some d) = ⟨table, .gpt, ""⟩ := by simp [partsScan, hgpt]
    rw [hscan]
    constructor
    · rintro hfaithful ⟨h', array', hload', e, he, hwhole⟩
      rw [hload] at hload'
      cases hload'
      obtain ⟨p, hp, hzero⟩ := gpt_not_faithful hall he hwhole
      exact not_faithful_of_zero rfl (List.mem_map.mpr ⟨p, hp, hzero⟩) hfaithful
    · intro hwhole
      refine ⟨h, array, loadGpt_checked hload, gpt_faithful hall ?_⟩
      intro e he hrange
      exact hwhole ⟨h, array, hload, e, he, hrange⟩
  | error why =>
    have hnone : ¬ RecordsWhole d := by
      rintro ⟨h, array, hload, -⟩
      simp [readGpt, hload] at hgpt
    simp only [hnone, not_false_eq_true, iff_true]
    cases hmbr : readMbr d with
    | none =>
      have hscan : partsScan (some d) = ⟨[], .none, why⟩ := by simp [partsScan, hgpt, hmbr]
      rw [hscan]
      rfl
    | some table =>
      have hscan : partsScan (some d) = ⟨table, .mbr, why⟩ := by simp [partsScan, hgpt, hmbr]
      rw [hscan]
      exact readMbr_faithful hmbr

/-! ### A table of one entry

On a disk of a hundred sectors: the header in sector one, the entry in sector two. -/

def leBytes (k n : Nat) : Bytes := (List.range k).map fun i => UInt8.ofNat (n / 256 ^ i)

def sampleEntry (first last : Nat) : Bytes :=
  List.replicate 16 1 ++ List.replicate 16 0 ++ leBytes 8 first ++ leBytes 8 last ++
    List.replicate 80 0

def sampleHeader (headerCrc entryCrc : Nat) : Bytes :=
  ascii "EFI PART" ++ leBytes 4 0x10000 ++ leBytes 4 92 ++ leBytes 4 headerCrc ++
    List.replicate 52 0 ++ leBytes 8 2 ++ leBytes 4 1 ++ leBytes 4 128 ++ leBytes 4 entryCrc

def sampleDisk (first last : Nat) : Disk where
  sectors := 100
  sector i :=
    let entry := sampleEntry first last
    let header := sampleHeader 0 (crc32 entry).toNat
    let bytes := if i = 1 then sampleHeader (crc32 header).toNat (crc32 entry).toNat
      else if i = 2 then entry else []
    some (bytes ++ List.replicate (SECTOR_SIZE - bytes.length) 0)
  sectors_pos := by decide
  sectors_lt := by decide

def wholeDisk : Disk := sampleDisk 0 0xFFFFFFFF

theorem wholeDisk_scan : (partsScan (some wholeDisk)).scheme = .gpt ∧
    0 ∈ (partsScan (some wholeDisk)).table.map Part.sectors := by decide +kernel

theorem wholeDisk_not_faithful : ¬ Faithful wholeDisk (partsScan (some wholeDisk)) :=
  not_faithful_of_zero wholeDisk_scan.1 wholeDisk_scan.2

end Zelr.Parts
