import Zelr.Fat.Entry

/-!
# Long names, written and read

The slots of a long name give the name back, and a name that is short when it is read was written whole
in one slot.
-/

namespace Zelr.Fat

variable {L : Bytes} {e : Dirent} {slots : List Dirent}

variable {us : List Nat} {sum want : UInt8} {units : Nat → Nat} {name : Bytes}

/-! ## One slot -/

theorem lfnSlot_marks : ∀ m < 6, ∀ last : Bool,
    ((UInt8.ofNat m ||| if last then LFN_LAST else 0) &&& 0x1F).toNat = m ∧
      (((UInt8.ofNat m ||| if last then LFN_LAST else 0) &&& LFN_LAST ≠ 0) ↔ last = true) ∧
      (m ≠ 0 → (UInt8.ofNat m ||| if last then LFN_LAST else 0) ≠ 0 ∧
        (UInt8.ofNat m ||| if last then LFN_LAST else 0) ≠ ENT_DELETED) := by
  decide +kernel

theorem lfnSlots_bounds (hlen : us.length ≤ 63) :
    lfnSlots us < 6 ∧ us.length ≤ LFN_CHARS * lfnSlots us ∧ LFN_CHARS * lfnSlots us < us.length + LFN_CHARS := by
  unfold lfnSlots LFN_CHARS
  omega

variable {i : Nat} {good : Bytes → Prop} {units' : Nat → Nat}

theorem lfnSlot_seq (hlen : us.length ≤ 63) (sum : UInt8) (hi : i < lfnSlots us) :
    (lfnSlot us sum i).seq = lfnSlots us - i := by
  obtain ⟨hsix, -, -⟩ := lfnSlots_bounds hlen
  have hmark := (lfnSlot_marks (lfnSlots us - i) (by omega) (decide (i = 0))).1
  simp only [decide_eq_true_eq] at hmark
  exact hmark

theorem lfnSlot_isLast (hlen : us.length ≤ 63) (sum : UInt8) (hi : i < lfnSlots us) :
    (lfnSlot us sum i).isLast = decide (i = 0) := by
  obtain ⟨hsix, -, -⟩ := lfnSlots_bounds hlen
  have hmark := (lfnSlot_marks (lfnSlots us - i) (by omega) (decide (i = 0))).2.1
  simp only [decide_eq_true_eq] at hmark
  exact decide_eq_decide.mpr hmark

theorem lfnSlot_kept (hlen : us.length ≤ 63) (sum : UInt8) (hi : i < lfnSlots us) :
    (lfnSlot us sum i).first ≠ ENT_FREE ∧ (lfnSlot us sum i).first ≠ ENT_DELETED := by
  obtain ⟨hsix, -, -⟩ := lfnSlots_bounds hlen
  have hmark := (lfnSlot_marks (lfnSlots us - i) (by omega) (decide (i = 0))).2.2 (by omega)
  simp only [decide_eq_true_eq] at hmark
  exact hmark

theorem lfnSlot_isLfn (us : List Nat) (sum : UInt8) (i : Nat) : (lfnSlot us sum i).isLfn = true := by
  show decide (ATTR_LFN &&& ATTR_LFN_MASK = ATTR_LFN) = true
  decide

theorem lfnSlot_checksum (us : List Nat) (sum : UInt8) (i : Nat) : (lfnSlot us sum i).checksum = sum := rfl

theorem lfnSlot_get (hus : ∀ u ∈ us, u < 65536) (sum : UInt8) (i : Nat) :
    lfnGet (lfnSlot us sum i) = chunkOf us (lfnSlots us - i - 1) :=
  lfnGet_lfnPut (chunkOf_length _ _) (chunkOf_lt hus _) _ _

/-! ## The slots of one name -/

def readTo (us : List Nat) (k : Nat) : Nat → Nat := fun i => if i < k then us.getD i 0 else 0

def NoFiller (us : List Nat) : Prop := ∀ u ∈ us, u < 65536 ∧ filler u = false

theorem NoFiller.getD (h : NoFiller us) (hi : i < us.length) :
    filler (us.getD i 0) = false ∧ us.getD i 0 ≠ 0 := by
  rw [List.getD_eq_getElem?_getD, List.getElem?_eq_getElem hi, Option.getD_some]
  have hfiller := (h _ (List.getElem_mem hi)).2
  refine ⟨hfiller, fun hzero => ?_⟩
  rw [hzero] at hfiller
  cases hfiller

theorem NoFiller.ne_zero (h : NoFiller us) : ∀ u ∈ us, u ≠ 0 := by
  rintro u hu rfl
  have hfiller := (h 0 hu).2
  cases hfiller

theorem storeUnits_chunk (h : NoFiller us) (hlen : us.length ≤ 63) (j : Nat) :
    storeUnits (j * LFN_CHARS) (chunkOf us j) (readTo us (j * LFN_CHARS)) = some (readTo us ((j + 1) * LFN_CHARS)) := by
  have hchunk := chunkOf_length us j
  unfold storeUnits
  rw [if_neg]
  · congr 1
    funext i
    rw [hchunk]
    unfold readTo
    by_cases hin : j * LFN_CHARS ≤ i ∧ i < j * LFN_CHARS + LFN_CHARS
    · have hk : i - j * LFN_CHARS < LFN_CHARS := by omega
      rw [chunkOf_getD us j hk, Nat.add_sub_cancel' hin.1, if_pos (show i < (j + 1) * LFN_CHARS by rw [Nat.succ_mul]; omega)]
      by_cases hi : i < us.length
      · rw [if_pos hi, if_pos ⟨hin.1, hin.2, by rw [(h.getD hi).1]; rfl⟩]
      · have hout : us.getD i 0 = 0 := by
          rw [List.getD_eq_getElem?_getD, List.getElem?_eq_none (by omega), Option.getD_none]
        rw [if_neg hi, hout, if_neg (show ¬ i < j * LFN_CHARS by omega)]
        split
        · exact ite_self 0
        · exact if_neg fun hall => nomatch hall.2.2
    · rw [if_neg fun hall => hin ⟨hall.1, hall.2.1⟩]
      have hmul : (j + 1) * LFN_CHARS = j * LFN_CHARS + LFN_CHARS := Nat.succ_mul _ _
      by_cases hlow : i < j * LFN_CHARS
      · rw [if_pos hlow, if_pos (by omega)]
      · rw [if_neg hlow, if_neg (by omega)]
  · rw [Bool.not_eq_true, List.any_eq_false]
    intro k hk hbad
    rw [hchunk] at hk
    have hk := List.mem_range.mp hk
    rw [Bool.and_eq_true, decide_eq_true_eq] at hbad
    have hmax : FAT_NAME_MAX = 64 := rfl
    have hbad1 := hbad.1
    rw [chunkOf_getD us j hk, if_neg (by omega)] at hbad1
    split at hbad1 <;> cases hbad1

theorem lfnScan_slots (h : NoFiller us) (hlen : us.length ≤ 63) (rest : List Dirent) {k j : Nat}
    (hk : k + 1 + j = lfnSlots us) :
    lfnScan sum (((List.range (k + 1)).map (lfnSlot us sum)).reverse ++ rest) (readTo us (j * LFN_CHARS)) =
      some (readTo us (lfnSlots us * LFN_CHARS)) := by
  induction k generalizing j with
  | zero =>
    have hseq := lfnSlot_seq hlen sum (show 0 < lfnSlots us by omega)
    have hlast := lfnSlot_isLast hlen sum (show 0 < lfnSlots us by omega)
    simp only [List.range_succ, List.range_zero, List.nil_append, List.map_cons, List.map_nil, List.reverse_cons,
      List.reverse_nil, List.cons_append, lfnScan]
    rw [if_neg, lfnSlot_get (fun u hu => (h u hu).1), hseq,
      show lfnSlots us - 0 - 1 = j by omega, storeUnits_chunk h hlen]
    · dsimp only
      rw [hlast, show j + 1 = lfnSlots us by omega]
      rfl
    · rw [lfnSlot_isLfn, lfnSlot_checksum, hseq]
      simp
      omega
  | succ k ih =>
    have hseq := lfnSlot_seq hlen sum (show k + 1 < lfnSlots us by omega)
    have hlast := lfnSlot_isLast hlen sum (show k + 1 < lfnSlots us by omega)
    rw [List.range_succ, List.map_append, List.map_singleton, List.reverse_append, List.reverse_singleton,
      List.singleton_append, List.cons_append, lfnScan, if_neg, lfnSlot_get (fun u hu => (h u hu).1), hseq,
      show lfnSlots us - (k + 1) - 1 = j by omega, storeUnits_chunk h hlen]
    · dsimp only
      rw [hlast, if_neg (by simp)]
      exact ih (by omega)
    · rw [lfnSlot_isLfn, lfnSlot_checksum, hseq]
      simp
      omega

/-! ## The name that comes back -/

theorem map_units {n : Nat} (hus : ∀ u ∈ us, u ≠ 0) (hlen : us.length < n) (hread : ∀ i < us.length, units i = us.getD i 0)
    (hend : units us.length = 0) : ((List.range n).map units).takeWhile (· ≠ 0) = us := by
  have hsplit : n = us.length + (1 + (n - us.length - 1)) := by omega
  rw [hsplit, List.range_add, List.map_append, List.map_map]
  have hfront : (List.range us.length).map units = us := by
    apply List.ext_getElem
    · rw [List.length_map, List.length_range]
    · intro i hi hi'
      rw [List.getElem_map, List.getElem_range, hread i hi', List.getD_eq_getElem?_getD,
        List.getElem?_eq_getElem hi', Option.getD_some]
  have hback : ((List.range (1 + (n - us.length - 1))).map (units ∘ fun i => us.length + i)).takeWhile (· ≠ 0) = [] := by
    rw [Nat.add_comm 1, List.range_succ_eq_map, List.map_cons, Function.comp_apply, Nat.add_zero, hend]
    exact List.takeWhile_cons_of_neg (by simp)
  rw [hfront, List.takeWhile_append_of_pos (by simpa using hus), hback, List.append_nil]

/-- What is needed of a name to be written the long way, and to be read back. -/
structure Long (name : Bytes) (us : List Nat) : Prop where
  units : utf8ToUnits name FAT_NAME_MAX = some us
  plain : 0 ∉ name
  nonempty : name ≠ []
  bytes : name.length < FAT_NAME_MAX
  nofill : 0xFFFF ∉ us

theorem zero_mem_utf8Put : (0 : UInt8) ∈ utf8Put 0 := by decide

theorem unitsOf_lt {cp : Nat} (h : Scalar cp) (hpos : cp ≠ 0) : ∀ u ∈ unitsOf cp, u < 65536 ∧ u ≠ 0 := by
  intro u hu
  rcases unitsOf_cases cp h with ⟨hsmall, hone⟩ | ⟨v, w, htwo, hv, hw, -⟩
  · rw [hone] at hu
    cases List.mem_singleton.mp hu
    exact ⟨hsmall, hpos⟩
  · rw [htwo] at hu
    rcases List.mem_cons.mp hu with rfl | hu
    · omega
    · cases List.mem_singleton.mp hu
      omega

theorem Long.facts (h : Long name us) :
    NoFiller us ∧ us.length ≤ 63 ∧ nameOfUnits us 0 = some name ∧ us ≠ [] := by
  obtain ⟨cps, hcps, rfl, rfl, -⟩ := unitsFrom_some h.units
  have hpos : ∀ cp ∈ cps, cp ≠ 0 := by
    rintro cp hcp rfl
    exact h.plain (List.mem_flatMap.mpr ⟨0, hcp, zero_mem_utf8Put⟩)
  have hback := nameOfUnits_flatMap hcps (by rw [Nat.zero_add]; exact h.bytes)
  have hle := length_le_nameOfUnits _ le_rfl hback
  have hbytes := h.bytes
  have hmax : FAT_NAME_MAX = 64 := rfl
  refine ⟨fun u hu => ?_, by omega, hback, fun hnil => ?_⟩
  · obtain ⟨cp, hcp, hmem⟩ := List.mem_flatMap.mp hu
    obtain ⟨hlt, hne⟩ := unitsOf_lt (hcps cp hcp) (hpos cp hcp) u hmem
    refine ⟨hlt, ?_⟩
    have hlast : u ≠ 0xFFFF := fun heq => h.nofill (heq ▸ hu)
    rw [filler, Bool.or_eq_false_iff, decide_eq_false_iff_not, decide_eq_false_iff_not]
    exact ⟨hne, hlast⟩
  · rw [hnil] at hback
    exact h.nonempty (Option.some.inj hback).symm

theorem nameFrom_units (h : Long name us) (hread : ∀ i < us.length, units i = us.getD i 0)
    (hend : units us.length = 0) : nameFrom units = some name := by
  obtain ⟨hfiller, hlen, hback, -⟩ := h.facts
  have hmax : FAT_NAME_MAX = 64 := rfl
  unfold nameFrom
  rw [map_units hfiller.ne_zero (by omega) hread hend, hback]
  cases hname : name with
  | nil => exact absurd hname h.nonempty
  | cons c s => rfl

theorem longNameOf_written (h : Long name us) (pre post : List Dirent) (e : Dirent) :
    longNameOf (pre ++ (List.range (lfnSlots us)).map (lfnSlot us (shortChecksum e.name)) ++ post)
      (pre.length + lfnSlots us) e = some name := by
  obtain ⟨hfiller, hlen, -, hne⟩ := h.facts
  obtain ⟨-, hfit, -⟩ := lfnSlots_bounds hlen
  have hpos : 0 < us.length := List.length_pos_iff.mpr hne
  obtain ⟨k, hk⟩ : ∃ k, lfnSlots us = k + 1 := by
    apply Nat.exists_eq_succ_of_ne_zero
    intro hzero
    rw [hzero, Nat.mul_zero] at hfit
    omega
  have htake : (pre ++ (List.range (lfnSlots us)).map (lfnSlot us (shortChecksum e.name)) ++ post).take
      (pre.length + lfnSlots us) = pre ++ (List.range (lfnSlots us)).map (lfnSlot us (shortChecksum e.name)) := by
    rw [List.take_append_of_le_length (by simp), List.take_of_length_le (by simp)]
  have hzero : (fun _ => 0 : Nat → Nat) = readTo us (0 * LFN_CHARS) := by
    funext i
    rw [Nat.zero_mul, readTo, if_neg (Nat.not_lt_zero i)]
  unfold longNameOf
  rw [if_neg (by omega), htake, List.reverse_append, hzero]
  have hscan := @lfnScan_slots us (shortChecksum e.name) hfiller hlen pre.reverse k 0 (by omega)
  rw [← hk] at hscan
  rw [hscan, Option.bind_some]
  refine nameFrom_units h (fun i hi => if_pos ?_) ?_
  · rw [Nat.mul_comm]
    omega
  · unfold readTo
    rw [List.getD_eq_getElem?_getD, List.getElem?_eq_none le_rfl, Option.getD_none, ite_self]

/-! ## Names that are short when they are read -/

/-- A slot that holds the first thirteen characters of a longer name, or the whole of a good one. -/
def Sane (good : Bytes → Prop) (e : Dirent) : Prop :=
  e.isLfn = true → e.seq = 1 →
    (e.isLast = false ∧ (lfnGet e).length = LFN_CHARS ∧ ∀ u ∈ lfnGet e, filler u = false) ∨
      (e.isLast = true ∧ ∃ name us, good name ∧ Long name us ∧ us.length ≤ LFN_CHARS ∧ lfnGet e = chunkOf us 0)

theorem lfnSlot_sane (h : Long name us) (hgood : good name) (sum : UInt8)
    (hi : i < lfnSlots us) : Sane good (lfnSlot us sum i) := by
  obtain ⟨hfiller, hlen, -, -⟩ := h.facts
  obtain ⟨-, hfit, htight⟩ := lfnSlots_bounds hlen
  intro _ hseq
  rw [lfnSlot_seq hlen sum hi] at hseq
  have hget := lfnSlot_get (fun u hu => (hfiller u hu).1) sum i
  rw [show lfnSlots us - i - 1 = 0 by omega] at hget
  rw [lfnSlot_isLast hlen sum hi, hget]
  have hchars : LFN_CHARS = 13 := rfl
  by_cases hzero : i = 0
  · refine .inr ⟨decide_eq_true hzero, name, us, hgood, h, ?_, rfl⟩
    rw [show lfnSlots us = 1 by omega] at hfit
    omega
  · refine .inl ⟨decide_eq_false hzero, chunkOf_length _ _, fun u hu => ?_⟩
    obtain ⟨k, hk, rfl⟩ := List.mem_map.mp hu
    have hk := List.mem_range.mp hk
    have hmore : LFN_CHARS * 2 ≤ LFN_CHARS * lfnSlots us := Nat.mul_le_mul_left _ (by omega)
    dsimp only
    rw [if_pos (by omega)]
    exact (hfiller.getD (by omega)).1

theorem nameFrom_zero (h : units 0 = 0) : nameFrom units = none := by
  unfold nameFrom
  rw [show FAT_NAME_MAX = 63 + 1 from rfl, List.range_succ_eq_map, List.map_cons, h,
    List.takeWhile_cons_of_neg (by simp)]
  rfl

theorem nameFrom_long (h : ∀ i < LFN_CHARS, units i ≠ 0) (hL : nameFrom units = some L) : 13 ≤ L.length := by
  unfold nameFrom at hL
  have hname : nameOfUnits (((List.range FAT_NAME_MAX).map units).takeWhile (· ≠ 0)) 0 = some L := by
    split at hL
    · cases hL
    · exact hL
  have hle := length_le_nameOfUnits _ le_rfl hname
  have hsplit : FAT_NAME_MAX = LFN_CHARS + 51 := rfl
  rw [hsplit, List.range_add, List.map_append, List.takeWhile_append_of_pos] at hle
  · rw [List.length_append, List.length_map, List.length_range, LFN_CHARS] at hle
    omega
  · intro u hu
    obtain ⟨i, hi, rfl⟩ := List.mem_map.mp hu
    simpa using h i (List.mem_range.mp hi)

theorem storeUnits_some {off : Nat} {chars : List Nat} (h : storeUnits off chars units = some units')
    (i : Nat) : units' i = if off ≤ i ∧ i < off + chars.length ∧ !filler (chars.getD (i - off) 0)
      then chars.getD (i - off) 0 else units i := by
  unfold storeUnits at h
  obtain ⟨-, h⟩ := Option.ite_none_left_eq_some.mp h
  cases h
  rfl

/-- The first thirteen places, while no slot that ends a name has been read. -/
def Begun (units : Nat → Nat) : Prop := (∀ i < LFN_CHARS, units i ≠ 0) ∨ ∀ i < LFN_CHARS, units i = 0

def Ended (good : Bytes → Prop) (units : Nat → Nat) : Prop :=
  Begun units ∨ ∃ name us, good name ∧ Long name us ∧ us.length < LFN_CHARS ∧
    (∀ i < us.length, units i = us.getD i 0) ∧ units us.length = 0

theorem storeUnits_sane (h : Sane good e) (hlfn : e.isLfn = true) (hseq : e.seq ≠ 0)
    (hbegun : Begun units)
    (hstore : storeUnits ((e.seq - 1) * LFN_CHARS) (lfnGet e) units = some units') :
    (e.isLast = false → Begun units') ∧ (e.isLast = true → Ended good units') := by
  have hread := storeUnits_some hstore
  by_cases hone : e.seq = 1
  · rw [hone, Nat.sub_self, Nat.zero_mul] at hread
    simp only [Nat.zero_le, true_and, Nat.zero_add, Nat.sub_zero] at hread
    rcases h hlfn hone with ⟨hlast, hlen, hfull⟩ | ⟨hlast, name, us, hgood, hlong, hus, hget⟩
    · have hall : Begun units' := by
        refine .inl fun i hi => ?_
        have hfill : filler ((lfnGet e).getD i 0) = false := by
          have hin : i < (lfnGet e).length := by
            rw [hlen]
            exact hi
          rw [List.getD_eq_getElem?_getD, List.getElem?_eq_getElem hin, Option.getD_some]
          exact hfull _ (List.getElem_mem hin)
        have hin : i < (lfnGet e).length := by
          rw [hlen]
          exact hi
        rw [hread i, if_pos ⟨by omega, by rw [hfill]; rfl⟩]
        intro hzero
        rw [hzero] at hfill
        cases hfill
      exact ⟨fun _ => hall, fun _ => .inl hall⟩
    · refine ⟨fun hnot => absurd hlast (by rw [hnot]; nofun), fun _ => ?_⟩
      obtain ⟨hfiller, -, -, -⟩ := hlong.facts
      have hchunk : (lfnGet e).length = LFN_CHARS := by rw [hget, chunkOf_length]
      have hplace : ∀ i < LFN_CHARS, (lfnGet e).getD i 0 = if i < us.length then us.getD i 0
          else if i = us.length then 0x0000 else 0xFFFF := by
        intro i hi
        rw [hget, chunkOf_getD us 0 hi, Nat.zero_mul, Nat.zero_add]
      have hchar : ∀ i < us.length, units' i = us.getD i 0 := by
        intro i hi
        rw [hread i, hplace i (by omega), if_pos hi, if_pos ⟨by omega, by rw [(hfiller.getD hi).1]; rfl⟩]
      have hkept : ∀ i < LFN_CHARS, us.length ≤ i → units' i = units i := by
        intro i hi hge
        rw [hread i, hplace i hi, if_neg (show ¬ i < us.length by omega)]
        split
        · exact if_neg fun hall => nomatch hall.2
        · exact if_neg fun hall => nomatch hall.2
      rcases hbegun with hnonzero | hzero
      · refine .inl (.inl fun i hi => ?_)
        by_cases hi' : i < us.length
        · rw [hchar i hi']
          exact (hfiller.getD hi').2
        · rw [hkept i hi (by omega)]
          exact hnonzero i hi
      · by_cases hshort : us.length < LFN_CHARS
        · exact .inr ⟨name, us, hgood, hlong, hshort, hchar, (hkept _ hshort le_rfl).trans (hzero _ hshort)⟩
        · refine .inl (.inl fun i hi => ?_)
          rw [hchar i (by omega)]
          exact (hfiller.getD (by omega)).2
  · have hsame : Begun units' := by
      have hoff : LFN_CHARS ≤ (e.seq - 1) * LFN_CHARS := Nat.le_mul_of_pos_left _ (by omega)
      have heq : ∀ i < LFN_CHARS, units' i = units i := fun i hi => by rw [hread i, if_neg (by omega)]
      rcases hbegun with hnonzero | hzero
      · exact .inl fun i hi => by rw [heq i hi]; exact hnonzero i hi
      · exact .inr fun i hi => by rw [heq i hi]; exact hzero i hi
    exact ⟨fun _ => hsame, fun _ => .inl hsame⟩

theorem lfnScan_sane (h : ∀ e ∈ slots, Sane good e) (hbegun : Begun units)
    (hscan : lfnScan want slots units = some units') : Ended good units' := by
  induction slots generalizing units with
  | nil => cases hscan
  | cons e slots ih =>
    unfold lfnScan at hscan
    obtain ⟨hgo, hscan⟩ := Option.ite_none_left_eq_some.mp hscan
    have hlfn : e.isLfn = true := by
      by_contra hnot
      exact hgo (by simp [hnot])
    have hseq : e.seq ≠ 0 := fun hzero => hgo (by simp [hzero])
    cases hstore : storeUnits ((e.seq - 1) * LFN_CHARS) (lfnGet e) units with
    | none =>
      rw [hstore] at hscan
      cases hscan
    | some next =>
      rw [hstore] at hscan
      obtain ⟨hgoing, hdone⟩ := storeUnits_sane (h e List.mem_cons_self) hlfn hseq hbegun hstore
      dsimp only at hscan
      cases hlast : e.isLast with
      | true =>
        rw [hlast] at hscan
        cases hscan
        exact hdone hlast
      | false =>
        rw [hlast] at hscan
        exact ih (fun x hx => h x (List.mem_cons_of_mem _ hx)) (hgoing hlast) hscan

theorem longNameOf_sane (h : ∀ e ∈ slots, Sane good e)
    (hL : longNameOf slots i e = some L) : 13 ≤ L.length ∨ good L := by
  unfold longNameOf at hL
  obtain ⟨-, hL⟩ := Option.ite_none_left_eq_some.mp hL
  obtain ⟨units, hscan, hname⟩ := Option.bind_eq_some_iff.mp hL
  have hended := lfnScan_sane (fun x hx => h x (List.mem_of_mem_take (List.mem_reverse.mp hx)))
    (.inr fun _ _ => rfl) hscan
  rcases hended with (hnonzero | hzero) | ⟨name, us, hgood, hlong, -, hread, hend⟩
  · exact .inl (nameFrom_long hnonzero hname)
  · rw [nameFrom_zero (hzero 0 (by decide))] at hname
    cases hname
  · rw [nameFrom_units hlong hread hend] at hname
    cases hname
    exact .inr hgood

end Zelr.Fat
