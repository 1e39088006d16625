import Zelr.Js.Positions

/-!
# Strings that are asked

What a string keeps of its length is no less than its units, so no unit is taken to be past its end,
and the cache is at a character of a string there was.
-/

namespace Zelr.Js

open Coding

variable {k i j lo hi stop : Nat} {b a t : Jstr} {α : Type} {front back : Bytes}

/-- A string's count, once it has one, is no less than its units, and no more than the field holds. -/
structure Jstr.Sound (s : Jstr) : Prop where
  small : s.bytes.length ≤ MEM_MAX
  units : s.units = 0 ∨ ∃ k, s.units = unitsField k (anyWide s.bytes) ∧ (utf16.decode s.bytes).length ≤ k ∧
    (k ≤ s.bytes.length ∨ k + 6 ≤ 3 * s.bytes.length)

/-- Two strings at one address that are as long and hash alike are the same. -/
def Strings.Told (S : Strings) : Prop :=
  ∀ s ∈ S.live, ∀ t ∈ S.live, s.addr = t.addr → s.bytes.length = t.bytes.length → s.hash = t.hash → s.bytes = t.bytes

instance (S : Strings) : Decidable S.Told := inferInstanceAs (Decidable (∀ s ∈ S.live, _))

def UCache.Sound (live : List Jstr) (J : UCache) : Prop :=
  (J.len = 0 ∧ J.u = 0) ∨
    ∃ s ∈ live, J.s = s.addr ∧ J.len = s.bytes.length ∧ J.hash = s.hash ∧ At s.bytes J.u J.b

structure Strings.Sound (S : Strings) : Prop where
  cache : S.cache.Sound S.live
  live : ∀ s ∈ S.live, s.Sound
  told : S.Told

/-! ## Counts -/

section
variable {s : Jstr}

theorem unitsField_mod (hk : k + 1 < JS_UWIDE) (wide : Bool) : unitsField k wide % JS_UWIDE - 1 = k := by
  unfold unitsField
  unfold JS_UWIDE at hk ⊢
  split <;> omega

theorem unitsField_wide (hk : k + 1 < JS_UWIDE) (wide : Bool) : decide (unitsField k wide < JS_UWIDE) = !wide := by
  unfold unitsField
  unfold JS_UWIDE at hk ⊢
  cases wide
  · exact decide_eq_true (by simpa using hk)
  · exact decide_eq_false (by simp)

theorem Jstr.Sound.counted (h : s.Sound) : ∃ k, s.counted.units = unitsField k (anyWide s.bytes) ∧ k + 1 < JS_UWIDE ∧
    (utf16.decode s.bytes).length ≤ k ∧ (k ≤ s.bytes.length ∨ k + 6 ≤ 3 * s.bytes.length) := by
  have hsmall := h.small
  unfold MEM_MAX at hsmall
  unfold Jstr.counted JS_UWIDE
  split
  · have hle := decode_length_le s.bytes
    rw [jsUcount_eq]
    exact ⟨_, rfl, by omega, le_rfl, .inl hle⟩
  · rename_i hzero
    obtain ⟨k, hunits, hle, hmost⟩ := h.units.resolve_left hzero
    exact ⟨k, hunits, by omega, hle, hmost⟩

theorem Jstr.Sound.jsUnits (h : s.Sound) : (utf16.decode s.bytes).length ≤ jsUnits s ∧
    (jsUnits s ≤ s.bytes.length ∨ jsUnits s + 6 ≤ 3 * s.bytes.length) := by
  obtain ⟨k, hunits, hfits, hle, hmost⟩ := h.counted
  rw [Js.jsUnits, hunits, unitsField_mod hfits]
  exact ⟨hle, hmost⟩

theorem Jstr.Sound.jsUbytes (h : s.Sound) : jsUbytes s = !anyWide s.bytes := by
  obtain ⟨k, hunits, hfits, -⟩ := h.counted
  rw [Js.jsUbytes, hunits, unitsField_wide hfits]

theorem Jstr.Sound.ascii (h : s.Sound) (hbytes : Js.jsUbytes s = true) : ∀ a ∈ s.bytes, a.toNat < 0x80 := by
  rw [h.jsUbytes, Bool.not_eq_true'] at hbytes
  exact (anyWide_false s.bytes).mp hbytes

theorem counted_bytes (s : Jstr) : s.counted.bytes = s.bytes ∧ s.counted.addr = s.addr ∧ s.counted.hash = s.hash := by
  unfold Jstr.counted
  split <;> exact ⟨rfl, rfl, rfl⟩

theorem Jstr.Sound.asked (h : s.Sound) : s.counted.Sound := by
  obtain ⟨k, hunits, -, hle, hmost⟩ := h.counted
  obtain ⟨hbytes, -, -⟩ := counted_bytes s
  constructor
  · rw [hbytes]
    exact h.small
  · rw [hbytes]
    exact .inr ⟨k, hunits, hle, hmost⟩

end

/-! ## Queries -/

section
variable {S : Strings} {J : UCache} {s : Jstr} (hS : S.Sound) (hJ : J.Sound S.live) (hs : s ∈ S.live)
include hS hJ hs

theorem cache_at (hcache : jsUcacheOk J s) : At s.bytes J.u J.b := by
  obtain ⟨hJs, hlen, hhash, hb⟩ := hcache
  rcases hJ with ⟨hzero, hu⟩ | ⟨t, ht, hts, htlen, hthash, hat⟩
  · have hnil : s.bytes = [] := List.length_eq_zero_iff.mp (hlen ▸ hzero)
    rw [hnil] at hb ⊢
    rw [hu, Nat.le_zero.mp hb]
    exact At.zero []
  · rw [hS.told s hs t ht (hJs ▸ hts) (hlen ▸ htlen) (hhash ▸ hthash)]
    exact hat

omit hS hJ in
theorem cached_sound {b : Nat} (h : At s.bytes k b) : UCache.Sound S.live ⟨s.addr, s.bytes.length, s.hash, k, b⟩ :=
  .inr ⟨s, hs, rfl, rfl, rfl, h⟩

theorem jsUbyte_eq (u : Nat) :
    (jsUbyte J s u).1 = ((utf16.place s.bytes u).1, decide (0 < (utf16.place s.bytes u).2)) ∧
      (jsUbyte J s u).2.Sound S.live := by
  have hsound := hS.live s hs
  unfold jsUbyte
  split
  · rename_i hbytes
    rw [place_ascii (hsound.ascii hbytes)]
    refine ⟨?_, hJ⟩
    rw [Prod.mk.injEq]
    refine ⟨?_, rfl⟩
    split <;> omega
  · split
    · rename_i hpast
      rw [place_past utf16_lawful (hsound.jsUnits.1.trans hpast)]
      exact ⟨rfl, hJ⟩
    · dsimp only
      generalize hstart : (if jsUcacheOk J s ∧ (J.u ≤ u ∨ J.u - u < u) then ubyteBack s.bytes u J.b J.u J.b else (0, 0)) = start
      have hat : At s.bytes start.1 start.2 ∧ start.1 ≤ u := by
        subst hstart
        split
        · rename_i hcache
          exact ubyteBack_at (cache_at hS hJ hs hcache.1) le_rfl
        · exact ⟨At.zero s.bytes, Nat.zero_le u⟩
      rw [ubyteOn_eq hat.1 hat.2 le_rfl]
      exact ⟨rfl, cached_sound hs ⟨place_spot utf16_lawful u, rfl⟩⟩

theorem jsUunit_eq (b : Nat) :
    (jsUunit J s b).1 = utf16.before s.bytes b ∧ (jsUunit J s b).2.Sound S.live := by
  have hsound := hS.live s hs
  have hmin : utf16.before s.bytes (min b s.bytes.length) = utf16.before s.bytes b := by
    rcases Nat.le_total b s.bytes.length with h | h
    · rw [Nat.min_eq_left h]
    · rw [Nat.min_eq_right h, before_end utf16_lawful le_rfl, before_end utf16_lawful h]
  unfold jsUunit
  dsimp only
  split
  · rename_i hbytes
    rw [before_ascii (hsound.ascii hbytes)]
    exact ⟨rfl, hJ⟩
  · rw [← hmin]
    have hle := Nat.min_le_right b s.bytes.length
    generalize min b s.bytes.length = b at hle ⊢
    generalize hstart : (if jsUcacheOk J s ∧ J.b ≤ b then (J.u, J.b) else (0, 0)) = start
    have hat : At s.bytes start.1 start.2 ∧ start.2 ≤ b := by
      subst hstart
      split
      · rename_i hcache
        exact ⟨cache_at hS hJ hs hcache.1, hcache.2⟩
      · exact ⟨At.zero s.bytes, Nat.zero_le b⟩
    obtain ⟨hbefore, hspot⟩ := uunitOn_eq hat.1 hle le_rfl fun h => by
      rw [← hat.1.2, Nat.le_antisymm h hat.2]
    refine ⟨hbefore, ?_⟩
    split
    · rename_i hsame
      rw [hbefore]
      exact cached_sound hs ⟨hspot hsame, rfl⟩
    · exact hJ

theorem jsUcode_eq {u : Nat} (hu : u < (utf16.decode s.bytes).length) :
    (utf16.decode s.bytes)[u]? = some (jsUcode J s u).1 ∧ (jsUcode J s u).2.Sound S.live := by
  obtain ⟨hbyte, hcache⟩ := jsUbyte_eq hS hJ hs u
  have hat := decode_at utf16_lawful hu
  obtain ⟨-, -, -, hin⟩ := place_inside utf16_lawful hu
  unfold jsUcode
  split
  · rename_i hbytes
    rw [decode_ascii ((hS.live s hs).ascii hbytes)] at hu ⊢
    rw [List.length_map] at hu
    refine ⟨?_, hJ⟩
    rw [List.getElem?_map, byteAt_isSome hu]
    rfl
  · dsimp only
    rw [hbyte]
    refine ⟨?_, hcache⟩
    rw [hat]
    dsimp only
    generalize utf16.place s.bytes u = p at hin ⊢
    change p.2 < (codeUnits (jsUchar (s.bytes.drop p.1)).2).length at hin
    change (codeUnits (jsUchar (s.bytes.drop p.1)).2)[p.2]? = _
    generalize (jsUchar (s.bytes.drop p.1)).2 = cp at hin ⊢
    unfold codeUnits at hin ⊢
    split
    · rename_i hlow
      rw [if_pos hlow] at hin
      have h : p.2 = 0 := by simpa using hin
      rw [h]
      rfl
    · rename_i hhigh
      rw [if_neg hhigh] at hin
      obtain h | h : p.2 = 0 ∨ p.2 = 1 := by
        change p.2 < 2 at hin
        omega
      · rw [h]
        rfl
      · rw [h]
        rfl

end

/-! ## Cutting out -/

section
variable {s : Bytes}

variable {cu u b : Nat}

theorem decode_half (hlow : 0xD800 ≤ cu) (hhigh : cu < 0xE000) (t : Bytes) :
    utf16.decode (jsUhalf cu ++ t) = cu :: utf16.decode t := by
  rw [decode, chars_half hlow hhigh]
  rfl

theorem half_wide (hlow : 0xD800 ≤ cu) (hhigh : cu < 0xE000) : anyWide (jsUhalf cu) = true := by
  rw [jsUhalf, anyWide_cons, decide_eq_true, Bool.true_or]
  rw [UInt8.toNat_ofNat']
  omega

theorem decode_onto_half (m : Bytes) (hlow : 0xD800 ≤ cu) (hhigh : cu < 0xE000) :
    utf16.decode (m ++ jsUhalf cu) = utf16.decode m ++ [cu] := by
  have hhead : ∀ a ∈ (jsUhalf cu).head?, ¬ IsTail a := by
    rintro a ⟨⟩
    apply lead_not_tail
    rw [UInt8.toNat_ofNat']
    omega
  have hhalf := decode_half hlow hhigh []
  rw [List.append_nil] at hhalf
  rw [decode, chars_append utf16_lawful hhead, List.flatMap_append]
  exact congrArg _ hhalf

theorem place_half (hhalf : 0 < (utf16.place s u).2) :
    At s (u - 1) (utf16.place s u).1 ∧ At s (u + 1) ((utf16.place s u).1 + 4) ∧ u < (utf16.decode s).length ∧
      ∃ hi lo, (utf16.decode s)[u - 1]? = some hi ∧ (utf16.decode s)[u]? = some lo ∧ 0xD800 ≤ hi ∧ hi < 0xE000 ∧
        0xD800 ≤ lo ∧ lo < 0xE000 := by
  have hlt : u < (utf16.decode s).length := by
    by_contra hpast
    rw [place_past utf16_lawful (Nat.le_of_not_lt hpast)] at hhalf
    exact lt_irrefl 0 hhalf
  obtain ⟨hspot, hend, hunit, hin⟩ := place_inside utf16_lawful hlt
  have hat := decode_at utf16_lawful hlt
  have hdrop := decode_drop utf16_lawful hspot
  rw [decode_step utf16_lawful (drop_ne_nil hend)] at hdrop
  have hnext := At.next ⟨hspot, rfl⟩ hend
  generalize hp : utf16.place s u = p at hhalf hspot hend hunit hin hat hdrop hnext ⊢
  have hsize := jsSize_eq (s.drop p.1)
  obtain ⟨hfour, htwo⟩ : (jsUchar (s.drop p.1)).1 = 4 ∧ jsSize (s.drop p.1) = 2 := by
    unfold jsSize at hsize ⊢
    split at hsize
    · rename_i hfour
      exact ⟨hfour, if_pos hfour⟩
    · omega
  rw [hfour, htwo] at hnext
  obtain ⟨hone, hbefore⟩ : p.2 = 1 ∧ utf16.before s p.1 = u - 1 := by omega
  have hunits : utf16.units (s.drop p.1) =
      [0xD800 + ((jsUchar (s.drop p.1)).2 - 0x10000) / 1024, 0xDC00 + ((jsUchar (s.drop p.1)).2 - 0x10000) % 1024] := by
    change codeUnits _ = _
    unfold codeUnits
    apply if_neg
    intro hlow
    change p.2 < (codeUnits _).length at hin
    rw [codeUnits, if_pos hlow] at hin
    rw [hone] at hin
    exact lt_irrefl 1 hin
  have hcp : (jsUchar (s.drop p.1)).2 < 0x200000 := by
    rcases kinds (s.drop p.1) with ⟨h2, h3, h4⟩ | h | h | h
    · rw [jsUchar_one h2 h3 h4] at hfour
      cases hfour
    · rw [jsUchar_two h] at hfour
      cases hfour
    · rw [jsUchar_three h] at hfour
      cases hfour
    · rw [jsUchar_four h]
      dsimp only
      omega
  rw [hunits] at hat hdrop
  rw [hone] at hat
  have hfirst := congrArg (·[0]?) hdrop
  simp only [List.cons_append, List.getElem?_cons_zero, List.getElem?_drop, Nat.add_zero, hbefore] at hfirst
  refine ⟨⟨hspot, hbefore⟩, ?_, hlt, _, _, hfirst.symm, hat, by omega, by omega, by omega, by omega⟩
  rw [show u + 1 = utf16.before s p.1 + 2 by omega]
  exact hnext

theorem place_whole (hu : u ≤ (utf16.decode s).length) (hhalf : (utf16.place s u).2 = 0) :
    At s u (utf16.place s u).1 := by
  have hunit := place_unit utf16_lawful hu
  rw [hhalf] at hunit
  exact ⟨place_spot utf16_lawful u, hunit⟩

theorem At.le {k' b' : Nat} (h : At s k b) (h' : At s k' b') (hle : k ≤ k') : b ≤ b' := by
  by_contra hlt
  obtain ⟨hspot, rfl⟩ := h
  obtain ⟨hspot', rfl⟩ := h'
  have hend := hspot.le utf16_lawful
  obtain ⟨-, hmono⟩ := decode_slice utf16_lawful hspot' hspot (by omega)
  have hne : s.drop b' ≠ [] := drop_ne_nil (by omega)
  have hsome := List.length_pos_iff.mpr (utf16_lawful.some_unit _ hne)
  have hfrom := before_from utf16_lawful hspot' (b - b')
  rw [Nat.add_sub_cancel' (by omega), before_step utf16_lawful hne (by omega)] at hfrom
  omega

theorem At.place (h : At s k b) : utf16.place s k = (b, 0) := by
  have hplace := place_from utf16_lawful h.1 h.2.le
  have hzero : utf16.place (s.drop b) 0 = (0, 0) := by
    by_cases hne : s.drop b = []
    · rw [hne]
      rfl
    · have hsome := List.length_pos_iff.mpr (utf16_lawful.some_unit _ hne)
      rw [place_step utf16_lawful hne, if_pos hsome]
  rw [h.2, Nat.sub_self, hzero] at hplace
  exact hplace

theorem slice_split (X : List α) {m : Nat} (him : i ≤ m) (hmj : m ≤ j) :
    (X.drop i).take (j - i) = (X.drop i).take (m - i) ++ (X.drop m).take (j - m) := by
  rw [show j - i = (m - i) + (j - m) by omega, List.take_add, List.drop_drop, Nat.add_sub_cancel' him]

theorem slice_one {X : List α} {a : α} (h : X[i]? = some a) : (X.drop i).take (i + 1 - i) = [a] := by
  obtain ⟨hlt, rfl⟩ := List.getElem?_eq_some_iff.mp h
  rw [Nat.add_sub_cancel_left, List.drop_eq_getElem_cons hlt]
  rfl

theorem cut_front (hu : u ≤ (utf16.decode s).length)
    (hlo : 0 < (utf16.place s u).2 → (utf16.decode s)[u]? = some lo)
    (hfront : front = if 0 < (utf16.place s u).2 then jsUhalf lo else [])
    (hb : b = if 0 < (utf16.place s u).2 then (utf16.place s u).1 + 4 else (utf16.place s u).1) :
    anyWide front = decide (0 < (utf16.place s u).2) ∧ ∃ m, u ≤ m ∧ m ≤ u + 1 ∧ At s m b ∧
      ∀ t, utf16.decode (front ++ t) = ((utf16.decode s).drop u).take (m - u) ++ utf16.decode t := by
  by_cases hhalf : 0 < (utf16.place s u).2
  · obtain ⟨-, hnext, -, -, lo', -, hlo', -, -, hlow, hhigh⟩ := place_half hhalf
    obtain rfl : lo' = lo := Option.some.inj (hlo'.symm.trans (hlo hhalf))
    rw [if_pos hhalf] at hfront hb
    rw [hfront, hb, decide_eq_true hhalf]
    refine ⟨half_wide hlow hhigh, u + 1, Nat.le_succ u, le_rfl, hnext, fun t => ?_⟩
    rw [decode_half hlow hhigh, slice_one hlo']
    rfl
  · rw [if_neg hhalf] at hfront hb
    rw [hfront, hb, decide_eq_false hhalf]
    refine ⟨rfl, u, le_rfl, Nat.le_succ u, place_whole hu (by omega), fun t => ?_⟩
    rw [Nat.sub_self, List.take_zero]
    rfl

theorem cut_back (hu : u ≤ (utf16.decode s).length)
    (hhi : 0 < (utf16.place s u).2 → (utf16.decode s)[u - 1]? = some hi)
    (hback : back = if 0 < (utf16.place s u).2 then jsUhalf hi else []) :
    anyWide back = decide (0 < (utf16.place s u).2) ∧ ∃ m, m ≤ u ∧ u ≤ m + 1 ∧ At s m (utf16.place s u).1 ∧
      ∀ t, utf16.decode (t ++ back) = utf16.decode t ++ ((utf16.decode s).drop m).take (u - m) := by
  by_cases hhalf : 0 < (utf16.place s u).2
  · obtain ⟨hat, -, hlt, hi', -, hhi', -, hlow, hhigh, -⟩ := place_half hhalf
    obtain rfl : hi' = hi := Option.some.inj (hhi'.symm.trans (hhi hhalf))
    have hpos : 1 ≤ u := by
      have hunit := place_unit utf16_lawful hu
      omega
    rw [if_pos hhalf] at hback
    rw [hback, decide_eq_true hhalf]
    refine ⟨half_wide hlow hhigh, u - 1, Nat.sub_le u 1, by omega, hat, fun t => ?_⟩
    have hone := slice_one hhi'
    rw [Nat.sub_add_cancel hpos] at hone
    rw [decode_onto_half t hlow hhigh, hone]
  · rw [if_neg hhalf] at hback
    rw [hback, decide_eq_false hhalf]
    refine ⟨rfl, u, le_rfl, Nat.le_succ u, place_whole hu (by omega), fun t => ?_⟩
    rw [Nat.sub_self, List.take_zero, List.append_nil, List.append_nil]

theorem decode_cut {start : Nat} (hlt : start < stop) (hstop : stop ≤ (utf16.decode s).length)
    (hlo : 0 < (utf16.place s start).2 → (utf16.decode s)[start]? = some lo)
    (hhi : 0 < (utf16.place s stop).2 → (utf16.decode s)[stop - 1]? = some hi)
    (hfront : front = if 0 < (utf16.place s start).2 then jsUhalf lo else [])
    (hb : b = if 0 < (utf16.place s start).2 then (utf16.place s start).1 + 4 else (utf16.place s start).1)
    (hback : back = if 0 < (utf16.place s stop).2 then jsUhalf hi else []) :
    utf16.decode (front ++ (s.drop b).take ((utf16.place s stop).1 - b) ++ back) =
      ((utf16.decode s).drop start).take (stop - start) := by
  obtain ⟨-, m, hstart, hm, hat, hdecode⟩ := cut_front (by omega) hlo hfront hb
  obtain ⟨-, m', hm', hlast, hat', hdecode'⟩ := cut_back hstop hhi hback
  have hmm : m ≤ m' := by
    by_contra hgt
    -- a pair cut by both ends is none: one end would be its first unit
    obtain rfl : m = stop := by omega
    have hplace := hat.place
    obtain rfl : m' + 1 = m := by omega
    have hwhole := place_whole (u := m' + 1) hstop (by rw [hplace])
    have hsame := hwhole.2.symm.trans hat'.2
    omega
  obtain ⟨hslice, -⟩ := decode_slice utf16_lawful hat.1 hat'.1 (hat.le hat' hmm)
  rw [List.append_assoc, hdecode, hdecode', hslice, hat.2, hat'.2, slice_split _ hstart (hmm.trans hm'), slice_split _ hmm hm']

end

section
variable {S : Strings} {J : UCache} {s : Jstr} (hS : S.Sound) (hJ : J.Sound S.live) (hs : s ∈ S.live)
include hS hJ hs

theorem jsUsub_eq (start : Nat) (hstop : stop ≤ (utf16.decode s.bytes).length) :
    utf16.decode (jsUsub J s start stop).1.1 = ((utf16.decode s.bytes).drop start).take (stop - start) ∧
      ((jsUsub J s start stop).1.2 = 0 ∨
        (jsUsub J s start stop).1.2 = unitsField (stop - start) (anyWide (jsUsub J s start stop).1.1)) ∧
      (jsUsub J s start stop).2.Sound S.live := by
  unfold jsUsub
  split
  · rename_i hbytes
    have hascii := (hS.live s hs).ascii hbytes
    have hpart : ∀ a ∈ (s.bytes.drop start).take (stop - start), a.toNat < 0x80 := fun a ha =>
      hascii a (List.mem_of_mem_drop (List.mem_of_mem_take ha))
    dsimp only
    rw [decode_ascii hascii, decode_ascii hpart, (anyWide_false _).mpr hpart, List.map_take, List.map_drop]
    exact ⟨rfl, .inr rfl, hJ⟩
  · split
    · rename_i hnone
      rw [Nat.sub_eq_zero_of_le hnone]
      exact ⟨rfl, .inl rfl, hJ⟩
    · rename_i hsome
      dsimp only
      obtain ⟨hfirst, hfirstSound⟩ := jsUbyte_eq hS hJ hs start
      rw [hfirst]
      dsimp only
      simp only [decide_eq_true_eq]
      generalize hlo : (if 0 < (utf16.place s.bytes start).2 then jsUcode (jsUbyte J s start).2 s start
        else (0, (jsUbyte J s start).2)) = lo
      have hloRight : (0 < (utf16.place s.bytes start).2 → (utf16.decode s.bytes)[start]? = some lo.1) ∧ lo.2.Sound S.live := by
        subst hlo
        split
        · obtain ⟨hcode, hsound⟩ := jsUcode_eq hS hfirstSound hs (show start < _ by omega)
          exact ⟨fun _ => hcode, hsound⟩
        · rename_i hno
          exact ⟨fun hhalf => absurd hhalf hno, hfirstSound⟩
      obtain ⟨hlast, hlastSound⟩ := jsUbyte_eq hS hloRight.2 hs stop
      rw [hlast]
      dsimp only
      simp only [decide_eq_true_eq]
      generalize hhi : (if 0 < (utf16.place s.bytes stop).2 then jsUcode (jsUbyte lo.2 s stop).2 s (stop - 1)
        else (0, (jsUbyte lo.2 s stop).2)) = hi
      have hhiRight : (0 < (utf16.place s.bytes stop).2 → (utf16.decode s.bytes)[stop - 1]? = some hi.1) ∧ hi.2.Sound S.live := by
        subst hhi
        split
        · obtain ⟨hcode, hsound⟩ := jsUcode_eq hS hlastSound hs (show stop - 1 < _ by omega)
          exact ⟨fun _ => hcode, hsound⟩
        · rename_i hno
          exact ⟨fun hhalf => absurd hhalf hno, hlastSound⟩
      obtain ⟨hfrontWide, -⟩ := cut_front (by omega) hloRight.1 rfl rfl
      obtain ⟨hbackWide, -⟩ := cut_back hstop hhiRight.1 rfl
      refine ⟨decode_cut (by omega) hstop hloRight.1 hhiRight.1 rfl rfl rfl,
        (ite_eq_or_eq _ _ _).imp_right fun hunits => hunits.trans (congrArg _ ?_), hhiRight.2⟩
      rw [anyWide, List.any_append, List.any_append]
      change _ = (anyWide _ || anyWide _ || anyWide _)
      rw [hfrontWide, hbackWide, Bool.or_right_comm]
      rfl

end

/-! ## Runs -/

/-- What is asked of a string is what its units say, and what is cut out of it is made of them. -/
def Query.Right (S : Strings) : Query → Answer → Prop
  | .ubyte i u, r => ∀ s ∈ S.live[i]?, r = .byte (utf16.place s.bytes u).1 (decide (0 < (utf16.place s.bytes u).2))
  | .uunit i b, r => ∀ s ∈ S.live[i]?, r = .unit (utf16.before s.bytes b)
  | .ucode i u, r => ∀ s ∈ S.live[i]?, ∃ c, (utf16.decode s.bytes)[u]? = some c ∧ r = .code c
  | .usub i start stop _, r =>
    ∀ s ∈ S.live[i]?, ∃ t, r = .text t ∧ utf16.decode t = ((utf16.decode s.bytes).drop start).take (stop - start)
  | .make _ _, _ => True
  | .concat _ _ _, _ => True

def Query.Joins (S : Strings) : Query → Prop
  | .concat i j _ => ∀ a ∈ S.live[i]?, ∀ b ∈ S.live[j]?,
    (utf16.decode (concatBytes a.bytes b.bytes)).length ≤ (utf16.decode a.bytes).length + (utf16.decode b.bytes).length
  | _ => True

instance (S : Strings) : (q : Query) → Decidable (q.Joins S)
  | .concat i j _ => inferInstanceAs (Decidable (∀ a ∈ S.live[i]?, ∀ b ∈ S.live[j]?, _))
  | .ubyte _ _ | .uunit _ _ | .ucode _ _ | .usub _ _ _ _ | .make _ _ => inferInstanceAs (Decidable True)

/-- What a query makes is not taken for another string. -/
def Query.Told (S : Strings) (q : Query) : Prop := ∀ r ∈ q.act S, r.2.Told

instance (S : Strings) (q : Query) : Decidable (q.Told S) := inferInstanceAs (Decidable (∀ r ∈ q.act S, _))

def Query.Ok (S : Strings) (q : Query) : Prop := q.Told S ∧ q.Joins S

instance (S : Strings) (q : Query) : Decidable (q.Ok S) := inferInstanceAs (Decidable (_ ∧ _))

section
variable {S S' : Strings} {s : Jstr} {J : UCache}

variable {i : Nat}

theorem mem_asked (h : S.live[i]? = some s) (ht : t ∈ S.live) :
    ∃ t' ∈ (S.asked i s J).live, t'.addr = t.addr ∧ t'.bytes = t.bytes ∧ t'.hash = t.hash := by
  obtain ⟨j, hj⟩ := List.mem_iff_getElem?.mp ht
  obtain ⟨hbytes, haddr, hhash⟩ := counted_bytes s
  obtain ⟨hi, -⟩ := List.getElem?_eq_some_iff.mp h
  by_cases hij : i = j
  · subst hij
    obtain rfl : s = t := Option.some.inj (h.symm.trans hj)
    exact ⟨s.counted, List.mem_set hi _, haddr, hbytes, hhash⟩
  · refine ⟨t, List.mem_iff_getElem?.mpr ⟨j, ?_⟩, rfl, rfl, rfl⟩
    rw [Strings.asked, List.getElem?_set_ne hij]
    exact hj

theorem of_mem_asked (h : S.live[i]? = some s) (ht : t ∈ (S.asked i s J).live) :
    ∃ t' ∈ S.live, t'.addr = t.addr ∧ t'.bytes = t.bytes ∧ t'.hash = t.hash := by
  obtain ⟨hbytes, haddr, hhash⟩ := counted_bytes s
  rcases List.mem_or_eq_of_mem_set ht with ht | rfl
  · exact ⟨t, ht, rfl, rfl, rfl⟩
  · exact ⟨s, List.mem_of_getElem? h, haddr.symm, hbytes.symm, hhash.symm⟩

theorem asked_sound (hS : S.Sound) (h : S.live[i]? = some s) (hJ : J.Sound S.live) : (S.asked i s J).Sound := by
  refine ⟨?_, fun t ht => ?_, fun t ht t' ht' haddr hlen hhash => ?_⟩
  · refine hJ.imp_right ?_
    rintro ⟨t, ht, hrest⟩
    obtain ⟨t', ht', haddr, hbytes, hhash⟩ := mem_asked (J := J) h ht
    refine ⟨t', ht', ?_⟩
    rw [haddr, hbytes, hhash]
    exact hrest
  · rcases List.mem_or_eq_of_mem_set ht with ht | rfl
    · exact hS.live t ht
    · exact (hS.live s (List.mem_of_getElem? h)).asked
  · obtain ⟨u, hu, huaddr, hubytes, huhash⟩ := of_mem_asked h ht
    obtain ⟨u', hu', huaddr', hubytes', huhash'⟩ := of_mem_asked h ht'
    rw [← hubytes, ← hubytes'] at hlen ⊢
    exact hS.told u hu u' hu' (by rw [huaddr, huaddr', haddr]) hlen (by rw [huhash, huhash', hhash])

theorem more_sound (hS : S.Sound) {bytes : Bytes} {units addr : Nat} (h : S.more bytes units addr = some S') (htold : S'.Told)
    (hunits : units = 0 ∨ ∃ k, units = unitsField k (anyWide bytes) ∧ (utf16.decode bytes).length ≤ k ∧
      (k ≤ bytes.length ∨ k + 6 ≤ 3 * bytes.length)) : S'.Sound := by
  unfold Strings.more at h
  split at h
  · rename_i hsmall
    obtain rfl := Option.some.inj h
    refine ⟨hS.cache.imp_right ?_, fun t ht => ?_, htold⟩
    · rintro ⟨t, ht, hrest⟩
      exact ⟨t, List.mem_append_left _ ht, hrest⟩
    · rcases List.mem_append.mp ht with ht | ht
      · exact hS.live t ht
      · obtain rfl := List.mem_singleton.mp ht
        exact ⟨hsmall, hunits⟩
  · cases h

/-! ### Joining -/

theorem concatBytes_length (a b : Bytes) :
    (concatBytes a b).length = a.length + b.length ∨
      (3 ≤ a.length ∧ 3 ≤ b.length ∧ (concatBytes a b).length + 2 = a.length + b.length) := by
  unfold concatBytes
  split
  · rename_i hhalves
    right
    refine ⟨hhalves.1, hhalves.2.1, ?_⟩
    have ha := hhalves.1
    have hb := hhalves.2.1
    simp only [List.length_append, List.length_take, List.length_drop, List.length_cons, List.length_nil]
    omega
  · exact .inl List.length_append

theorem anyWide_append (s t : Bytes) : anyWide (s ++ t) = (anyWide s || anyWide t) := List.any_append

theorem anyWide_of_byte {s : Bytes} (hi : i < s.length) (h : 0x80 ≤ byteNum s i) : anyWide s = true :=
  List.any_eq_true.mpr ⟨byteAt s i, List.mem_of_getElem? (byteAt_isSome hi), decide_eq_true h⟩

theorem anyWide_concatBytes (a b : Bytes) : anyWide (concatBytes a b) = (anyWide a || anyWide b) := by
  unfold concatBytes
  split
  · rename_i hhalves
    obtain ⟨hlen, -, hlast, -⟩ := hhalves
    have ha := anyWide_of_byte (s := a) (i := a.length - 3) (by omega) (by rw [hlast]; decide)
    dsimp only
    rw [ha, Bool.true_or, anyWide_append, anyWide_append, anyWide_cons, decide_eq_true, Bool.true_or, Bool.or_true, Bool.true_or]
    generalize (65536 : UInt32) + _ + _ = cp
    rw [UInt32.toNat_toUInt8, UInt32.toNat_or, Nat.or_mod_two_pow]
    exact le_trans (by decide) Nat.left_le_or
  · exact anyWide_append a b

theorem concatUnits_right (ha : a.Sound) (hb : b.Sound)
    (h : (utf16.decode (concatBytes a.bytes b.bytes)).length ≤ (utf16.decode a.bytes).length + (utf16.decode b.bytes).length) :
    ∃ k, concatUnits a b = unitsField k (anyWide (concatBytes a.bytes b.bytes)) ∧
      (utf16.decode (concatBytes a.bytes b.bytes)).length ≤ k ∧
      (k ≤ (concatBytes a.bytes b.bytes).length ∨ k + 6 ≤ 3 * (concatBytes a.bytes b.bytes).length) := by
  obtain ⟨ha', hamost⟩ := ha.jsUnits
  obtain ⟨hb', hbmost⟩ := hb.jsUnits
  refine ⟨jsUnits a + jsUnits b, ?_, by omega, ?_⟩
  · rw [concatUnits, ha.jsUbytes, hb.jsUbytes, Bool.not_not, Bool.not_not, anyWide_concatBytes]
  · rcases concatBytes_length a.bytes b.bytes with hlen | ⟨halen, hblen, hlen⟩ <;> omega

/-! ### Steps -/

theorem noStrings_sound : noStrings.Sound :=
  ⟨.inl ⟨rfl, rfl⟩, by simp [noStrings], by simp [Strings.Told, noStrings]⟩

theorem asked_both (hS : S.Sound) (ha : S.live[i]? = some a) (hb : S.live[j]? = some b) :
    ((S.asked i a S.cache).asked j b S.cache).Sound := by
  have hfirst := asked_sound hS ha hS.cache
  by_cases hij : i = j
  · subst hij
    obtain rfl : a = b := Option.some.inj (ha.symm.trans hb)
    rw [show (S.asked i a S.cache).asked i a S.cache = S.asked i a S.cache by simp [Strings.asked]]
    exact hfirst
  · apply asked_sound hfirst _ hfirst.cache
    rw [Strings.asked, List.getElem?_set_ne hij]
    exact hb

theorem step_sound {q : Query} (hS : S.Sound) (hok : q.Ok S) (h : q.step S = some S') : S'.Sound := by
  obtain ⟨r, hact, rfl⟩ := Option.map_eq_some_iff.mp h
  have htold := hok.1 r hact
  cases q with
  | ubyte i u =>
    obtain ⟨s, hs, hr⟩ := Option.bind_eq_some_iff.mp hact
    obtain rfl := Option.some.inj hr
    exact asked_sound hS hs (jsUbyte_eq hS hS.cache (List.mem_of_getElem? hs) u).2
  | uunit i b =>
    obtain ⟨s, hs, hr⟩ := Option.bind_eq_some_iff.mp hact
    obtain rfl := Option.some.inj hr
    exact asked_sound hS hs (jsUunit_eq hS hS.cache (List.mem_of_getElem? hs) b).2
  | ucode i u =>
    obtain ⟨s, hs, hr⟩ := Option.bind_eq_some_iff.mp hact
    obtain ⟨hu, hr⟩ := Option.ite_none_right_eq_some.mp hr
    obtain rfl := Option.some.inj hr
    exact asked_sound hS hs (jsUcode_eq hS hS.cache (List.mem_of_getElem? hs) hu).2
  | usub i start stop addr =>
    obtain ⟨s, hs, hr⟩ := Option.bind_eq_some_iff.mp hact
    obtain ⟨⟨-, hstop⟩, hr⟩ := Option.ite_none_right_eq_some.mp hr
    obtain ⟨S'', hmore, hr⟩ := Option.bind_eq_some_iff.mp hr
    obtain rfl := Option.some.inj hr
    obtain ⟨hdecode, hunits, hcache⟩ := jsUsub_eq hS hS.cache (List.mem_of_getElem? hs) start hstop
    apply more_sound (asked_sound hS hs hcache) hmore htold
    refine hunits.imp_right fun hunits => ⟨stop - start, hunits, ?_, .inl ?_⟩
    · rw [hdecode, List.length_take]
      exact Nat.min_le_left _ _
    · have hlen := decode_length_le (jsUsub S.cache s start stop).1.1
      rw [hdecode, List.length_take, List.length_drop] at hlen
      omega
  | make bytes addr =>
    obtain ⟨S'', hmore, hr⟩ := Option.bind_eq_some_iff.mp hact
    obtain rfl := Option.some.inj hr
    exact more_sound hS hmore htold (.inl rfl)
  | concat i j addr =>
    obtain ⟨a, ha, hr⟩ := Option.bind_eq_some_iff.mp hact
    obtain ⟨b, hb, hr⟩ := Option.bind_eq_some_iff.mp hr
    obtain ⟨S'', hmore, hr⟩ := Option.bind_eq_some_iff.mp hr
    obtain rfl := Option.some.inj hr
    have hunits := concatUnits_right (hS.live a (List.mem_of_getElem? ha)) (hS.live b (List.mem_of_getElem? hb))
      (hok.2 a ha b hb)
    exact more_sound (asked_both hS ha hb) hmore htold (.inr hunits)

theorem run_sound {qs : List Query} (hok : Runs.Each Query.step Query.Ok noStrings qs)
    (h : Runs.run Query.step noStrings qs = some S) : S.Sound :=
  Runs.inv_of_each (fun _ _ _ hS hright hstep => step_sound hS hright hstep) noStrings_sound hok h

/-- Whatever was asked and made before, every query is answered from the units of its string. -/
theorem positions_right (qs : List Query) {q : Query} {r : Answer} (hok : Runs.Each Query.step Query.Ok noStrings qs)
    (h : Runs.run Query.step noStrings qs = some S) (hact : q.act S = some (r, S')) : q.Right S r := by
  have hS := run_sound hok h
  cases q with
  | ubyte i u =>
    intro s hs
    obtain ⟨s', hs', hr⟩ := Option.bind_eq_some_iff.mp hact
    cases hs'.symm.trans hs
    obtain ⟨hbyte, -⟩ := jsUbyte_eq hS hS.cache (List.mem_of_getElem? hs') u
    obtain ⟨rfl, -⟩ := Prod.mk.inj (Option.some.inj hr)
    rw [hbyte]
  | uunit i b =>
    intro s hs
    obtain ⟨s', hs', hr⟩ := Option.bind_eq_some_iff.mp hact
    cases hs'.symm.trans hs
    obtain ⟨hunit, -⟩ := jsUunit_eq hS hS.cache (List.mem_of_getElem? hs') b
    obtain ⟨rfl, -⟩ := Prod.mk.inj (Option.some.inj hr)
    rw [hunit]
  | ucode i u =>
    intro s hs
    obtain ⟨s', hs', hr⟩ := Option.bind_eq_some_iff.mp hact
    cases hs'.symm.trans hs
    obtain ⟨hu, hr⟩ := Option.ite_none_right_eq_some.mp hr
    obtain ⟨hcode, -⟩ := jsUcode_eq hS hS.cache (List.mem_of_getElem? hs') hu
    obtain ⟨rfl, -⟩ := Prod.mk.inj (Option.some.inj hr)
    exact ⟨_, hcode, rfl⟩
  | usub i start stop addr =>
    intro s hs
    obtain ⟨s', hs', hr⟩ := Option.bind_eq_some_iff.mp hact
    cases hs'.symm.trans hs
    obtain ⟨⟨-, hstop⟩, hr⟩ := Option.ite_none_right_eq_some.mp hr
    obtain ⟨S'', -, hr⟩ := Option.bind_eq_some_iff.mp hr
    obtain ⟨hdecode, -, -⟩ := jsUsub_eq hS hS.cache (List.mem_of_getElem? hs') start hstop
    obtain ⟨rfl, -⟩ := Prod.mk.inj (Option.some.inj hr)
    exact ⟨_, rfl, hdecode⟩
  | make bytes addr => trivial
  | concat i j addr => trivial

/-- A string with a pair, a byte that is none of UTF-8's and an accent is walked to its end, back and cut in the pair. -/
theorem positions_sample : (Query.usub 0 2 5 9).Right
    ⟨⟨1, 9, 771621642, 4, 7⟩, [⟨1, [0x61, 0xF0, 0x9F, 0x98, 0x80, 0xC3, 0xA9, 0xE9, 0x62], 771621642, 0x80000007⟩]⟩
    (.text [0xED, 0xB8, 0x80, 0xC3, 0xA9, 0xE9]) :=
  positions_right [.make [0x61, 0xF0, 0x9F, 0x98, 0x80, 0xC3, 0xA9, 0xE9, 0x62] 1, .ubyte 0 5, .uunit 0 9, .ucode 0 4]
    (by decide) (by decide) rfl

/-- What is not the second half of a pair is taken for it, and the last unit is not found. -/
theorem positions_wrong : ¬ ∀ (qs : List Query) (q : Query) (S S' : Strings) (r : Answer),
    Runs.Each Query.step Query.Told noStrings qs → Runs.run Query.step noStrings qs = some S →
      q.act S = some (r, S') → q.Right S r := by
  intro h
  have hright := h [.make [0xED, 0xA0, 0x80] 1, .make [0xED, 0xC3, 0xA9] 2, .concat 0 1 3] (.ubyte 2 3) _ _ _
    (by decide) rfl rfl _ rfl
  exact absurd hright (by decide)

end

end Zelr.Js
