import Zelr.Js.Collections
import Zelr.Js.Table

/-!
# Maps in insertion order

What a Map and a Set are for: entries in the order their keys were added, one for all zeros and one
for all NaNs, and iterators that each know which keys they have still to come to.
-/

namespace Zelr.Js

open Nodes

/-! ## Keys -/

def canonNum (d : UInt64) : UInt64 := if isZero d then 0 else if isNan d then 0x7FF8000000000000 else d

def Jval.canon : Jval → Jval
  | .num d => .num (canonNum d)
  | k => k

theorem isNan_canonNum (d : UInt64) : isNan (canonNum d) ↔ isNan d := by
  unfold canonNum
  split
  · rename_i hd
    rcases hd with rfl | rfl <;> decide
  · split
    · rename_i hnan
      exact iff_of_true (by decide) hnan
    · rfl

theorem isZero_canonNum (d : UInt64) : isZero (canonNum d) ↔ isZero d := by
  unfold canonNum
  split
  · rename_i hd
    exact iff_of_true (by decide) hd
  · rename_i hd
    split
    · exact iff_of_false (by decide) hd
    · rfl

theorem numEq_iff {a b : UInt64} (ha : ¬ isNan a) (hb : ¬ isNan b) : numEq a b ↔ canonNum a = canonNum b := by
  rw [numEq, and_iff_right ha, and_iff_right hb]
  constructor
  · rintro (rfl | ⟨hza, hzb⟩)
    · rfl
    · rw [canonNum, canonNum, if_pos hza, if_pos hzb]
  · intro h
    have hzero : isZero a ↔ isZero b := by rw [← isZero_canonNum a, ← isZero_canonNum b, h]
    by_cases hza : isZero a
    · exact .inr ⟨hza, hzero.mp hza⟩
    · rw [canonNum, canonNum, if_neg hza, if_neg (mt hzero.mpr hza), if_neg ha, if_neg hb] at h
      exact .inl h

theorem jsbMagCmp_iff (a b : Limbs) : jsbMagCmp a b = .eq ↔ a = b := by
  unfold jsbMagCmp
  split
  · rename_i hlen
    constructor
    · split <;> rintro ⟨⟩
    · rintro rfl
      exact absurd rfl hlen
  · rename_i hlen
    have hlen' : a.length = b.length := not_not.mp hlen
    rw [cmpFromTop_eq (by rw [List.length_reverse, List.length_reverse, hlen']), List.reverse_reverse, List.reverse_reverse,
      compare_eq_iff_eq]
    exact ⟨fun hval => limbsVal_inj hlen' hval, congrArg limbsVal⟩

theorem jsbCmp_iff (a b : Jbint) : jsbCmp a b = .eq ↔ a = b := by
  rw [Jbint.ext_iff, ← jsbMagCmp_iff]
  unfold jsbCmp
  split
  · rename_i hneg
    refine iff_of_false ?_ fun hsame => hneg hsame.1
    split <;> rintro ⟨⟩
  · rename_i hneg
    rw [and_iff_right (not_not.mp hneg)]
    split
    · cases jsbMagCmp a.d b.d <;> simp
    · rfl

theorem string_inj {s t : Bytes} : PropKey.string s = PropKey.string t ↔ s = t :=
  ⟨congrArg PropKey.bytes, congrArg PropKey.string⟩

theorem jsSameZero_iff (a b : Jval) : jsSameZero a b = true ↔ a.canon = b.canon := by
  cases a
  case num c =>
    cases b
    case num d =>
      simp only [jsSameZero, Jval.canon, Jval.num.injEq]
      split
      · rename_i hnan
        have hzc : ¬ isZero c := by
          rintro (rfl | rfl) <;> exact absurd hnan.1 (by decide)
        have hzd : ¬ isZero d := by
          rintro (rfl | rfl) <;> exact absurd hnan.2 (by decide)
        rw [canonNum, canonNum, if_neg hzc, if_neg hzd, if_pos hnan.1, if_pos hnan.2]
        exact iff_of_true rfl rfl
      · rename_i hnan
        refine decide_eq_true_iff.trans ?_
        by_cases hc : isNan c
        · refine iff_of_false (fun heq => heq.1 hc) fun heq => hnan ⟨hc, ?_⟩
          rwa [← isNan_canonNum, ← heq, isNan_canonNum]
        · by_cases hd : isNan d
          · refine iff_of_false (fun heq => heq.2.1 hd) fun heq => hc ?_
            rwa [← isNan_canonNum, heq, isNan_canonNum]
          · exact numEq_iff hc hd
    all_goals
      unfold jsSameZero jsStrictEq
      simp only [Jval.canon, reduceCtorEq, Bool.false_eq_true]
  all_goals
    unfold jsSameZero jsStrictEq
    cases b <;> simp only [Jval.canon, jsStrEq_iff, jsbCmp_iff, string_inj, reduceCtorEq,
      Bool.false_eq_true, decide_eq_true_eq, Jval.big.injEq, Jval.bool.injEq, Jval.str.injEq, Jval.sym.injEq,
      Jval.obj.injEq, Jval.acc.injEq]

theorem jmHash_canon (k : Jval) : jmHash k.canon = jmHash k := by
  cases k
  case num d =>
    by_cases hz : isZero d
    · have hz' : canonNum d = 0 := if_pos hz
      simp only [jmHash, Jval.canon, if_pos ((isZero_canonNum d).mpr hz), if_pos hz]
    · simp only [jmHash, Jval.canon, if_neg (mt (isZero_canonNum d).mp hz), if_neg hz, isNan_canonNum]
      split
      · rfl
      · rename_i hnan
        rw [canonNum, if_neg hz, if_neg hnan]
  all_goals rfl

theorem jmHash_same {a b : Jval} (h : a.canon = b.canon) : jmHash a = jmHash b := by
  rw [← jmHash_canon a, h, jmHash_canon]

theorem canon_zeroed (k : Jval) : k.zeroed.canon = k.canon := by
  cases k
  case num d =>
    simp only [Jval.zeroed, Jval.canon, Jval.num.injEq]
    by_cases hz : isZero d
    · rw [if_pos hz, canonNum, canonNum, if_pos hz]
      rfl
    · rw [if_neg hz]
  all_goals rfl

theorem zeroed_of_ne {k : Jval} (h : k ≠ .num NEG_ZERO) : k.zeroed = k := by
  cases k
  case num d =>
    simp only [Jval.zeroed]
    split
    · rename_i hz
      rcases hz with rfl | rfl
      · rfl
      · exact absurd rfl h
    · rfl
  all_goals rfl

/-! ## Entries -/

/-- What an entry is in the map, where it is not gone. -/
def Jmentry.kept (x : Jmentry) : Option (Jval × (Jval × Jval)) := if x.gone then none else some (x.k.canon, (x.k, x.v))

def kept (e : List Jmentry) : List (Jval × (Jval × Jval)) := e.filterMap Jmentry.kept

def Jmentry.unlinked (x : Jmentry) : Jmentry := { x with next := none }

section
variable {e e' : List Jmentry} {x y : Jmentry} {i j p : Nat}

theorem kept_gone (h : x.gone = true) : x.kept = none := if_pos h

theorem kept_there (h : x.gone = false) : x.kept = some (x.k.canon, (x.k, x.v)) :=
  if_neg (by rw [h]; exact Bool.false_ne_true)

theorem mem_kept {c : Jval × (Jval × Jval)} : c ∈ kept e ↔ ∃ (i : Nat) (x : Jmentry), e[i]? = some x ∧ x.gone = false ∧ c = (x.k.canon, (x.k, x.v)) := by
  unfold kept
  rw [List.mem_filterMap]
  constructor
  · rintro ⟨x, hx, hc⟩
    obtain ⟨i, hi⟩ := List.getElem?_of_mem hx
    cases hgone : x.gone with
    | true =>
      rw [kept_gone hgone] at hc
      cases hc
    | false =>
      rw [kept_there hgone] at hc
      exact ⟨i, x, hi, hgone, (Option.some.inj hc).symm⟩
  · rintro ⟨i, x, hi, hgone, rfl⟩
    exact ⟨x, List.mem_of_getElem? hi, kept_there hgone⟩

theorem mem_keys_kept {c : Jval} : c ∈ Ordered.keys (kept e) ↔
    ∃ (i : Nat) (x : Jmentry), e[i]? = some x ∧ x.gone = false ∧ x.k.canon = c := by
  rw [Ordered.keys, List.mem_map]
  constructor
  · rintro ⟨a, ha, rfl⟩
    obtain ⟨i, x, hi, hgone, rfl⟩ := mem_kept.mp ha
    exact ⟨i, x, hi, hgone, rfl⟩
  · rintro ⟨i, x, hi, hgone, rfl⟩
    exact ⟨_, mem_kept.mpr ⟨i, x, hi, hgone, rfl⟩, rfl⟩

theorem kept_inj (h : (Ordered.keys (kept e)).Nodup) (hi : e[i]? = some x) (hj : e[j]? = some y) (hx : x.gone = false)
    (hy : y.gone = false) (hk : x.k.canon = y.k.canon) : i = j := by
  have hpair := List.pairwise_filterMap.mp (List.pairwise_map.mp h)
  rw [List.pairwise_iff_getElem] at hpair
  obtain ⟨hi', rfl⟩ := List.getElem?_eq_some_iff.mp hi
  obtain ⟨hj', rfl⟩ := List.getElem?_eq_some_iff.mp hj
  rcases Nat.lt_trichotomy i j with hlt | heq | hlt
  · exact absurd hk (hpair i j hi' hj' hlt _ (kept_there hx) _ (kept_there hy))
  · exact heq
  · exact absurd hk.symm (hpair j i hj' hi' hlt _ (kept_there hy) _ (kept_there hx))

theorem modify_there (h : (Ordered.keys (kept e)).Nodup) (hi : e[i]? = some x) (hx : x.gone = false) (f : Jmentry → Jmentry) :
    e.modify i f = e.map fun y => if y.gone = false ∧ y.k.canon = x.k.canon then f y else y := by
  apply List.ext_getElem?
  intro j
  rw [List.getElem?_modify, List.getElem?_map]
  cases hj : e[j]? with
  | none => rfl
  | some y =>
    by_cases hij : i = j
    · subst hij
      obtain rfl := Option.some.inj (hi.symm.trans hj)
      simp [hx]
    · have hno : ¬ (y.gone = false ∧ y.k.canon = x.k.canon) := by
        rintro ⟨hy, hk⟩
        exact hij (kept_inj h hi hj hx hy hk.symm)
      simp [hij, hno]

theorem kept_append (e e' : List Jmentry) : kept (e ++ e') = kept e ++ kept e' := List.filterMap_append

theorem kept_value (c v : Jval) (e : List Jmentry) :
    kept (e.map fun y => if y.gone = false ∧ y.k.canon = c then { y with v } else y) =
      (kept e).map fun a => if a.1 = c then (c, (a.2.1, v)) else a := by
  unfold kept
  rw [List.filterMap_map, List.map_filterMap]
  apply List.filterMap_congr
  intro y _
  rw [Function.comp_apply]
  cases hy : y.gone with
  | true => rw [if_neg (by simp), kept_gone hy, Option.map_none]
  | false =>
    rw [kept_there hy, Option.map_some]
    by_cases hc : y.k.canon = c
    · rw [if_pos ⟨rfl, hc⟩, if_pos hc, ← hc]
      rfl
    · rw [if_neg (fun h => hc h.2), if_neg hc, kept_there hy]

theorem kept_dropped (c : Jval) (e : List Jmentry) :
    kept (e.map fun y => if y.gone = false ∧ y.k.canon = c then y.dropped else y) = Ordered.erase (kept e) c := by
  unfold kept Ordered.erase
  rw [List.filterMap_map, List.filter_filterMap]
  apply List.filterMap_congr
  intro y _
  rw [Function.comp_apply]
  cases hy : y.gone with
  | true => rw [if_neg (by simp), kept_gone hy]; rfl
  | false =>
    rw [kept_there hy]
    by_cases hc : y.k.canon = c
    · rw [if_pos ⟨rfl, hc⟩, kept_gone (x := y.dropped) rfl]
      simp [Option.filter, hc]
    · rw [if_neg (fun h => hc h.2), kept_there hy]
      simp [Option.filter, hc]

theorem kept_cleared (e : List Jmentry) : kept (e.map Jmentry.dropped) = [] := by
  unfold kept
  rw [List.filterMap_map, List.filterMap_eq_nil_iff]
  exact fun _ _ => rfl

theorem kept_unlinked (h : e'.map Jmentry.unlinked = e.map Jmentry.unlinked) (p : Nat) : kept (e'.drop p) = kept (e.drop p) := by
  have hall : ∀ l : List Jmentry, kept l = kept (l.map Jmentry.unlinked) := fun l => by
    unfold kept
    rw [List.filterMap_map]
    rfl
  rw [hall, List.map_drop, h, ← List.map_drop, ← hall]

theorem getElem?_append_ne (e : List Jmentry) (x : Jmentry) (h : i ≠ e.length) : (e ++ [x])[i]? = e[i]? := by
  rcases Nat.lt_or_gt_of_ne h with hlt | hgt
  · exact List.getElem?_append_left hlt
  · rw [List.getElem?_eq_none (Nat.le_of_lt hgt), List.getElem?_eq_none]
    rw [List.length_append, List.length_singleton]
    exact hgt

end

/-! ## Chains -/

def nextIn (e : List Jmentry) (i : Nat) : Option Nat := e[i]?.bind Jmentry.next

def hashIn (e : List Jmentry) (i : Nat) : UInt32 := (e[i]?.map Jmentry.hash).getD 0

abbrev Chains (e : List Jmentry) (heads : List (Option Nat)) (P : Nat → Prop) : Prop :=
  Held (nextIn e) (fun i => bucket (hashIn e i) heads.length) heads P

section
variable {e e' : List Jmentry} {heads : List (Option Nat)} {P : Nat → Prop} {x : Jmentry} {i : Nat}

theorem bucket_lt (h : UInt32) {n : Nat} (hn : 0 < n) : bucket h n < n := by
  have hle : bucket h n ≤ n - 1 := Nat.and_le_right
  omega

theorem Chains.congr (h : Chains e heads P) (hnext : ∀ i, nextIn e' i = nextIn e i) (hhash : ∀ i, hashIn e' i = hashIn e i) :
    Chains e' heads P :=
  h.same (fun i _ => hnext i) fun i _ => by rw [hhash i]

theorem Chains.push (h : Chains e heads P) (hi : ¬ P i) (hx : e'[i]? = some x)
    (hfirst : x.next = heads.getD (bucket x.hash heads.length) none) (hother : ∀ j, j ≠ i → e'[j]? = e[j]?) :
    Chains e' (heads.set (bucket x.hash heads.length) (some i)) fun j => P j ∨ j = i := by
  have hhash : hashIn e' i = x.hash := by rw [hashIn, hx]; rfl
  have hnext : nextIn e' i = x.next := by rw [nextIn, hx]; rfl
  have hpush : Held (nextIn e') (fun j => bucket (hashIn e' j) heads.length)
      (heads.set (bucket (hashIn e' i) heads.length) (some i)) fun j => P j ∨ j = i := by
    apply Held.push h hi
    · rw [hnext, hhash, hfirst]
    · intro j hj
      rw [nextIn, nextIn, hother j hj]
    · intro j hj
      rw [hashIn, hashIn, hother j hj]
  rw [hhash] at hpush
  simpa only [Chains, List.length_set] using hpush

theorem map_unlinked_set {next : Option Nat} (hx : e[i]? = some x) :
    (e.set i { x with next }).map Jmentry.unlinked = e.map Jmentry.unlinked := by
  obtain ⟨hi, rfl⟩ := List.getElem?_eq_some_iff.mp hx
  rw [List.map_set]
  apply List.ext_getElem?
  intro j
  rw [List.getElem?_set, List.length_map]
  split
  · rename_i hij
    subst hij
    rw [List.getElem?_map, List.getElem?_eq_getElem hi]
    rfl
  · rfl

theorem unlinked_field {β : Type} (g : Jmentry → β) (hg : ∀ x, g x.unlinked = g x)
    (h : e'.map Jmentry.unlinked = e.map Jmentry.unlinked) (i : Nat) : e'[i]?.map g = e[i]?.map g := by
  have hi := congrArg (fun l : List Jmentry => l[i]?.map g) h
  simp only [List.getElem?_map, Option.map_map] at hi
  have hcomp : g ∘ Jmentry.unlinked = g := funext hg
  rwa [hcomp] at hi

theorem chainUp_holds (e : List Jmentry) (want n : Nat) {r : List Jmentry × List (Option Nat)}
    (hr : (List.range n).foldl chainUp (e, List.replicate want none) = r) :
    Chains r.1 r.2 (fun i => i < n ∧ e[i]?.map Jmentry.gone = some false) ∧ r.2.length = want ∧
      r.1.map Jmentry.unlinked = e.map Jmentry.unlinked := by
  induction n generalizing r with
  | zero =>
    subst hr
    refine ⟨?_, List.length_replicate, rfl⟩
    exact (held_none _ _ want).congr fun i => by simp
  | succ n ih =>
    rw [List.range_succ, List.foldl_append] at hr
    generalize hs : (List.range n).foldl chainUp (e, List.replicate want none) = s at hr
    obtain ⟨hheld, hlen, hsame⟩ := ih hs
    have hgone := unlinked_field Jmentry.gone (fun _ => rfl) hsame n
    have hskip : e[n]?.map Jmentry.gone ≠ some false →
        Chains s.1 s.2 fun i => i < n + 1 ∧ e[i]?.map Jmentry.gone = some false := fun hno =>
      Held.congr hheld fun i => by
        refine and_congr_left fun hi => ?_
        have hne : i ≠ n := by
          rintro rfl
          exact hno hi
        omega
    change chainUp s n = r at hr
    unfold chainUp at hr
    split at hr
    · rename_i hnone
      subst hr
      exact ⟨hskip (by rw [← hgone, hnone]; simp), hlen, hsame⟩
    · rename_i x hx
      rw [hx, Option.map_some] at hgone
      split at hr
      · rename_i hx'
        subst hr
        exact ⟨hskip (by rw [← hgone, hx']; simp), hlen, hsame⟩
      · rename_i hx'
        subst hr
        have hn : n < s.1.length := (List.getElem?_eq_some_iff.mp hx).1
        refine ⟨?_, by rw [List.length_set, hlen], (map_unlinked_set hx).trans hsame⟩
        have hset : (s.1.set n { x with next := s.2.getD (bucket x.hash s.2.length) none })[n]? =
          some { x with next := s.2.getD (bucket x.hash s.2.length) none } := List.getElem?_set_self hn
        have hpush := hheld.push (fun h => Nat.lt_irrefl n h.1) hset rfl fun j hj => List.getElem?_set_ne hj.symm
        refine Held.congr hpush fun i => ?_
        constructor
        · rintro (⟨hi, hi'⟩ | rfl)
          · exact ⟨by omega, hi'⟩
          · exact ⟨by omega, by rw [← hgone, Bool.eq_false_iff.mpr hx']⟩
        · rintro ⟨hi, hi'⟩
          by_cases hin : i = n
          · exact .inr hin
          · exact .inl ⟨by omega, hi'⟩

end

/-! ## The table -/

/-- A table holds a map: its entries that are there are the map's, and all of them are in its chains. -/
structure Jmap.Holds (m : Jmap) (K : List (Jval × (Jval × Jval))) : Prop where
  entries : kept m.e = K
  nodup : (Ordered.keys K).Nodup
  live : m.live = K.length
  hashed : ∀ x ∈ m.e, x.gone = false → x.hash = jmHash x.k
  none_made : m.heads = [] → m.e = []
  chains : ∃ P : Nat → Prop, Chains m.e m.heads P ∧ (∀ i, P i → i < m.e.length) ∧ ∀ i x, m.e[i]? = some x → x.gone = false → P i

section
variable {m m' : Jmap} {K : List (Jval × (Jval × Jval))} {k v : Jval} {i p : Nat}

theorem jmNew_holds : jmNew.Holds [] where
  entries := rfl
  nodup := List.nodup_nil
  live := rfl
  hashed _ hx := nomatch hx
  none_made _ := rfl
  chains := ⟨fun _ => False, held_none _ _ 0, fun _ h => h.elim, fun _ _ h => nomatch h⟩

section
variable (h : m.Holds K)
include h

theorem jmFind_iff (k : Jval) (i : Nat) :
    jmFind m k = some i ↔ ∃ x, m.e[i]? = some x ∧ x.gone = false ∧ x.k.canon = k.canon := by
  obtain ⟨P, hheld, hlt, hall⟩ := h.chains
  unfold jmFind
  split
  · rename_i hnone
    rw [h.none_made hnone]
    simp
  · rename_i hsome
    have hpos : 0 < m.heads.length := List.length_pos_iff.mpr hsome
    obtain ⟨c, hlinked, hmem⟩ := hheld _ (bucket_lt (jmHash k) hpos)
    have hshort : c.length ≤ m.e.length := by
      have hsub : c ⊆ List.range m.e.length := fun j hj => List.mem_range.mpr (hlt j ((hmem j).mp hj).1)
      have hle := (List.subperm_of_subset hlinked.nodup hsub).length_le
      rwa [List.length_range] at hle
    have hfollow : follow m.next m.e.length (m.heads.getD (bucket (jmHash k) m.heads.length) none) = c :=
      hlinked.follow_eq hshort
    dsimp only
    rw [hfollow]
    apply find?_one (P := fun i : Nat => ∃ x : Jmentry, m.e[i]? = some x ∧ x.gone = false ∧ x.k.canon = k.canon)
    · intro j
      rw [Option.any_eq_true]
      refine exists_congr fun x => and_congr_right fun hx => ?_
      rw [decide_eq_true_iff, Bool.not_eq_true, jsSameZero_iff]
      refine and_congr_right fun hgone => and_iff_right_of_imp fun hk => ?_
      rw [h.hashed x (List.mem_of_getElem? hx) hgone, jmHash_same hk]
    · rintro j ⟨x, hx, hgone, hk⟩
      refine (hmem j).mpr ⟨hall j x hx hgone, ?_⟩
      change bucket (hashIn m.e j) _ = _
      rw [hashIn, hx, Option.map_some, Option.getD_some, h.hashed x (List.mem_of_getElem? hx) hgone, jmHash_same hk]
    · rintro a b ⟨x, hx, hgone, hk⟩ ⟨y, hy, hygone, hyk⟩
      exact kept_inj (h.entries ▸ h.nodup) hx hy hgone hygone (hk.trans hyk.symm)

theorem jmFind_none (k : Jval) : jmFind m k = none ↔ k.canon ∉ Ordered.keys K := by
  rw [← h.entries, mem_keys_kept, Option.eq_none_iff_forall_not_mem]
  constructor
  · rintro hno ⟨i, x, hx, hgone, hk⟩
    exact hno i ((jmFind_iff h k i).mpr ⟨x, hx, hgone, hk⟩)
  · rintro hno i hi
    exact hno ⟨i, (jmFind_iff h k i).mp hi⟩

theorem jmFind_isSome (k : Jval) : (jmFind m k).isSome = decide (k.canon ∈ Ordered.keys K) := by
  rw [Bool.eq_iff_iff, decide_eq_true_iff, ← Option.ne_none_iff_isSome, Ne, jmFind_none h, not_not]

theorem jmFind_get (k : Jval) :
    ((jmFind m k).bind fun i => m.e[i]?.map fun x => (x.k, x.v)) = Ordered.get K k.canon := by
  cases hfind : jmFind m k with
  | none => exact (Ordered.get_eq_none.mpr ((jmFind_none h k).mp hfind)).symm
  | some i =>
    obtain ⟨x, hx, hgone, hk⟩ := (jmFind_iff h k i).mp hfind
    rw [Option.bind_some, hx, Option.map_some]
    refine (Ordered.get_of_mem h.nodup ?_).symm
    rw [← h.entries, mem_kept]
    exact ⟨i, x, hx, hgone, by rw [hk]⟩

theorem Jmap.Holds.modify {x : Jmentry} (hx : m.e[i]? = some x) (hgone : x.gone = false)
    {f : Jmentry → Jmentry} (hlink : ∀ y, (f y).next = y.next) (hhash : ∀ y, (f y).hash = y.hash)
    (hthere : ∀ y, (f y).gone = false → y.gone = false ∧ (f y).k = y.k) {K' : List (Jval × (Jval × Jval))}
    (hkept : kept (m.e.map fun y => if y.gone = false ∧ y.k.canon = x.k.canon then f y else y) = K')
    (hnodup : (Ordered.keys K').Nodup) {live : Nat} (hlive : live = K'.length) :
    Jmap.Holds { m with e := m.e.modify i f, live } K' := by
  have hmap := modify_there (h.entries ▸ h.nodup) hx hgone f
  obtain ⟨P, hheld, hlt, hall⟩ := h.chains
  refine ⟨by rw [← hkept, ← hmap], hnodup, hlive, ?_, fun hno => ?_, P, ?_, ?_, ?_⟩
  · intro y hy hygone
    dsimp only at hy
    rw [hmap, List.mem_map] at hy
    obtain ⟨z, hz, rfl⟩ := hy
    split at hygone
    · rename_i hcond
      rw [if_pos hcond, hhash, (hthere z hygone).2]
      exact h.hashed z hz (hthere z hygone).1
    · rename_i hcond
      rw [if_neg hcond]
      exact h.hashed z hz hygone
  · change m.e.modify i f = []
    rw [h.none_made hno, List.modify_nil]
  · apply hheld.congr
    · intro j
      rw [nextIn, nextIn, List.getElem?_modify]
      cases m.e[j]? with
      | none => rfl
      | some y =>
        rw [Option.map_eq_map, Option.map_some, Option.bind_some, Option.bind_some]
        split
        · exact hlink y
        · rfl
    · intro j
      rw [hashIn, hashIn, List.getElem?_modify]
      cases m.e[j]? with
      | none => rfl
      | some y =>
        rw [Option.map_eq_map, Option.map_some, Option.map_some, Option.map_some]
        split
        · rw [hhash]
        · rfl
  · intro j hj
    dsimp only
    rw [List.length_modify]
    exact hlt j hj
  · intro j y hy hygone
    dsimp only at hy
    rw [hmap, List.getElem?_map, Option.map_eq_some_iff] at hy
    obtain ⟨z, hz, rfl⟩ := hy
    refine hall j z hz ?_
    split at hygone
    · exact (hthere z hygone).1
    · exact hygone

/-- What the entries from any place on become, their keys as `turn` says. -/
def Turned (e e' : List Jmentry) (turn : List Jval → List Jval) : Prop :=
  ∀ p ≤ e.length, p ≤ e'.length ∧ Ordered.keys (kept (e'.drop p)) = turn (Ordered.keys (kept (e.drop p)))

/-! ## Setting -/

theorem Jmap.Holds.value (hfind : jmFind m k = some i) (v : Jval) (made : Jval × Jval) :
    Jmap.Holds { m with e := m.e.modify i fun x => { x with v } } (Ordered.put K k.canon made fun old => (old.1, v)) ∧
      Turned m.e (m.e.modify i fun x => { x with v }) id := by
  obtain ⟨x, hx, hgone, hk⟩ := (jmFind_iff h k i).mp hfind
  have hmem : k.canon ∈ Ordered.keys K := by
    rw [← h.entries]
    exact mem_keys_kept.mpr ⟨i, x, hx, hgone, hk⟩
  have hput : Ordered.put K k.canon made (fun old => (old.1, v)) = K.map fun a => if a.1 = k.canon then (k.canon, (a.2.1, v)) else a :=
    if_pos hmem
  constructor
  · refine h.modify (f := fun x => { x with v }) hx hgone (fun _ => rfl) (fun _ => rfl) (fun _ hy => ⟨hy, rfl⟩) ?_ ?_ ?_
    · rw [hk, kept_value, h.entries, hput]
    · exact Ordered.nodup_put h.nodup _ _ _
    · rw [hput, List.length_map, h.live]
  · intro p hp
    rw [List.length_modify]
    refine ⟨hp, ?_⟩
    rw [modify_there (h.entries ▸ h.nodup) hx hgone, ← List.map_drop, kept_value, Ordered.keys, Ordered.keys, List.map_map]
    apply List.map_congr_left
    intro a _
    rw [Function.comp_apply]
    split
    · rename_i ha
      rw [ha, hk]
    · rfl

theorem jmRoom_holds {granted : Bool} (hroom : jmRoom m granted = some m') : m'.Holds K ∧ m'.e = m.e := by
  unfold jmRoom at hroom
  split at hroom
  · obtain rfl := Option.some.inj hroom
    exact ⟨h, rfl⟩
  · split at hroom
    · obtain rfl := Option.some.inj hroom
      exact ⟨⟨h.entries, h.nodup, h.live, h.hashed, h.none_made, h.chains⟩, rfl⟩
    · cases hroom

theorem jmRehash_holds {want : Nat} (hwant : 0 < want) (granted : Bool) :
    (jmRehash m want granted).Holds K ∧ (jmRehash m want granted).e.map Jmentry.unlinked = m.e.map Jmentry.unlinked ∧
      (granted = true → (jmRehash m want granted).heads.length = want) := by
  unfold jmRehash
  split
  · generalize hr : (List.range m.e.length).foldl chainUp (m.e, List.replicate want none) = r
    obtain ⟨hheld, hlen, hsame⟩ := chainUp_holds m.e want m.e.length hr
    have hlen' : r.1.length = m.e.length := by
      have hmap := congrArg List.length hsame
      rwa [List.length_map, List.length_map] at hmap
    have hback : ∀ (i : Nat) (x : Jmentry), r.1[i]? = some x → ∃ y, m.e[i]? = some y ∧ y.gone = x.gone ∧ y.hash = x.hash ∧ y.k = x.k := by
      intro i x hx
      have hi := unlinked_field Jmentry.unlinked (fun _ => rfl) hsame i
      rw [hx, Option.map_some] at hi
      obtain ⟨y, hy, hxy⟩ := Option.map_eq_some_iff.mp hi.symm
      exact ⟨y, hy, (congrArg Jmentry.gone hxy :), (congrArg Jmentry.hash hxy :), (congrArg Jmentry.k hxy :)⟩
    refine ⟨⟨?_, h.nodup, h.live, ?_, ?_, _, hheld, ?_, ?_⟩, hsame, fun _ => hlen⟩
    · have hkept := kept_unlinked hsame 0
      rw [List.drop_zero, List.drop_zero] at hkept
      rw [← h.entries, ← hkept]
    · intro x hx hgone
      obtain ⟨i, hi⟩ := List.getElem?_of_mem hx
      obtain ⟨y, hy, hygone, hhash, hk⟩ := hback i x hi
      rw [← hhash, ← hk]
      exact h.hashed y (List.mem_of_getElem? hy) (hygone.trans hgone)
    · intro hno
      have hno' : r.2 = [] := hno
      rw [hno', List.length_nil] at hlen
      omega
    · intro i hi
      rw [hlen']
      exact hi.1
    · intro i x hx hgone
      obtain ⟨y, hy, hygone, -⟩ := hback i x hx
      refine ⟨(List.getElem?_eq_some_iff.mp hy).1, ?_⟩
      rw [hy, Option.map_some, hygone, hgone]
  · rename_i hno
    exact ⟨h, rfl, fun hgranted => absurd hgranted hno⟩

theorem Jmap.Holds.push (hheads : m.heads ≠ []) (hk : k.canon ∉ Ordered.keys K) (v : Jval) :
    Jmap.Holds { m with e := m.e ++ [⟨k, v, jmHash k, m.heads.getD (bucket (jmHash k) m.heads.length) none, false⟩],
                        heads := m.heads.set (bucket (jmHash k) m.heads.length) (some m.e.length), live := m.live + 1 }
      (K ++ [(k.canon, (k, v))]) := by
  obtain ⟨P, hheld, hlt, hall⟩ := h.chains
  refine ⟨?_, ?_, ?_, ?_, fun hno => ?_, _, hheld.push (fun hP => Nat.lt_irrefl _ (hlt _ hP)) (List.getElem?_concat_length) rfl ?_, ?_, ?_⟩
  · rw [kept_append, h.entries]
    rfl
  · rw [Ordered.keys, List.map_append]
    change (Ordered.keys K ++ [k.canon]).Nodup
    rw [← List.concat_eq_append]
    exact h.nodup.concat hk
  · rw [List.length_append, List.length_singleton, h.live]
  · intro x hx hgone
    rcases List.mem_append.mp hx with hx | hx
    · exact h.hashed x hx hgone
    · obtain rfl := List.mem_singleton.mp hx
      rfl
  · have hlen := congrArg List.length hno
    rw [List.length_set] at hlen
    exact absurd (List.length_eq_zero_iff.mp hlen) hheads
  · exact fun j hj => getElem?_append_ne m.e _ hj
  · intro i hi
    rw [List.length_append, List.length_singleton]
    rcases hi with hi | rfl
    · exact Nat.lt_succ_of_lt (hlt i hi)
    · exact Nat.lt_succ_self _
  · intro i x hx hgone
    by_cases hi : i = m.e.length
    · exact .inr hi
    · rw [getElem?_append_ne m.e _ hi] at hx
      exact .inl (hall i x hx hgone)

theorem jmSet_holds (k v : Jval) :
    (jmSet m k v true true).Holds (Ordered.put K k.canon (k.zeroed, v) fun old => (old.1, v)) ∧
      Turned m.e (jmSet m k v true true).e fun l => if k.canon ∈ Ordered.keys K then l else l ++ [k.canon] := by
  unfold jmSet
  dsimp only
  split
  · rename_i i hfind
    have hmem : k.canon ∈ Ordered.keys K := by
      by_contra hno
      rw [← canon_zeroed, ← jmFind_none h, hfind] at hno
      cases hno
    obtain ⟨hholds, hturned⟩ := h.value hfind v (k.zeroed, v)
    rw [canon_zeroed] at hholds
    simp only [if_pos hmem]
    exact ⟨hholds, hturned⟩
  · rename_i hfind
    have hno : k.canon ∉ Ordered.keys K := by rwa [jmFind_none h, canon_zeroed] at hfind
    split
    · rename_i hroom
      unfold jmRoom at hroom
      split at hroom <;> cases hroom
    · rename_i m₁ hroom
      obtain ⟨h₁, he⟩ := jmRoom_holds h hroom
      generalize hm₂ : (if m₁.heads.length < m₁.e.length + 1 then
        jmRehash m₁ (if m₁.heads = [] then 8 else m₁.heads.length * 2) true else m₁) = m₂
      have hmade : m₂.Holds K ∧ m₂.e.map Jmentry.unlinked = m.e.map Jmentry.unlinked ∧ m₂.heads ≠ [] := by
        subst hm₂
        rw [← he]
        split
        · have hwant : 0 < if m₁.heads = [] then 8 else m₁.heads.length * 2 := by
            split
            · omega
            · rename_i hheads
              have hpos := List.length_pos_iff.mpr hheads
              omega
          obtain ⟨h₂, hsame, hlen⟩ := jmRehash_holds h₁ hwant true
          refine ⟨h₂, hsame, ?_⟩
          rw [← List.length_pos_iff, hlen rfl]
          exact hwant
        · rename_i hlong
          refine ⟨h₁, rfl, ?_⟩
          rw [← List.length_pos_iff]
          omega
      obtain ⟨h₂, hsame, hheads⟩ := hmade
      rw [if_neg hheads]
      have hpush := h₂.push (k := k.zeroed) hheads (by rwa [canon_zeroed]) v
      rw [canon_zeroed] at hpush
      rw [Ordered.put, if_neg hno]
      refine ⟨hpush, fun p hp => ?_⟩
      have hlen : m₂.e.length = m.e.length := by
        have hmap := congrArg List.length hsame
        rwa [List.length_map, List.length_map] at hmap
      have hlast : ∀ x : Jmentry, x.gone = false → kept [x] = [(x.k.canon, (x.k, x.v))] := fun x hx => by
        rw [kept, List.filterMap_cons, kept_there hx]
        rfl
      rw [List.length_append, hlen, List.drop_append_of_le_length (by rwa [hlen]), kept_append, kept_unlinked hsame,
        hlast _ rfl]
      refine ⟨Nat.le_succ_of_le hp, ?_⟩
      simp only [if_neg hno]
      simp only [canon_zeroed, Ordered.keys, List.map_append, List.map_cons, List.map_nil]

/-! ## Deleting -/

omit h in
theorem length_erase (hnodup : (Ordered.keys K).Nodup) {c : Jval} (hc : c ∈ Ordered.keys K) :
    (Ordered.erase K c).length = K.length - 1 := by
  have hfilter : (Ordered.keys K).filter (· ≠ c) = (Ordered.keys K).erase c := by
    rw [hnodup.erase_eq_filter]
    exact List.filter_congr fun x _ => by rw [Bool.eq_iff_iff, decide_eq_true_iff, bne_iff_ne]
  have hkeys := congrArg List.length (Ordered.keys_erase K c)
  rw [hfilter, List.length_erase_of_mem hc, Ordered.keys, Ordered.keys, List.length_map, List.length_map] at hkeys
  exact hkeys

theorem jmDelete_holds (k : Jval) :
    (jmDelete m k).1 = decide (k.canon ∈ Ordered.keys K) ∧ (jmDelete m k).2.Holds (Ordered.erase K k.canon) ∧
      Turned m.e (jmDelete m k).2.e fun l => l.filter (· ≠ k.canon) := by
  rw [← jmFind_isSome h]
  unfold jmDelete
  cases hfind : jmFind m k with
  | none =>
    have hno := (jmFind_none h k).mp hfind
    have hstay : ∀ l : List Jval, (∀ c ∈ l, c ∈ Ordered.keys K) → l.filter (· ≠ k.canon) = l := fun l hl =>
      List.filter_eq_self.mpr fun c hc => decide_eq_true fun hck => hno (hck ▸ hl c hc)
    refine ⟨rfl, ?_, fun p hp => ⟨hp, ?_⟩⟩
    · have herase : Ordered.erase K k.canon = K := List.filter_eq_self.mpr fun a ha =>
        decide_eq_true fun hck => hno (hck ▸ List.mem_map_of_mem ha)
      rw [herase]
      exact h
    · refine (hstay _ fun c hc => ?_).symm
      obtain ⟨i, x, hx, hgone, hk⟩ := mem_keys_kept.mp hc
      rw [← h.entries]
      rw [List.getElem?_drop] at hx
      exact mem_keys_kept.mpr ⟨p + i, x, hx, hgone, hk⟩
  | some i =>
    obtain ⟨x, hx, hgone, hk⟩ := (jmFind_iff h k i).mp hfind
    have hmem : k.canon ∈ Ordered.keys K := by
      rw [← h.entries]
      exact mem_keys_kept.mpr ⟨i, x, hx, hgone, hk⟩
    refine ⟨rfl, ?_, fun p hp => ?_⟩
    · refine h.modify (f := Jmentry.dropped) hx hgone (fun _ => rfl) (fun _ => rfl) (fun _ hy => nomatch hy) ?_ ?_ ?_
      · rw [hk, kept_dropped, h.entries]
      · exact Ordered.nodup_erase h.nodup _
      · rw [length_erase h.nodup hmem, h.live]
    · dsimp only
      rw [List.length_modify]
      refine ⟨hp, ?_⟩
      rw [modify_there (h.entries ▸ h.nodup) hx hgone, ← List.map_drop, kept_dropped, Ordered.keys_erase, hk]

theorem jmClear_holds : (jmClear m).Holds [] ∧ Turned m.e (jmClear m).e fun _ => [] := by
  obtain ⟨P, hheld, hlt, -⟩ := h.chains
  have hget : ∀ i : Nat, (m.e.map Jmentry.dropped)[i]? = m.e[i]?.map Jmentry.dropped := fun i => List.getElem?_map
  constructor
  · refine ⟨kept_cleared m.e, List.nodup_nil, rfl, ?_, fun hno => ?_, P, ?_, ?_, ?_⟩
    · intro x hx hgone
      obtain ⟨y, -, rfl⟩ := List.mem_map.mp hx
      cases hgone
    · exact List.map_eq_nil_iff.mpr (h.none_made hno)
    · apply hheld.congr
      · intro i
        change ((m.e.map Jmentry.dropped)[i]?).bind Jmentry.next = m.e[i]?.bind Jmentry.next
        rw [hget]
        cases m.e[i]? <;> rfl
      · intro i
        change (((m.e.map Jmentry.dropped)[i]?).map Jmentry.hash).getD 0 = (m.e[i]?.map Jmentry.hash).getD 0
        rw [hget]
        cases m.e[i]? <;> rfl
    · intro i hi
      exact (List.length_map Jmentry.dropped).symm ▸ hlt i hi
    · intro i x hx hgone
      obtain ⟨y, -, rfl⟩ := Option.map_eq_some_iff.mp ((hget i).symm.trans hx)
      cases hgone
  · intro p hp
    refine ⟨(List.length_map Jmentry.dropped).symm ▸ hp, ?_⟩
    change Ordered.keys (kept ((m.e.map Jmentry.dropped).drop p)) = []
    rw [← List.map_drop, kept_cleared]
    rfl

end

end

end Zelr.Js
