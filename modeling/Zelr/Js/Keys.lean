import Zelr.Js.Read
import Zelr.Js.Table

/-!
# Objects are ordered maps

What an object's properties are after any run, and the order its keys are listed in: array indices by their numbers,
then strings and then symbols as they were added.
-/

namespace Zelr.Js

open Nodes

/-! ## Array indices -/

def indexBytes (n : Nat) : Bytes := (Nat.toDigits 10 n).map fun c => UInt8.ofNat c.toNat

def IndexKey (k : PropKey) (n : Nat) : Prop := ¬ jsIsSymKey k ∧ n < 2 ^ 32 - 1 ∧ k.bytes = indexBytes n

theorem indexBytes_digit {n : Nat} (hn : n < 10) : indexBytes n = [UInt8.ofNat (48 + n)] := by
  rw [indexBytes, Nat.toDigits_of_lt_base hn]
  interval_cases n <;> rfl

theorem indexBytes_more {n d : Nat} (hn : 0 < n) (hd : d < 10) : indexBytes (10 * n + d) = indexBytes n ++ indexBytes d := by
  rw [indexBytes, ← Nat.toDigits_append_toDigits (by decide) hn hd, List.map_append]
  rfl

theorem digitsNum_digit {d : Nat} (hd : d < 10) : digitsNum [UInt8.ofNat (48 + d)] = d := by
  interval_cases d <;> rfl

def Plain (dg : Bytes) : Prop := dg ≠ [] ∧ (∀ c ∈ dg, IsDigit c) ∧ (1 < dg.length → dg.head? ≠ some '0'.toUInt8)

theorem indexBytes_plain (n : Nat) : Plain (indexBytes n) ∧ digitsNum (indexBytes n) = n ∧
    (0 < n → (indexBytes n).head? ≠ some '0'.toUInt8) := by
  induction n using Nat.strong_induction_on with
  | _ n ih =>
    rcases Nat.lt_or_ge n 10 with hn | hn
    · rw [indexBytes_digit hn]
      refine ⟨⟨List.cons_ne_nil _ _, ?_, fun h => absurd h (lt_irrefl 1)⟩, digitsNum_digit hn, ?_⟩
      · intro c hc
        obtain rfl := List.mem_singleton.mp hc
        interval_cases n <;> decide
      · intro hpos
        interval_cases n <;> decide
    · have hpos : 0 < n / 10 := by omega
      have hd : n % 10 < 10 := Nat.mod_lt _ (by decide)
      obtain ⟨⟨hne, hdigits, -⟩, hnum, hlead⟩ := ih (n / 10) (by omega)
      have hhead : (indexBytes (n / 10) ++ indexBytes (n % 10)).head? ≠ some '0'.toUInt8 := by
        rw [List.head?_append_of_ne_nil _ hne]
        exact hlead hpos
      rw [← Nat.div_add_mod n 10, indexBytes_more hpos hd]
      refine ⟨⟨List.append_ne_nil_of_left_ne_nil hne _, ?_, fun _ => hhead⟩, ?_, fun _ => hhead⟩
      · intro c hc
        rcases List.mem_append.mp hc with hc | hc
        · exact hdigits c hc
        · exact (ih (n % 10) (by omega)).1.2.1 c hc
      · rw [digitsNum_append, hnum, indexBytes_digit hd, digitsNum_digit hd]
        exact congrArg (· + n % 10) (Nat.mul_comm _ _)

theorem Plain.indexBytes {dg : Bytes} (h : Plain dg) : indexBytes (digitsNum dg) = dg := by
  induction dg using List.reverseRecOn with
  | nil => exact absurd rfl h.1
  | append_singleton dg c ih =>
    obtain ⟨-, hdigits, hlead⟩ := h
    obtain ⟨hlow, hhigh⟩ := hdigits c (by simp)
    have hc : digitsNum [c] < 10 ∧ c = UInt8.ofNat (48 + digitsNum [c]) := by
      have hone : digitsNum [c] = c.toNat - 48 := by simp [digitsNum]
      change 48 ≤ c.toNat at hlow
      change c.toNat ≤ 57 at hhigh
      rw [hone, Nat.add_sub_cancel' hlow, UInt8.ofNat_toNat]
      exact ⟨by omega, rfl⟩
    have hone : Js.indexBytes (digitsNum [c]) = [c] := by
      rw [indexBytes_digit hc.1, ← hc.2]
    rcases List.eq_nil_or_concat dg with rfl | ⟨_, _, hdg⟩
    · exact hone
    · have hne : dg ≠ [] := by
        rw [hdg]
        simp
      have hhead : dg.head? ≠ some '0'.toUInt8 := by
        have hfirst := hlead (by
          have := List.length_pos_iff.mpr hne
          rw [List.length_append, List.length_singleton]
          omega)
        rwa [List.head?_append_of_ne_nil _ hne] at hfirst
      have hfront : ∀ c ∈ dg, IsDigit c := fun c hc => hdigits c (List.mem_append_left _ hc)
      have hpos : 0 < digitsNum dg := lt_of_lt_of_le (by positivity) (le_digitsNum hfront hhead hne)
      rw [digitsNum_append, List.length_singleton, pow_one, Nat.mul_comm, indexBytes_more hpos hc.1, hone,
        ih ⟨hne, hfront, fun _ => hhead⟩]

theorem jsIndexKey_iff (k : PropKey) (n : Nat) : jsIndexKey k = some n ↔ IndexKey k n := by
  have hhead : ∀ dg : Bytes, dg ≠ [] → (byteAt dg 0 = '0'.toUInt8 ↔ dg.head? = some '0'.toUInt8) := fun dg hne => by
    cases dg with
    | nil => exact absurd rfl hne
    | cons c dg => simp [byteAt]
  unfold jsIndexKey IndexKey
  constructor
  · intro h
    split at h
    · cases h
    · rename_i hlen
      split at h
      · cases h
      · rename_i hlead
        split at h
        · rename_i hdigits
          obtain ⟨hlt, hn⟩ := Option.ite_none_right_eq_some.mp h
          obtain rfl := Option.some.inj hn
          rw [not_or, not_or] at hlen
          have hne : k.bytes ≠ [] := fun hnil => hlen.1 (congrArg List.length hnil)
          have hplain : Plain k.bytes := ⟨hne, hdigits, fun hlong hzero => hlead ⟨hlong, (hhead _ hne).mpr hzero⟩⟩
          exact ⟨hlen.2.2, hlt, hplain.indexBytes.symm⟩
        · cases h
  · rintro ⟨hsym, hlt, hbytes⟩
    obtain ⟨⟨hne, hdigits, hlead⟩, hnum, -⟩ := indexBytes_plain n
    rw [← hbytes] at hne hdigits hlead hnum
    have hlen : k.bytes.length ≤ 10 := by
      by_contra hlong
      have hle := le_digitsNum hdigits (hlead (by omega)) hne
      have hpow : 10 ^ 10 ≤ 10 ^ (k.bytes.length - 1) := Nat.pow_le_pow_right (by decide) (by omega)
      rw [hnum] at hle
      omega
    rw [if_neg, if_neg, if_pos hdigits, hnum, if_pos (show n < 0xFFFFFFFF from hlt)]
    · rintro ⟨hlong, hzero⟩
      exact hlead hlong ((hhead _ hne).mp hzero)
    · rintro (hzero | hlong | hyes)
      · exact hne (List.length_eq_zero_iff.mp hzero)
      · omega
      · exact hsym hyes

theorem IndexKey.inj {k k' : PropKey} {n : Nat} (h : IndexKey k n) (h' : IndexKey k' n) : k = k' := by
  obtain ⟨hsym, -, hbytes⟩ := h
  obtain ⟨hsym', -, hbytes'⟩ := h'
  have hsame := hbytes.trans hbytes'.symm
  have hhash : k.hash = k'.hash := by rw [k.own (not_not.mp hsym), k'.own (not_not.mp hsym'), hsame]
  cases k
  cases k'
  cases hsame
  cases hhash
  rfl

/-! ## Insertion from the end -/

section
variable {α : Type} {f : α → Nat} {past : α → Bool} {a : α} {l : List α}

def insertBack (past : α → Bool) (a : α) (l : List α) : List α := l.rdropWhile past ++ a :: l.rtakeWhile past

theorem insertBack_perm (past : α → Bool) (a : α) (l : List α) : (insertBack past a l).Perm (a :: l) := by
  rw [insertBack]
  refine List.perm_middle.trans ?_
  rw [List.rdropWhile_append_rtakeWhile]

theorem insertBack_sorted (hl : l.Pairwise fun b c => f b < f c) (hpast : ∀ b ∈ l, past b = decide (f a < f b))
    (hne : ∀ b ∈ l, f b ≠ f a) : (insertBack past a l).Pairwise fun b c => f b < f c := by
  induction l using List.reverseRecOn with
  | nil => exact List.pairwise_singleton _ a
  | append_singleton l b ih =>
    obtain ⟨hfront, -, hbelow⟩ := List.pairwise_append.mp hl
    have hb : b ∈ l ++ [b] := List.mem_append_right _ List.mem_cons_self
    have hin : ∀ c ∈ l, c ∈ l ++ [b] := fun c hc => List.mem_append_left _ hc
    by_cases hab : f a < f b
    · have hyes : past b = true := (hpast b hb).trans (decide_eq_true hab)
      have hrest := ih hfront (fun c hc => hpast c (hin c hc)) fun c hc => hne c (hin c hc)
      have hmove : insertBack past a (l ++ [b]) = insertBack past a l ++ [b] := by
        rw [insertBack, insertBack, List.rdropWhile_concat_pos _ _ _ hyes, List.rtakeWhile_concat_pos _ _ _ hyes,
          List.append_assoc, List.cons_append]
      rw [hmove]
      refine List.pairwise_append.mpr ⟨hrest, List.pairwise_singleton _ b, fun c hc d hd => ?_⟩
      obtain rfl := List.mem_singleton.mp hd
      rcases List.mem_cons.mp ((insertBack_perm past a l).mem_iff.mp hc) with rfl | hc
      · exact hab
      · exact hbelow c hc d List.mem_cons_self
    · have hno : ¬ past b = true := by
        rw [hpast b hb, decide_eq_true_iff]
        exact hab
      have hlt : f b < f a := lt_of_le_of_ne (Nat.le_of_not_lt hab) (hne b hb)
      rw [insertBack, List.rdropWhile_concat_neg _ _ _ hno, List.rtakeWhile_concat_neg _ _ _ hno]
      refine List.pairwise_append.mpr ⟨hl, List.pairwise_singleton _ a, fun c hc d hd => ?_⟩
      obtain rfl := List.mem_singleton.mp hd
      rcases List.mem_append.mp hc with hc | hc
      · exact (hbelow c hc b List.mem_cons_self).trans hlt
      · obtain rfl := List.mem_singleton.mp hc
        exact hlt

end

/-! ## Listing -/

def IsIndex (k : PropKey) : Prop := ∃ n, IndexKey k n

theorem isIndex_iff (k : PropKey) : (jsIndexKey k).isSome ↔ IsIndex k := by
  rw [Option.isSome_iff_exists]
  exact exists_congr fun n => jsIndexKey_iff k n

instance (k : PropKey) : Decidable (IsIndex k) := decidable_of_iff _ (isIndex_iff k)

variable {V : Type}

def shown (m : List (PropKey × (V × Nat))) (want : Want) : List PropKey :=
  (m.filter fun e => ¬ (want.enum ∧ e.2.2 &&& JP_ENUM = 0)).map Prod.fst

/-- The wanted keys of a map, each once: indices by their numbers, other strings as they were added, then symbols so. -/
def Listed (m : List (PropKey × (V × Nat))) (want : Want) (ks : List PropKey) : Prop :=
  ∃ indices, ks = indices ++ (shown m want).filter (fun k => ¬ jsIsSymKey k ∧ want.str ∧ ¬ IsIndex k) ++
      (shown m want).filter (fun k => want.sym ∧ jsIsSymKey k) ∧
    indices.Perm ((shown m want).filter fun k => want.str ∧ IsIndex k) ∧
    indices.Pairwise fun a b => ∀ i j, IndexKey a i → IndexKey b j → i < j

section
variable {S : Props V} {order : List Nat} {m : List (PropKey × (V × Nat))}

def Props.index (S : Props V) (p : Nat) : Nat := (jsIndexKey (S.key p)).getD 0

def indicesOf (S : Props V) (want : Want) (ps : List Nat) : List Nat :=
  ps.foldl (fun list p =>
    match jsIndexKey (S.key p) with
    | some v => if want.str then putBack S list v p else list
    | none => list) []

theorem indicesOf_right (want : Want) {ps : List Nat} (hps : (ps.map S.key).Nodup) :
    (indicesOf S want ps).Perm (ps.filter fun p => want.str ∧ IsIndex (S.key p)) ∧
      (indicesOf S want ps).Pairwise fun p q => S.index p < S.index q := by
  induction ps using List.reverseRecOn with
  | nil => exact ⟨.refl _, .nil⟩
  | append_singleton ps p ih =>
    rw [List.map_append] at hps
    obtain ⟨hfront, -, hapart⟩ := List.nodup_append.mp hps
    obtain ⟨hperm, hsorted⟩ := ih hfront
    have hstep : indicesOf S want (ps ++ [p]) = match jsIndexKey (S.key p) with
        | some v => if want.str then putBack S (indicesOf S want ps) v p else indicesOf S want ps
        | none => indicesOf S want ps := by
      rw [indicesOf, List.foldl_append]
      rfl
    rw [hstep, List.filter_append]
    cases hv : jsIndexKey (S.key p) with
    | none =>
      have hno : ¬ IsIndex (S.key p) := fun hyes => by
        rw [← isIndex_iff, hv] at hyes
        cases hyes
      rw [List.filter_cons_of_neg (by simp [hno]), List.filter_nil, List.append_nil]
      exact ⟨hperm, hsorted⟩
    | some v =>
      have hyes : IsIndex (S.key p) := ⟨v, (jsIndexKey_iff _ _).mp hv⟩
      dsimp only
      split
      · rename_i hstr
        have hmem : ∀ q ∈ indicesOf S want ps, q ∈ ps ∧ ∃ w, jsIndexKey (S.key q) = some w := fun q hq => by
          obtain ⟨hqs, hq⟩ := List.mem_filter.mp (hperm.mem_iff.mp hq)
          obtain ⟨-, w, hw⟩ := of_decide_eq_true hq
          exact ⟨hqs, w, (jsIndexKey_iff _ _).mpr hw⟩
        have hindex : S.index p = v := by rw [Props.index, hv, Option.getD_some]
        rw [List.filter_cons_of_pos (by simp [hstr, hyes]), List.filter_nil]
        refine ⟨(insertBack_perm _ p _).trans ?_, insertBack_sorted (f := S.index) hsorted (fun q hq => ?_) fun q hq hsame => ?_⟩
        · exact (hperm.cons p).trans (List.perm_append_singleton p _).symm
        · obtain ⟨-, w, hw⟩ := hmem q hq
          rw [hindex, Props.index, hw]
          rfl
        · obtain ⟨hqs, w, hw⟩ := hmem q hq
          rw [hindex, Props.index, hw, Option.getD_some] at hsame
          subst hsame
          have hkey := ((jsIndexKey_iff _ _).mp hw).inj ((jsIndexKey_iff _ _).mp hv)
          exact hapart _ (List.mem_map.mpr ⟨q, hqs, rfl⟩) _ List.mem_cons_self hkey
      · rename_i hstr
        rw [List.filter_cons_of_neg (by simp [hstr]), List.filter_nil, List.append_nil]
        exact ⟨hperm, hsorted⟩

theorem shown_eq (h : InOrder S order m) (want : Want) :
    shown m want = (order.filter fun p => ¬ want.skips (S.mem p)).map S.key := by
  rw [shown, ← h.entries, List.filter_map, List.map_map]
  rfl

theorem jsKeysOf_listed (h : Holds S order m) (want : Want) : Listed m want ((jsKeysOf S want).map S.key) := by
  unfold jsKeysOf
  rw [h.linked.follow_eq (le_of_eq h.count.symm)]
  dsimp only
  have hshown := shown_eq h.toInOrder want
  have hkept : ((order.filter fun p => ¬ want.skips (S.mem p)).map S.key).Nodup := by
    refine List.Nodup.sublist (List.filter_sublist.map S.key) ?_
    rw [← h.keys]
    exact h.nodup
  generalize (order.filter fun p => ¬ want.skips (S.mem p)) = kept at hshown hkept
  obtain ⟨hperm, hsorted⟩ := indicesOf_right want hkept
  have hstrings : (kept.filter fun p => ¬ jsIsSymKey (S.key p) ∧ want.str ∧ jsIndexKey (S.key p) = none).map S.key =
      (shown m want).filter fun k => ¬ jsIsSymKey k ∧ want.str ∧ ¬ IsIndex k := by
    rw [hshown, List.filter_map]
    congr 1
    apply List.filter_congr
    intro p _
    rw [Function.comp_apply, decide_eq_decide, ← isIndex_iff, Option.not_isSome_iff_eq_none]
  have hsymbols : (if want.sym then kept.filter fun p => jsIsSymKey (S.key p) else []).map S.key =
      (shown m want).filter fun k => want.sym ∧ jsIsSymKey k := by
    rw [hshown, List.filter_map]
    split
    · rename_i hsym
      congr 1
      apply List.filter_congr
      intro p _
      simp [hsym]
    · rename_i hsym
      simp [hsym]
  have hindices : ((indicesOf S want kept).map S.key).Perm ((shown m want).filter fun k => want.str ∧ IsIndex k) := by
    rw [hshown, List.filter_map]
    exact hperm.map S.key
  have hall : Listed m want ((indicesOf S want kept ++
      (kept.filter fun p => ¬ jsIsSymKey (S.key p) ∧ want.str ∧ jsIndexKey (S.key p) = none) ++
      if want.sym then kept.filter fun p => jsIsSymKey (S.key p) else []).map S.key) := by
    refine ⟨_, by rw [List.map_append, List.map_append, hstrings, hsymbols], hindices, ?_⟩
    rw [List.pairwise_map]
    refine hsorted.imp fun {p q} hlt i j hi hj => ?_
    rw [Props.index, Props.index, (jsIndexKey_iff _ _).mpr hi, (jsIndexKey_iff _ _).mpr hj] at hlt
    exact hlt
  split
  · rename_i hnone
    -- with nothing wanted there is nothing in any of the three
    have hno : ∀ p ∈ kept, ¬ (if jsIsSymKey (S.key p) then want.sym else want.str) = true := List.countP_eq_zero.mp hnone
    convert hall using 1
    refine (List.map_eq_nil_iff.mpr ?_).symm
    rw [List.append_eq_nil_iff, List.append_eq_nil_iff]
    refine ⟨⟨?_, ?_⟩, ?_⟩
    · apply List.Perm.eq_nil
      refine hperm.trans (.of_eq (List.filter_eq_nil_iff.mpr fun p hp hyes => ?_))
      obtain ⟨hstr, n, hindex⟩ := of_decide_eq_true hyes
      exact hno p hp (by rw [if_neg hindex.1, hstr])
    · refine List.filter_eq_nil_iff.mpr fun p hp hyes => ?_
      obtain ⟨hstring, hstr, -⟩ := of_decide_eq_true hyes
      exact hno p hp (by rw [if_neg hstring, hstr])
    · split
      · rename_i hsym
        refine List.filter_eq_nil_iff.mpr fun p hp hyes => ?_
        exact hno p hp (by rw [if_pos (of_decide_eq_true hyes), hsym])
      · rfl
  · exact hall

end

/-! ## Runs -/

def PropAct.apply (m : List (PropKey × (V × Nat))) : PropAct V → List (PropKey × (V × Nat))
  | .put k v flags _ _ => Ordered.put m k (v, flags) fun old => (v, old.2)
  | .delete k => Ordered.erase m k

/-- A property that is new is granted a node that is not in use, and a larger table if it asks for one. -/
def PropAct.Granted (S : Props V) : PropAct V → Prop
  | .put k _ _ table node =>
    jsFind S k = none → table = true ∧ ∃ p ∈ node, p ∉ follow S.onext S.o.count S.o.ofirst
  | .delete _ => True

instance (S : Props V) : (a : PropAct V) → Decidable (a.Granted S)
  | .put k _ _ table node =>
    inferInstanceAs (Decidable (jsFind S k = none → table = true ∧ ∃ p ∈ node, p ∉ follow S.onext S.o.count S.o.ofirst))
  | .delete _ => inferInstanceAs (Decidable True)

variable {S S' : Props V} {m : List (PropKey × (V × Nat))}

theorem noProps_holds (mem : Nat → Jprop V) : Holds (noProps mem) [] [] where
  linked := rfl
  last := rfl
  count := rfl
  entries := rfl
  nodup := .nil
  none_made _ := rfl
  made _ hbs := nomatch hbs

theorem step_holds {a : PropAct V} (h : ∃ order, Holds S order m) (hgranted : a.Granted S) (hstep : a.step S = some S') :
    ∃ order, Holds S' order (a.apply m) := by
  obtain ⟨order, h⟩ := h
  cases a with
  | put k v flags table node =>
    obtain rfl := Option.some.inj hstep
    apply jsPutPropFlags_holds h
    rw [← h.linked.follow_eq (le_of_eq h.count.symm)]
    exact hgranted
  | delete k =>
    obtain rfl := Option.some.inj hstep
    by_cases hk : k ∈ Ordered.keys m
    · exact (jsDeleteProp_holds h hk).2
    · rw [jsDeleteProp_none h hk]
      refine ⟨order, ?_⟩
      have hsame : (PropAct.delete k).apply m = m := List.filter_eq_self.mpr fun e he => by
        rw [decide_eq_true_eq]
        rintro rfl
        exact hk (List.mem_map.mpr ⟨e, he, rfl⟩)
      rw [hsame]
      exact h

theorem run_holds {acts : List (PropAct V)} (h : ∃ order, Holds S order m)
    (hgranted : Runs.Each PropAct.step PropAct.Granted S acts) (hrun : Runs.run PropAct.step S acts = some S') :
    ∃ order, Holds S' order (acts.foldl PropAct.apply m) := by
  induction acts generalizing S m with
  | nil =>
    obtain rfl := Option.some.inj hrun
    exact h
  | cons a acts ih =>
    obtain ⟨S₁, hstep, hrest⟩ := Runs.run_cons.mp hrun
    exact ih (step_holds h hgranted.1 hstep) (hgranted.2 S₁ hstep) hrest

/-- An object is an ordered map: whatever was done, each key is found with what the map has for it, and the keys are
listed in the map's order. -/
theorem object_is_map (mem : Nat → Jprop V) (acts : List (PropAct V))
    (hgranted : Runs.Each PropAct.step PropAct.Granted (noProps mem) acts)
    (hrun : Runs.run PropAct.step (noProps mem) acts = some S) :
    (∀ k, (jsFind S k).map (fun p => ((S.mem p).v, (S.mem p).flags)) = Ordered.get (acts.foldl PropAct.apply []) k) ∧
      ∀ want, Listed (acts.foldl PropAct.apply []) want ((jsKeysOf S want).map S.key) := by
  obtain ⟨order, h⟩ := run_holds ⟨[], noProps_holds mem⟩ hgranted hrun
  exact ⟨jsFind_get h, jsKeysOf_listed h⟩

/-- Strings, an index and a symbol, more than the first table has chains; a string is taken out and made again in the
same place of memory. -/
def madeAgain : List (PropAct Nat) :=
  [.put (.string (ascii "b")) 1 7 true (some 1), .put (.string (ascii "10")) 2 7 true (some 2),
    .put (jsSymNew (ascii "b") 5) 3 7 true (some 3), .delete (.string (ascii "b")),
    .put (.string (ascii "c")) 4 7 true (some 4), .put (.string (ascii "d")) 5 7 true (some 5),
    .put (.string (ascii "b")) 6 7 true (some 1)]

def madeObject : Props Nat :=
  (Runs.run PropAct.step (noProps fun _ => ⟨.string [], 0, 0, none, none⟩) madeAgain).get (by decide +kernel)

theorem object_is_map_sample :
    madeObject.o.buckets.map List.length = some 8 ∧
      (jsFind madeObject (.string (ascii "b"))).map (fun p => ((madeObject.mem p).v, (madeObject.mem p).flags)) = some (6, 7) ∧
      Listed (madeAgain.foldl PropAct.apply []) ⟨true, true, false⟩
        ((jsKeysOf madeObject ⟨true, true, false⟩).map madeObject.key) :=
  have h := object_is_map _ madeAgain (by decide +kernel) (Option.some_get (by decide +kernel)).symm
  ⟨by decide +kernel, (h.1 _).trans (by decide +kernel), h.2 _⟩

end Zelr.Js
