import Zelr.Js.Insertion

/-!
# Walks over a map

An iterator is a place in the list of entries. A Set given -0 keeps it as a value, and walks show
it.
-/

namespace Zelr.Js

variable {e : List Jmentry} {A : OrderedMap} {w : IterKind × Option (List Jval)} {C : Collection}

/-! ## What a Map and a Set are for -/

/-- A map in insertion order, and what each of its iterators has still to come to. One that has ended stays so. -/
structure OrderedMap where
  isSet : Bool
  m : List (Jval × (Jval × Jval))
  iters : List (IterKind × Option (List Jval))

namespace OrderedMap

def new (isSet : Bool) : OrderedMap := ⟨isSet, [], []⟩

variable (A : OrderedMap)

def turn (f : List Jval → List Jval) : List (IterKind × Option (List Jval)) := A.iters.map fun it => (it.1, it.2.map f)

def put (k v : Jval) : OrderedMap :=
  { A with m := Ordered.put A.m k.canon (k.zeroed, v) fun old => (old.1, v),
           iters := A.turn fun l => if k.canon ∈ Ordered.keys A.m then l else l ++ [k.canon] }

def delete (k : Jval) : OrderedMap :=
  { A with m := Ordered.erase A.m k.canon, iters := A.turn fun l => l.filter (· ≠ k.canon) }

def clear : OrderedMap := { A with m := [], iters := A.turn fun _ => [] }

def next (it : IterKind × Option (List Jval)) : Option Item × (IterKind × Option (List Jval)) :=
  match it.2 with
  | some (c :: l) => ((Ordered.get A.m c).map fun a => it.1.item A.isSet a.1 a.2, (it.1, some l))
  | _ => (none, (it.1, none))

/-- One call. The value of a Set's entry is its key. -/
def act : CollAct → Option (CollAnswer × OrderedMap)
  | .set k v _ _ => if A.isSet then none else some (.made, A.put k v)
  | .add k _ _ =>
    if A.isSet then some (.made, if k.canon ∈ Ordered.keys A.m then A else A.put k k.zeroed) else none
  | .delete k => some (.yes (k.canon ∈ Ordered.keys A.m), A.delete k)
  | .clear => some (.made, A.clear)
  | .walk kind => some (.made, { A with iters := A.iters ++ [(kind, some (Ordered.keys A.m))] })
  | .next j => do
    let it ← A.iters[j]?
    let r := A.next it
    return (.item r.1, { A with iters := A.iters.set j r.2 })
  | .get k => if A.isSet then none else some (.value (((Ordered.get A.m k.canon).map Prod.snd).getD .undef), A)
  | .has k => some (.yes (k.canon ∈ Ordered.keys A.m), A)
  | .size => some (.count A.m.length, A)

def step (A : OrderedMap) (a : CollAct) : Option OrderedMap := (A.act a).map Prod.snd

end OrderedMap

section
variable {α β : Type} {R : α → β → Prop} {l : List α} {l' : List β}

theorem forall₂_getElem? (h : List.Forall₂ R l l') (i : Nat) : Option.Rel R l[i]? l'[i]? := by
  induction h generalizing i with
  | nil => exact .none
  | cons hhead _ ih =>
    cases i with
    | zero => exact .some hhead
    | succ i => exact ih i

theorem forall₂_set (h : List.Forall₂ R l l') {a : α} {b : β} (hab : R a b) (i : Nat) :
    List.Forall₂ R (l.set i a) (l'.set i b) := by
  induction h generalizing i with
  | nil => exact .nil
  | cons hhead hrest ih =>
    cases i with
    | zero => exact .cons hab hrest
    | succ i => exact .cons hhead (ih i)

end

/-! ## Iterators -/

theorem passGone_kept {f i : Nat} (hi : i ≤ e.length) (hf : e.length ≤ i + f) :
    passGone e f i ≤ e.length ∧ kept (e.drop (passGone e f i)) = kept (e.drop i) ∧
      ∀ x, e[passGone e f i]? = some x → x.gone = false := by
  induction f generalizing i with
  | zero =>
    refine ⟨hi, rfl, fun x hx => ?_⟩
    rw [passGone, List.getElem?_eq_none (by omega)] at hx
    cases hx
  | succ f ih =>
    unfold passGone
    split
    · rename_i hgone
      rw [Option.any_eq_true] at hgone
      obtain ⟨x, hx, hgone⟩ := hgone
      obtain ⟨hlt, rfl⟩ := List.getElem?_eq_some_iff.mp hx
      obtain ⟨hle, hkept, hthere⟩ := ih (show i + 1 ≤ e.length from hlt) (by omega)
      refine ⟨hle, hkept.trans ?_, hthere⟩
      rw [List.drop_eq_getElem_cons hlt, kept, kept, List.filterMap_cons, kept_gone hgone]
    · rename_i hno
      refine ⟨hi, rfl, fun x hx => ?_⟩
      rw [hx] at hno
      exact Bool.eq_false_iff.mpr hno

def Comes (e : List Jmentry) (it : MapIter) (w : IterKind × Option (List Jval)) : Prop :=
  it.pos ≤ e.length ∧ w = (it.kind, if it.walking then some (Ordered.keys (kept (e.drop it.pos))) else none)

theorem comes_turn {e' : List Jmentry} {turn : List Jval → List Jval} (hturned : Turned e e' turn) {its : List MapIter}
    {ws : List (IterKind × Option (List Jval))} (h : List.Forall₂ (Comes e) its ws) :
    List.Forall₂ (Comes e') its (ws.map fun w => (w.1, w.2.map turn)) := by
  induction h with
  | nil => exact .nil
  | cons hcomes _ ih =>
    refine .cons ?_ ih
    obtain ⟨hpos, rfl⟩ := hcomes
    obtain ⟨hpos', hkeys⟩ := hturned _ hpos
    refine ⟨hpos', ?_⟩
    rw [hkeys]
    split <;> rfl

theorem next_comes {m : Jmap} {K : List (Jval × (Jval × Jval))} (h : m.Holds K) {isSet : Bool} (hA : A.m = K)
    (hset : A.isSet = isSet) {it : MapIter} (hcomes : Comes m.e it w) :
    (natMapiterNext m isSet it).1 = (A.next w).1 ∧ Comes m.e (natMapiterNext m isSet it).2 (A.next w).2 := by
  obtain ⟨hpos, rfl⟩ := hcomes
  unfold natMapiterNext
  split
  · rename_i hwalking
    obtain ⟨hle, hkept, hthere⟩ := passGone_kept hpos (Nat.le_add_left m.e.length it.pos)
    dsimp only
    generalize passGone m.e m.e.length it.pos = i at hle hkept hthere ⊢
    rw [← hkept]
    split
    · rename_i hend
      rw [List.drop_eq_nil_of_le (List.getElem?_eq_none_iff.mp hend)]
      exact ⟨rfl, hpos, rfl⟩
    · rename_i x hx
      obtain ⟨hlt, hxi⟩ := List.getElem?_eq_some_iff.mp hx
      have hcons : kept (m.e.drop i) = (x.k.canon, (x.k, x.v)) :: kept (m.e.drop (i + 1)) := by
        rw [List.drop_eq_getElem_cons hlt, hxi, kept, kept, List.filterMap_cons, kept_there (hthere x hx)]
      have hget : Ordered.get A.m x.k.canon = some (x.k, x.v) := by
        apply Ordered.get_of_mem (hA ▸ h.nodup)
        rw [hA, ← h.entries]
        exact mem_kept.mpr ⟨i, x, hx, hthere x hx, rfl⟩
      rw [hcons]
      refine ⟨?_, hlt, ?_⟩
      · change _ = (Ordered.get A.m x.k.canon).map _
        rw [hget, hset]
        rfl
      · change (it.kind, some (Ordered.keys (kept (m.e.drop (i + 1))))) = _
        rw [if_pos hwalking]
  · rename_i hwalking
    refine ⟨rfl, hpos, ?_⟩
    rw [if_neg hwalking]
    rfl

/-! ## Runs -/

def CollAct.Granted : CollAct → Prop
  | .set _ _ room table | .add _ room table => room = true ∧ table = true
  | _ => True

instance CollAct.decidableGranted (a : CollAct) : Decidable a.Granted := by
  unfold CollAct.Granted
  split <;> infer_instance

/-- A Set is given -0 only where it has a zero. -/
def CollAct.ZeroKnown (C : Collection) : CollAct → Prop
  | .add k _ _ => k = .num NEG_ZERO → jmFind C.m k ≠ none
  | _ => True

instance (C : Collection) (a : CollAct) : Decidable (a.ZeroKnown C) := by
  unfold CollAct.ZeroKnown
  split <;> infer_instance

structure Collection.Holds (C : Collection) (A : OrderedMap) : Prop where
  isSet : A.isSet = C.isSet
  table : C.m.Holds A.m
  iters : List.Forall₂ (Comes C.m.e) C.iters A.iters

theorem new_holds (isSet : Bool) : (newCollection isSet).Holds (OrderedMap.new isSet) := ⟨rfl, jmNew_holds, .nil⟩

theorem act_holds (h : C.Holds A) {a : CollAct} (hmem : a.Granted) (hzero : a.ZeroKnown C) :
    Option.Rel (fun r s => r.1 = s.1 ∧ r.2.Holds s.2) (a.act C) (A.act a) := by
  cases a with
  | set k v room table =>
    obtain ⟨rfl, rfl⟩ := hmem
    simp only [CollAct.act, OrderedMap.act, h.isSet]
    split
    · exact .none
    · obtain ⟨hholds, hturned⟩ := jmSet_holds h.table k v
      exact .some ⟨rfl, h.isSet, hholds, comes_turn hturned h.iters⟩
  | add k room table =>
    obtain ⟨rfl, rfl⟩ := hmem
    simp only [CollAct.act, OrderedMap.act, h.isSet]
    split
    · refine .some ⟨rfl, ?_⟩
      dsimp only
      by_cases hfind : jmFind C.m k = none
      · have hk : k.zeroed = k := zeroed_of_ne fun hk => hzero hk hfind
        rw [if_pos hfind, if_neg ((jmFind_none h.table k).mp hfind), hk]
        obtain ⟨hholds, hturned⟩ := jmSet_holds h.table k k
        exact ⟨h.isSet, hholds, comes_turn hturned h.iters⟩
      · rw [if_neg hfind, if_pos (not_not.mp (mt (jmFind_none h.table k).mpr hfind))]
        exact h
    · exact .none
  | delete k =>
    obtain ⟨hyes, hholds, hturned⟩ := jmDelete_holds h.table k
    exact .some ⟨congrArg CollAnswer.yes hyes, h.isSet, hholds, comes_turn hturned h.iters⟩
  | clear =>
    obtain ⟨hholds, hturned⟩ := jmClear_holds h.table
    exact .some ⟨rfl, h.isSet, hholds, comes_turn hturned h.iters⟩
  | walk kind =>
    refine .some ⟨rfl, h.isSet, h.table, List.rel_append h.iters (.cons ⟨Nat.zero_le _, ?_⟩ .nil)⟩
    rw [if_pos rfl, List.drop_zero, h.table.entries]
  | next j =>
    simp only [CollAct.act, OrderedMap.act]
    have hj := forall₂_getElem? h.iters j
    generalize C.iters[j]? = it at hj ⊢
    generalize A.iters[j]? = w at hj ⊢
    cases hj with
    | none => exact .none
    | some hcomes =>
      obtain ⟨hitem, hcomes'⟩ := next_comes h.table rfl h.isSet hcomes
      exact .some ⟨congrArg CollAnswer.item hitem, h.isSet, h.table, forall₂_set h.iters hcomes' j⟩
  | get k =>
    simp only [CollAct.act, OrderedMap.act, h.isSet]
    split
    · exact .none
    · refine .some ⟨congrArg (fun v : Option Jval => CollAnswer.value (v.getD .undef)) ?_, h⟩
      rw [← jmFind_get h.table, Option.map_bind]
      congr 1
      funext i
      rw [Function.comp_apply, Option.map_map]
      rfl
  | has k => exact .some ⟨congrArg CollAnswer.yes (jmFind_isSome h.table k), h⟩
  | size => exact .some ⟨congrArg CollAnswer.count h.table.live, h⟩

theorem act_answer (h : C.Holds A) (a : CollAct) :
    (a.act C).map Prod.fst = (A.act a).map Prod.fst := by
  have hrel : a.Granted → a.ZeroKnown C → (a.act C).map Prod.fst = (A.act a).map Prod.fst := fun hmem hzero => by
    have hact := act_holds h hmem hzero
    generalize a.act C = r at hact ⊢
    generalize A.act a = s at hact ⊢
    cases hact with
    | none => rfl
    | some hrs => exact congrArg some hrs.1
  cases a with
  | set k v room table =>
    simp only [CollAct.act, OrderedMap.act, h.isSet]
    split <;> rfl
  | add k room table =>
    simp only [CollAct.act, OrderedMap.act, h.isSet]
    split <;> rfl
  | _ => exact hrel trivial trivial

theorem acts_hold {as : List CollAct} (hmem : ∀ a ∈ as, a.Granted) {C' : Collection} (h : C.Holds A)
    (hzero : Runs.Each CollAct.step (fun C a => a.ZeroKnown C) C as) (hrun : Runs.run CollAct.step C as = some C') :
    ∃ A', Runs.run OrderedMap.step A as = some A' ∧ C'.Holds A' := by
  induction as generalizing C A with
  | nil =>
    obtain rfl := Option.some.inj hrun
    exact ⟨A, rfl, h⟩
  | cons a as ih =>
    obtain ⟨D, hD, hrun⟩ := Runs.run_cons.mp hrun
    obtain ⟨hzero, hrest⟩ := hzero
    have hact := act_holds h (hmem a List.mem_cons_self) hzero
    obtain ⟨r, hr, rfl⟩ := Option.map_eq_some_iff.mp hD
    rw [hr] at hact
    generalize hs : A.act a = s at hact
    cases hact with
    | some hrs =>
      rename_i s
      obtain ⟨A', hA', h'⟩ := ih (fun b hb => hmem b (List.mem_cons_of_mem a hb)) hrs.2 (hrest _ hD) hrun
      refine ⟨A', Runs.run_cons.mpr ⟨s.2, ?_, hA'⟩, h'⟩
      rw [OrderedMap.step, hs]
      rfl

theorem Collection.Holds.suffix (h : C.Holds A)
    (hw : w ∈ A.iters) {l : List Jval} (hl : w.2 = some l) : l <:+ Ordered.keys A.m := by
  obtain ⟨j, hj⟩ := List.getElem?_of_mem hw
  have hrel := forall₂_getElem? h.iters j
  rw [hj] at hrel
  generalize C.iters[j]? = it at hrel
  cases hrel with
  | some hcomes =>
    obtain ⟨-, rfl⟩ := hcomes
    rw [← h.table.entries]
    split at hl
    · obtain rfl := Option.some.inj hl
      exact ((List.drop_suffix _ _).filterMap Jmentry.kept).map Prod.fst
    · cases hl

/-- Whatever is called in whatever order, a Map or Set answers as a map in insertion order, as long as no Set is given -0
where it has no zero. -/
theorem map_in_order (isSet : Bool) {as : List CollAct} (hmem : ∀ a ∈ as, a.Granted)
    (hzero : Runs.Each CollAct.step (fun C a => a.ZeroKnown C) (newCollection isSet) as) {C : Collection}
    (hrun : Runs.run CollAct.step (newCollection isSet) as = some C) :
    ∃ A, Runs.run OrderedMap.step (.new isSet) as = some A ∧ (Ordered.keys A.m).Nodup ∧
      (∀ w ∈ A.iters, ∀ l ∈ w.2, l <:+ Ordered.keys A.m) ∧
      ∀ a, (a.act C).map Prod.fst = (A.act a).map Prod.fst := by
  obtain ⟨A, hA, h⟩ := acts_hold hmem (new_holds isSet) hzero hrun
  exact ⟨A, hA, h.table.nodup, fun w hw l hl => h.suffix hw hl, act_answer h⟩

/-- Two walks over a Map, with a key deleted before one of them, and so many added behind both that its table grows. -/
def mixedWalks : List CollAct :=
  [.set (.num NEG_ZERO) (.str [97]) true true, .set (.str [98]) .null true true, .walk .entries, .next 0, .walk .keys,
    .delete (.num 0), .set .undef (.bool true) true true] ++
  (List.range 7).map (fun i => .set (.str [UInt8.ofNat i]) .null true true) ++ [.next 1]

theorem map_in_order_sample : ∃ C, Runs.run CollAct.step (newCollection false) mixedWalks = some C ∧
    C.m.heads.length = 16 ∧ ∃ A, Runs.run OrderedMap.step (.new false) mixedWalks = some A ∧ (Ordered.keys A.m).Nodup ∧
      (∀ w ∈ A.iters, ∀ l ∈ w.2, l <:+ Ordered.keys A.m) ∧ ∀ a, (a.act C).map Prod.fst = (A.act a).map Prod.fst := by
  have hgrown : (Runs.run CollAct.step (newCollection false) mixedWalks).map (·.m.heads.length) = some 16 := by decide
  obtain ⟨C, hC, hlength⟩ := Option.map_eq_some_iff.mp hgrown
  exact ⟨C, hC, hlength, map_in_order false (by decide) (by decide) hC⟩

/-- A Set that was given -0 shows it. -/
theorem set_shows_minus_zero : ∃ C A,
    Runs.run CollAct.step (newCollection true) [.add (.num NEG_ZERO) true true, .walk .values] = some C ∧
      Runs.run OrderedMap.step (.new true) [.add (.num NEG_ZERO) true true, .walk .values] = some A ∧
      ((CollAct.next 0).act C).map Prod.fst = some (.item (some (.one (.num NEG_ZERO)))) ∧
      (A.act (.next 0)).map Prod.fst = some (.item (some (.one (.num 0)))) ∧
      ¬ ∀ a, (a.act C).map Prod.fst = (A.act a).map Prod.fst := by
  refine ⟨_, _, rfl, rfl, by decide, by decide, fun h => ?_⟩
  exact absurd (h (.next 0)) (by decide)

end Zelr.Js
