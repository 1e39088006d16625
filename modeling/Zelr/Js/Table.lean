import Zelr.Js.Props

/-!
# A table and an order through the same nodes

The chains of the table and the order together hold the object's properties, whatever is added, changed, taken out and
moved to a larger table.
-/

namespace Zelr.Js

open Nodes

variable {β : Type} {c lo ro : List Nat}

variable {V : Type} {S S' : Props V} {k : PropKey} {bs fresh : List (Option Nat)} {P Q : Nat → Prop} {p q : Nat}

theorem jsStrEq_iff (a b : PropKey) : jsStrEq a b = true ↔ a = b := by
  rw [jsStrEq, decide_eq_true_iff]
  constructor
  · rintro ⟨hlen, hhash, hbytes⟩
    have hsame : a.bytes = b.bytes := by
      apply List.ext_getElem hlen
      intro i hi hi'
      have hbyte := hbytes i hi
      rw [byteAt, byteAt, List.getD_eq_getElem _ _ hi, List.getD_eq_getElem _ _ hi'] at hbyte
      exact hbyte
    cases a
    cases b
    cases hsame
    cases hhash
    rfl
  · rintro rfl
    exact ⟨rfl, rfl, fun _ _ => rfl⟩

theorem jsStrEq_false {a b : PropKey} (h : a ≠ b) : jsStrEq a b = false :=
  Bool.eq_false_iff.mpr fun heq => h ((jsStrEq_iff a b).mp heq)

theorem slot_lt (k : PropKey) {n : Nat} (hn : 0 < n) : slot k n < n := by
  have hle : slot k n ≤ n - 1 := Nat.and_le_right
  omega

/-! ## Nodes -/

namespace Props

theorem edit_mem (S : Props V) (p q : Nat) (f : Jprop V → Jprop V) :
    (S.edit p f).mem q = if q = p then f (S.mem p) else S.mem q := Function.update_apply _ _ _ _

theorem edit_other (S : Props V) (f : Jprop V → Jprop V) (h : q ≠ p) : (S.edit p f).mem q = S.mem q := by
  rw [edit_mem, if_neg h]

@[simp] theorem edit_self (S : Props V) (p : Nat) (f : Jprop V → Jprop V) : (S.edit p f).mem p = f (S.mem p) := by
  rw [edit_mem, if_pos rfl]

theorem edit_field (S : Props V) {f : Jprop V → Jprop V} {g : Jprop V → β}
    (hg : g (f (S.mem p)) = g (S.mem p)) (q : Nat) : g ((S.edit p f).mem q) = g (S.mem q) := by
  rw [edit_mem]
  split
  · rename_i hq
    rw [hq, hg]
  · rfl

@[simp] theorem edit_o (S : Props V) (p : Nat) (f : Jprop V → Jprop V) : (S.edit p f).o = S.o := rfl

theorem setNext_next (S : Props V) (p : Nat) (x : Option Nat) (q : Nat) :
    (S.setNext p x).next q = if q = p then x else S.next q := by
  rw [next, setNext, edit_mem]
  split <;> rfl

theorem setChain_o (S : Props V) (hbs : S.o.buckets = some bs) {i : Nat} (hi : i < bs.length)
    (before x : Option Nat) : (S.setChain bs i before x).o =
      { S.o with buckets := some (bs.set i (if before = none then x else bs.getD i none)) } := by
  cases before with
  | none => rfl
  | some p =>
    rw [if_neg (Option.some_ne_none p), List.getD_eq_getElem _ _ hi, List.set_getElem_self, ← hbs]
    rfl

theorem setChain_next (S : Props V) (bs : List (Option Nat)) (i : Nat) (before x : Option Nat) (q : Nat) :
    (S.setChain bs i before x).next q = if before = some q then x else S.next q := by
  cases before with
  | none => rfl
  | some p =>
    rw [setChain, setNext_next]
    simp only [Option.some.injEq, eq_comm]

theorem setChain_field (g : Jprop V → β) (hg : ∀ n x, g { n with next := x } = g n) (S : Props V)
    (bs : List (Option Nat)) (i : Nat) (before x : Option Nat) (q : Nat) : g ((S.setChain bs i before x).mem q) = g (S.mem q) := by
  cases before with
  | none => rfl
  | some p => exact S.edit_field (f := fun n => { n with next := x }) (g := g) (hg _ _) q

theorem setOrder_o (S : Props V) (before x : Option Nat) :
    (S.setOrder before x).o = { S.o with ofirst := if before = none then x else S.o.ofirst } := by
  cases before <;> rfl

theorem setOrder_onext (S : Props V) (before x : Option Nat) (q : Nat) :
    (S.setOrder before x).onext q = if before = some q then x else S.onext q := by
  cases before with
  | none => rfl
  | some p =>
    rw [onext, setOrder, edit_mem, apply_ite Jprop.onext]
    simp only [Option.some.injEq, eq_comm]
    rfl

theorem setOrder_field (g : Jprop V → β) (hg : ∀ n x, g { n with onext := x } = g n) (S : Props V)
    (before x : Option Nat) (q : Nat) : g ((S.setOrder before x).mem q) = g (S.mem q) := by
  cases before with
  | none => rfl
  | some p => exact S.edit_field (f := fun n => { n with onext := x }) (g := g) (hg _ _) q

end Props

def Jprop.placed (n : Jprop V) (x : Option Nat) : Jprop V := { n with next := x }

structure Rechained (S S' : Props V) (P : Nat → Prop) : Prop where
  same : ∀ p, (S'.mem p).placed none = (S.mem p).placed none
  next : ∀ p, ¬ P p → S'.next p = S.next p
  o : S'.o = S.o

namespace Rechained

theorem refl (S : Props V) (P : Nat → Prop) : Rechained S S P := ⟨fun _ => rfl, fun _ _ => rfl, rfl⟩

theorem trans {S'' : Props V} (h : Rechained S S' P) (h' : Rechained S' S'' Q) : Rechained S S'' fun p => P p ∨ Q p where
  same p := (h'.same p).trans (h.same p)
  next p hp := (h'.next p fun hq => hp (.inr hq)).trans (h.next p fun hq => hp (.inl hq))
  o := h'.o.trans h.o

theorem mono (h : Rechained S S' P) (hPQ : ∀ p, P p → Q p) : Rechained S S' Q := ⟨h.same, fun p hp => h.next p (mt (hPQ p) hp), h.o⟩

theorem key (h : Rechained S S' P) (p : Nat) : S'.key p = S.key p := (congrArg Jprop.key (h.same p) :)

theorem onext (h : Rechained S S' P) (p : Nat) : S'.onext p = S.onext p := (congrArg Jprop.onext (h.same p) :)

theorem v (h : Rechained S S' P) (p : Nat) : (S'.mem p).v = (S.mem p).v := (congrArg Jprop.v (h.same p) :)

theorem flags (h : Rechained S S' P) (p : Nat) : (S'.mem p).flags = (S.mem p).flags := (congrArg Jprop.flags (h.same p) :)

theorem setNext (S : Props V) (p : Nat) (x : Option Nat) : Rechained S (S.setNext p x) (· = p) where
  same := S.edit_field (g := (Jprop.placed · none)) rfl
  next q hq := by rw [Props.setNext_next, if_neg hq]
  o := rfl

end Rechained

/-! ## Tables -/

abbrev Props.Held (S : Props V) (bs : List (Option Nat)) (P : Nat → Prop) : Prop :=
  Nodes.Held S.next (fun p => slot (S.key p) bs.length) bs P

theorem Props.held_same (h : S.Held bs P) (hnext : ∀ p, S'.next p = S.next p) (hkey : ∀ p, S'.key p = S.key p) :
    S'.Held bs P :=
  h.same (fun p _ => hnext p) fun p _ => by rw [hkey p]

theorem Props.held_push (h : S.Held bs P) (hp : ¬ P p) (hfirst : S'.next p = bs.getD (slot (S'.key p) bs.length) none)
    (hnext : ∀ q, q ≠ p → S'.next q = S.next q) (hkey : ∀ q, q ≠ p → S'.key q = S.key q) :
    S'.Held (bs.set (slot (S'.key p) bs.length) (some p)) fun q => P q ∨ q = p := by
  have hpush : Nodes.Held S'.next (fun q => slot (S'.key q) bs.length) (bs.set (slot (S'.key p) bs.length) (some p))
      fun q => P q ∨ q = p :=
    Held.push h hp hfirst hnext fun q hq => by rw [hkey q hq]
  simpa only [Props.Held, List.length_set] using hpush

/-! ## A larger table -/

theorem moveChain_some (f : Nat) (S : Props V) (fresh : List (Option Nat)) (p : Nat) :
    moveChain (f + 1) S fresh (some p) = moveChain f (S.setNext p (fresh.getD (slot (S.key p) fresh.length) none))
      (fresh.set (slot (S.key p) fresh.length) (some p)) (S.next p) := rfl

theorem moveChain_held {f : Nat} {b : Option Nat} (hc : Linked S.next b c) (hno : ∀ p ∈ c, ¬ P p)
    (hheld : S.Held fresh P) (hpos : 0 < fresh.length) (hf : c.length ≤ f) :
    (moveChain f S fresh b).1.Held (moveChain f S fresh b).2 (fun p => P p ∨ p ∈ c) ∧
      (moveChain f S fresh b).2.length = fresh.length ∧ Rechained S (moveChain f S fresh b).1 (· ∈ c) := by
  induction c generalizing S fresh b P f with
  | nil =>
    obtain rfl := hc
    have hstay : moveChain f S fresh none = (S, fresh) := by cases f <;> rfl
    rw [hstay]
    exact ⟨hheld.congr fun p => by simp, rfl, Rechained.refl S _⟩
  | cons p c ih =>
    rw [List.length_cons] at hf
    obtain ⟨f, rfl⟩ := Nat.exists_eq_add_one_of_ne_zero (show f ≠ 0 by omega)
    have hpc : p ∉ c := (List.nodup_cons.mp hc.nodup).1
    obtain ⟨rfl, hc'⟩ := hc
    rw [moveChain_some]
    generalize hfirst : fresh.getD (slot (S.key p) fresh.length) none = x
    have hmoved := Rechained.setNext S p x
    have hpush : (S.setNext p x).Held (fresh.set (slot ((S.setNext p x).key p) fresh.length) (some p)) fun q => P q ∨ q = p :=
      Props.held_push hheld (hno p List.mem_cons_self)
      (by rw [Props.setNext_next, if_pos rfl, hmoved.key, hfirst])
      (fun q hq => by rw [Props.setNext_next, if_neg hq]) fun q _ => hmoved.key q
    rw [hmoved.key] at hpush
    have hlinked : Linked (S.setNext p x).next (S.next p) c := hc'.same fun q hq => by
      rw [Props.setNext_next, if_neg]
      rintro rfl
      exact hpc hq
    have hno' : ∀ q ∈ c, ¬ (P q ∨ q = p) := by
      rintro q hq (hPq | rfl)
      · exact hno q (List.mem_cons_of_mem p hq) hPq
      · exact hpc hq
    obtain ⟨hheld', hlen, hmoved'⟩ := ih (f := f) hlinked hno' hpush (by rwa [List.length_set]) (by omega)
    rw [List.length_set] at hlen
    refine ⟨hheld'.congr fun q => ?_, hlen, (hmoved.trans hmoved').mono fun q => ?_⟩
    · rw [List.mem_cons, or_assoc]
    · rintro (rfl | hq)
      · exact List.mem_cons_self
      · exact List.mem_cons_of_mem p hq

theorem moveAll_held {cs : List (List Nat)} (hcs : List.Forall₂ (Linked S.next) bs cs) (hnodup : cs.flatten.Nodup)
    (hno : ∀ p ∈ cs.flatten, ¬ P p) (hheld : S.Held fresh P) (hpos : 0 < fresh.length) (hf : ∀ c ∈ cs, c.length ≤ S.o.count)
    {r : Props V × List (Option Nat)} (hr : bs.foldl (fun r b => moveChain r.1.o.count r.1 r.2 b) (S, fresh) = r) :
    r.1.Held r.2 (fun p => P p ∨ p ∈ cs.flatten) ∧ r.2.length = fresh.length ∧ Rechained S r.1 (· ∈ cs.flatten) := by
  induction bs generalizing S fresh P cs with
  | nil =>
    cases hcs
    subst hr
    exact ⟨hheld.congr fun p => by simp, rfl, Rechained.refl S _⟩
  | cons b bs ih =>
    obtain ⟨c, cs, hc, hbehind, rfl⟩ := List.forall₂_cons_left_iff.mp hcs
    rw [List.foldl_cons] at hr
    rw [List.flatten_cons] at hnodup hno
    obtain ⟨-, hrest, hdisjoint⟩ := List.nodup_append.mp hnodup
    obtain ⟨hheld', hlen, hmoved⟩ := moveChain_held hc (fun p hp => hno p (List.mem_append_left _ hp)) hheld hpos
      (hf c List.mem_cons_self)
    have hcs' := Linked.all_same hbehind fun p hp => hmoved.next p fun hpc => hdisjoint p hpc p hp rfl
    obtain ⟨hheld'', hlen', hmoved'⟩ := ih hcs' hrest
      (by
        rintro p hp (hPp | hpc)
        · exact hno p (List.mem_append_right _ hp) hPp
        · exact hdisjoint p hpc p hp rfl)
      hheld' (by rwa [hlen]) (fun c' hc' => by rw [hmoved.o]; exact hf c' (List.mem_cons_of_mem c hc')) hr
    refine ⟨hheld''.congr fun p => ?_, hlen'.trans hlen, (hmoved.trans hmoved').mono fun p => ?_⟩
    · rw [List.flatten_cons, List.mem_append, or_assoc]
    · rw [List.flatten_cons, List.mem_append]
      exact id

/-! ## What an object holds -/

def Props.entry (S : Props V) (p : Nat) : PropKey × (V × Nat) := (S.key p, ((S.mem p).v, (S.mem p).flags))

structure InOrder (S : Props V) (order : List Nat) (m : List (PropKey × (V × Nat))) : Prop where
  linked : Linked S.onext S.o.ofirst order
  last : S.o.olast = order.getLast?
  count : S.o.count = order.length
  entries : order.map S.entry = m
  nodup : (Ordered.keys m).Nodup

/-- An object is a map: its order is the map's, and its table finds what is in the order. -/
structure Holds (S : Props V) (order : List Nat) (m : List (PropKey × (V × Nat))) : Prop extends InOrder S order m where
  none_made : S.o.buckets = none → order = []
  made : ∀ bs ∈ S.o.buckets, 0 < bs.length ∧ S.Held bs (· ∈ order)

section
variable {order : List Nat} {m : List (PropKey × (V × Nat))}

theorem InOrder.keys (h : InOrder S order m) : Ordered.keys m = order.map S.key := by
  rw [← h.entries, Ordered.keys, List.map_map]
  rfl

theorem InOrder.inj (h : InOrder S order m) (hp : p ∈ order) (hq : q ∈ order) (hkey : S.key p = S.key q) : p = q :=
  List.inj_on_of_nodup_map (h.keys ▸ h.nodup) hp hq hkey

theorem InOrder.moved (h : InOrder S order m) (hmoved : Rechained S S' P) : InOrder S' order m where
  linked := by
    rw [hmoved.o]
    exact h.linked.same fun p _ => hmoved.onext p
  last := by rw [hmoved.o, h.last]
  count := by rw [hmoved.o, h.count]
  entries := by
    rw [← h.entries]
    apply List.map_congr_left
    intro p _
    rw [Props.entry, Props.entry, hmoved.key, hmoved.v, hmoved.flags]
  nodup := h.nodup

theorem InOrder.chain_le (h : InOrder S order m) (hc : c.Nodup) (hsub : ∀ p ∈ c, p ∈ order) :
    c.length ≤ S.o.count := by
  rw [h.count]
  exact (List.subperm_of_subset hc hsub).length_le

/-! ## Finding -/

theorem jsFind_iff (h : Holds S order m) (k : PropKey) (p : Nat) : jsFind S k = some p ↔ p ∈ order ∧ S.key p = k := by
  unfold jsFind
  cases hbs : S.o.buckets with
  | none =>
    rw [h.none_made hbs]
    simp
  | some bs =>
    obtain ⟨hpos, hheld⟩ := h.made bs hbs
    obtain ⟨c, hlinked, hmem⟩ := hheld (slot k bs.length) (slot_lt k hpos)
    have hsub : ∀ p ∈ c, p ∈ order := fun p hp => ((hmem p).mp hp).1
    change ((follow S.next S.o.count (bs.getD (slot k bs.length) none)).find? fun p => jsStrEq (S.key p) k) = some p ↔ _
    rw [hlinked.follow_eq (h.chain_le hlinked.nodup hsub)]
    constructor
    · intro hfind
      have heq := List.find?_some hfind
      exact ⟨hsub p (List.mem_of_find?_eq_some hfind), (jsStrEq_iff _ _).mp heq⟩
    · rintro ⟨hp, rfl⟩
      have hpc : p ∈ c := (hmem p).mpr ⟨hp, rfl⟩
      have hsome : (c.find? fun q => jsStrEq (S.key q) (S.key p)).isSome :=
        List.find?_isSome.mpr ⟨p, hpc, (jsStrEq_iff _ _).mpr rfl⟩
      obtain ⟨q, hq⟩ := Option.isSome_iff_exists.mp hsome
      have heq := List.find?_some hq
      rw [hq, h.inj (hsub q (List.mem_of_find?_eq_some hq)) hp ((jsStrEq_iff _ _).mp heq)]

theorem jsFind_none (h : Holds S order m) (k : PropKey) : jsFind S k = none ↔ k ∉ Ordered.keys m := by
  rw [h.keys, List.mem_map, Option.eq_none_iff_forall_not_mem]
  constructor
  · rintro hno ⟨p, hp, hkey⟩
    exact hno p ((jsFind_iff h k p).mpr ⟨hp, hkey⟩)
  · rintro hno p hp
    exact hno ⟨p, (jsFind_iff h k p).mp hp⟩

theorem jsFind_get (h : Holds S order m) (k : PropKey) :
    (jsFind S k).map (fun p => ((S.mem p).v, (S.mem p).flags)) = Ordered.get m k := by
  cases hfind : jsFind S k with
  | none => exact (Ordered.get_eq_none.mpr ((jsFind_none h k).mp hfind)).symm
  | some p =>
    obtain ⟨hp, rfl⟩ := (jsFind_iff h k p).mp hfind
    refine (Ordered.get_of_mem h.nodup ?_).symm
    rw [← h.entries]
    exact List.mem_map.mpr ⟨p, hp, rfl⟩

/-! ## Changing and adding -/

theorem set_value (h : Holds S order m) (hp : p ∈ order) (v : V) (made : V × Nat) :
    Holds (S.edit p fun n => { n with v }) order (Ordered.put m (S.key p) made fun old => (v, old.2)) := by
  have hkey : ∀ q, (S.edit p fun n => { n with v }).key q = S.key q := S.edit_field (g := Jprop.key) rfl
  have hnext : ∀ q, (S.edit p fun n => { n with v }).next q = S.next q := S.edit_field (g := Jprop.next) rfl
  have honext : ∀ q, (S.edit p fun n => { n with v }).onext q = S.onext q := S.edit_field (g := Jprop.onext) rfl
  have hmem : S.key p ∈ Ordered.keys m := by
    rw [h.keys]
    exact List.mem_map.mpr ⟨p, hp, rfl⟩
  refine ⟨⟨h.linked.same fun q _ => honext q, h.last, h.count, ?_, Ordered.nodup_put h.nodup _ _ _⟩, h.none_made, ?_⟩
  · rw [Ordered.put, if_pos hmem, ← h.entries, List.map_map]
    apply List.map_congr_left
    intro q hq
    rw [Function.comp_apply, Props.entry, Props.entry, hkey]
    by_cases hqp : q = p
    · subst hqp
      rw [if_pos rfl, Props.edit_self]
    · rw [if_neg fun hsame => hqp (h.inj hq hp hsame), Props.edit_other S _ hqp]
  · intro bs hbs
    obtain ⟨hpos, hheld⟩ := h.made bs hbs
    exact ⟨hpos, Props.held_same hheld hnext hkey⟩

theorem Holds.swapped (h : Holds S order m) (hmoved : Rechained S S' P) (hpos : 0 < bs.length)
    (hheld : S'.Held bs (· ∈ order)) : Holds { S' with o := { S'.o with buckets := some bs } } order m where
  toInOrder :=
    have h' := h.toInOrder.moved hmoved
    ⟨h'.linked, h'.last, h'.count, h'.entries, h'.nodup⟩
  none_made hno := nomatch hno
  made bs' hbs' := by
    obtain rfl := Option.some.inj hbs'
    exact ⟨hpos, Props.held_same hheld (fun _ => rfl) fun _ => rfl⟩

theorem jsRehash_holds (h : Holds S order m) : Holds (jsRehash S true) order m ∧ (jsRehash S true).o.buckets.isSome := by
  unfold jsRehash
  rw [if_pos rfl]
  refine ⟨?_, rfl⟩
  dsimp only
  cases hbs : S.o.buckets with
  | none =>
    have hnone := held_none S.next (fun p => slot (S.key p) JS_BUCKETS) JS_BUCKETS
    apply h.swapped (Rechained.refl S fun _ => False)
    · exact (by decide : 0 < 4)
    · refine hnone.congr fun p => ?_
      rw [h.none_made hbs]
      simp
  | some bs =>
    obtain ⟨hpos, hheld⟩ := h.made bs hbs
    obtain ⟨cs, hcs, hnodup, hmem⟩ := hheld.lists fun p _ => slot_lt (S.key p) hpos
    have hroom : 0 < (List.replicate (bs.length * 2) (none : Option Nat)).length := by
      rw [List.length_replicate]
      omega
    have hshort : ∀ c ∈ cs, c.length ≤ S.o.count := fun c hc =>
      h.chain_le ((List.nodup_flatten.mp hnodup).1 c hc) fun p hp => (hmem p).mp (List.mem_flatten.mpr ⟨c, hc, hp⟩)
    obtain ⟨hheld', hlen, hmoved⟩ := moveAll_held hcs hnodup (fun _ _ => not_false) (held_none S.next _ (bs.length * 2)) hroom hshort rfl
    apply h.swapped hmoved
    · exact hlen ▸ hroom
    · refine hheld'.congr fun p => ?_
      rw [false_or, hmem]

theorem jsLink_field (g : Jprop V → β) (hg : ∀ n x, g { n with onext := x } = g n) (S : Props V)
    (bs : List (Option Nat)) (k : PropKey) (v : V) (flags p q : Nat) :
    g ((jsLink S bs k v flags p).mem q) =
      if q = p then g ⟨k, v, flags, bs.getD (slot k bs.length) none, none⟩ else g (S.mem q) := by
  have hnew : g ((S.edit p fun _ => ⟨k, v, flags, bs.getD (slot k bs.length) none, none⟩).mem q) =
      if q = p then g ⟨k, v, flags, bs.getD (slot k bs.length) none, none⟩ else g (S.mem q) := by
    rw [Props.edit_mem, apply_ite g]
  rw [← hnew]
  exact Props.setOrder_field g hg _ _ _ q

theorem jsLink_onext (S : Props V) (bs : List (Option Nat)) (k : PropKey) (v : V) (flags : Nat) (hlast : S.o.olast ≠ some p) :
    (jsLink S bs k v flags p).onext q = if q = p then none else if S.o.olast = some q then some p else S.onext q := by
  have hnew : (S.edit p fun _ => ⟨k, v, flags, bs.getD (slot k bs.length) none, none⟩).onext q =
      if q = p then none else S.onext q := by
    rw [Props.onext, Props.edit_mem, apply_ite Jprop.onext]
    rfl
  refine (Props.setOrder_onext _ _ _ q).trans ?_
  rw [Props.edit_o, hnew]
  by_cases hq : q = p
  · subst hq
    rw [if_neg hlast, if_pos rfl, if_pos rfl]
  · rw [if_neg hq, if_neg hq]

theorem jsLink_o (S : Props V) (bs : List (Option Nat)) (k : PropKey) (v : V) (flags p : Nat) :
    (jsLink S bs k v flags p).o = ⟨some (bs.set (slot k bs.length) (some p)), S.o.count + 1,
      if S.o.olast = none then some p else S.o.ofirst, some p⟩ := by
  unfold jsLink
  dsimp only
  rw [Props.setOrder_o]
  rfl

theorem jsLink_holds (h : Holds S order m) (hbs : S.o.buckets = some bs) (hp : p ∉ order) {v : V} {flags : Nat}
    (hk : k ∉ Ordered.keys m) : Holds (jsLink S bs k v flags p) (order ++ [p]) (m ++ [(k, (v, flags))]) := by
  obtain ⟨hpos, hheld⟩ := h.made bs hbs
  have hlast : S.o.olast ≠ some p := fun heq => hp (List.mem_of_getLast? (h.last.symm.trans heq))
  have hkey : ∀ q, (jsLink S bs k v flags p).key q = if q = p then k else S.key q :=
    jsLink_field Jprop.key (fun _ _ => rfl) S bs k v flags p
  have hnext : ∀ q, (jsLink S bs k v flags p).next q = if q = p then bs.getD (slot k bs.length) none else S.next q :=
    jsLink_field Jprop.next (fun _ _ => rfl) S bs k v flags p
  have hentry : ∀ q, (jsLink S bs k v flags p).entry q = if q = p then (k, (v, flags)) else S.entry q :=
    jsLink_field (fun n => (n.key, (n.v, n.flags))) (fun _ _ => rfl) S bs k v flags p
  have honext : ∀ q, (jsLink S bs k v flags p).onext q = _ := fun q => jsLink_onext S bs k v flags hlast
  refine ⟨⟨?_, ?_, ?_, ?_, ?_⟩, ?_, ?_⟩
  · rw [jsLink_o]
    have hnil : S.o.olast = none ↔ order = [] := by rw [h.last, List.getLast?_eq_none_iff]
    simp only [hnil]
    apply h.linked.append
    · intro q hq
      rw [honext, if_neg, if_pos (h.last.trans hq)]
      rintro rfl
      exact hp (List.mem_of_getLast? hq)
    · intro q hq hlast
      rw [honext, if_neg, if_neg (h.last ▸ hlast)]
      rintro rfl
      exact hp hq
    · rw [honext, if_pos rfl]
  · rw [jsLink_o, List.getLast?_append]
    rfl
  · rw [jsLink_o, List.length_append, h.count]
    rfl
  · rw [List.map_append, List.map_singleton, hentry, if_pos rfl, ← h.entries]
    congr 1
    apply List.map_congr_left
    intro q hq
    rw [hentry, if_neg]
    rintro rfl
    exact hp hq
  · have hput := Ordered.nodup_put h.nodup k (v, flags) id
    rwa [Ordered.put, if_neg hk] at hput
  · rw [jsLink_o]
    intro hno
    cases hno
  · rw [jsLink_o]
    rintro bs' hbs'
    obtain rfl := Option.some.inj hbs'
    rw [List.length_set]
    refine ⟨hpos, ?_⟩
    have hpush : (jsLink S bs k v flags p).Held (bs.set (slot ((jsLink S bs k v flags p).key p) bs.length) (some p))
        fun q => q ∈ order ∨ q = p :=
      Props.held_push hheld hp (by rw [hnext, if_pos rfl, hkey, if_pos rfl])
      (fun q hq => by rw [hnext, if_neg hq]) fun q hq => by rw [hkey, if_neg hq]
    rw [hkey, if_pos rfl] at hpush
    exact hpush.congr fun q => by simp

theorem jsPutPropFlags_holds (h : Holds S order m) (k : PropKey) (v : V) (flags : Nat) {table : Bool} {node : Option Nat}
    (hgranted : jsFind S k = none → table = true ∧ ∃ p ∈ node, p ∉ order) :
    ∃ order', Holds (jsPutPropFlags S k v flags table node).2 order' (Ordered.put m k (v, flags) fun old => (v, old.2)) := by
  unfold jsPutPropFlags
  cases hfind : jsFind S k with
  | some q =>
    obtain ⟨hq, rfl⟩ := (jsFind_iff h k q).mp hfind
    exact ⟨order, set_value h hq v (v, flags)⟩
  | none =>
    have hk := (jsFind_none h k).mp hfind
    obtain ⟨rfl, p, hnode, hp⟩ := hgranted hfind
    obtain rfl : node = some p := hnode
    dsimp only
    generalize hgrown : (if S.o.buckets.isSome ∧ S.o.count + 1 ≤ (S.o.buckets.getD []).length * 3 / 4 then S
      else jsRehash S true) = S'
    have hholds : Holds S' order m ∧ S'.o.buckets.isSome := by
      subst hgrown
      split
      · rename_i hroom
        exact ⟨h, hroom.1⟩
      · exact jsRehash_holds h
    obtain ⟨bs, hbs⟩ := Option.isSome_iff_exists.mp hholds.2
    rw [hbs, Ordered.put, if_neg hk]
    exact ⟨order ++ [p], jsLink_holds hholds.1 hbs hp hk⟩

/-! ## Taking out -/

theorem getLast_remove (h : (lo ++ p :: ro).Nodup) :
    (if (lo ++ p :: ro).getLast? = some p then lo.getLast? else (lo ++ p :: ro).getLast?) = (lo ++ ro).getLast? := by
  rcases List.eq_nil_or_concat ro with rfl | ⟨ro, q, rfl⟩
  · rw [List.getLast?_append, List.getLast?_singleton, Option.some_or, if_pos rfl, List.append_nil]
  · have hend : (lo ++ p :: (ro ++ [q])).getLast? = some q := by
      rw [← List.cons_append, ← List.append_assoc, List.getLast?_concat]
    rw [List.concat_eq_append] at h ⊢
    rw [hend, if_neg, ← List.append_assoc, List.getLast?_concat]
    rintro hqp
    obtain rfl := Option.some.inj hqp
    have hrest := (List.nodup_append.mp h).2.1
    exact (List.nodup_cons.mp hrest).1 (List.mem_append_right _ List.mem_cons_self)

theorem jsUnorder_inOrder (h : InOrder S (lo ++ p :: ro) m) :
    InOrder { jsUnorder S p with o := { (jsUnorder S p).o with count := (jsUnorder S p).o.count - 1 } } (lo ++ ro)
        (Ordered.erase m (S.key p)) ∧
      (∀ q, (jsUnorder S p).next q = S.next q) ∧ (∀ q, (jsUnorder S p).key q = S.key q) ∧
      (jsUnorder S p).o.buckets = S.o.buckets := by
  have hnodup := h.linked.nodup
  have hpout : p ∉ lo ++ ro := (List.nodup_cons.mp (List.nodup_middle.mp hnodup)).1
  have hseek : seek S.onext (· = p) S.o.count none S.o.ofirst = some (lo.getLast?, p) := by
    have hfound : seek S.onext (· = p) S.o.count none S.o.ofirst = some (lo.getLast?.or none, p) := h.linked.seek_eq
      (fun b hb => decide_eq_false fun heq => hpout (heq ▸ List.mem_append_left _ hb)) (decide_eq_true rfl)
      (by rw [h.count, List.length_append, List.length_cons]; omega)
    rwa [Option.or_none] at hfound
  have hnil : lo.getLast? = none ↔ lo = [] := List.getLast?_eq_none_iff
  have hcut : (jsUnorder S p).mem = (S.setOrder lo.getLast? (S.onext p)).mem ∧
      (jsUnorder S p).o = { S.o with ofirst := if lo = [] then S.onext p else S.o.ofirst, olast := (lo ++ ro).getLast? } := by
    have hremoved := getLast_remove hnodup
    rw [← h.last] at hremoved
    unfold jsUnorder
    rw [hseek]
    dsimp only
    rw [← hremoved, Props.setOrder_o]
    simp only [hnil]
    split
    · exact ⟨rfl, rfl⟩
    · refine ⟨rfl, ?_⟩
      rw [Props.setOrder_o]
      simp only [hnil]
  obtain ⟨hmem, ho⟩ := hcut
  have hfield : ∀ {β : Type} (g : Jprop V → β), (∀ n x, g { n with onext := x } = g n) →
      ∀ q, g ((jsUnorder S p).mem q) = g (S.mem q) := fun g hg q => by
    rw [hmem]
    exact Props.setOrder_field g hg S _ _ q
  refine ⟨⟨?_, ?_, ?_, ?_, Ordered.nodup_erase h.nodup _⟩, hfield Jprop.next fun _ _ => rfl,
    hfield Jprop.key fun _ _ => rfl, by rw [ho]⟩
  · have honext : ∀ q, (jsUnorder S p).onext q = if lo.getLast? = some q then S.onext p else S.onext q := fun q => by
      rw [Props.onext, hmem]
      exact Props.setOrder_onext S _ _ q
    rw [ho]
    exact h.linked.remove (fun b hb => (honext b).trans (if_pos hb)) fun b _ hb => (honext b).trans (if_neg hb)
  · rw [ho]
  · rw [ho]
    dsimp only
    rw [h.count, List.length_append, List.length_append, List.length_cons]
    omega
  · have hentry : ∀ q, (jsUnorder S p).entry q = S.entry q :=
      hfield (fun n => (n.key, (n.v, n.flags))) fun _ _ => rfl
    have hout : ∀ q ∈ lo ++ ro, S.key q ≠ S.key p := by
      intro q hq hkey
      have hqo : q ∈ lo ++ p :: ro := by
        rw [List.mem_append] at hq ⊢
        exact hq.imp_right (List.mem_cons_of_mem p)
      exact hpout (h.inj hqo (List.mem_append_right _ List.mem_cons_self) hkey ▸ hq)
    have hkept : ∀ l : List Nat, (∀ q ∈ l, q ∈ lo ++ ro) →
        l.filter ((fun e => decide (e.1 ≠ S.key p)) ∘ S.entry) = l := fun l hl =>
      List.filter_eq_self.mpr fun q hq => decide_eq_true (hout q (hl q hq))
    rw [← h.entries, Ordered.erase, List.filter_map, List.filter_append, hkept lo fun _ => List.mem_append_left _,
      List.filter_cons_of_neg (by simp [Props.entry]), hkept ro fun _ => List.mem_append_right _]
    exact List.map_congr_left fun q _ => hentry q

theorem jsDeleteProp_none (h : Holds S order m) (hk : k ∉ Ordered.keys m) : jsDeleteProp S k = (false, S) := by
  unfold jsDeleteProp
  split
  · rfl
  · rename_i bs hbs
    obtain ⟨hpos, hheld⟩ := h.made bs hbs
    obtain ⟨c, hlinked, hmem⟩ := hheld (slot k bs.length) (slot_lt k hpos)
    dsimp only
    rw [hlinked.seek_none]
    intro q hq
    apply jsStrEq_false
    rintro rfl
    rw [h.keys] at hk
    exact hk (List.mem_map.mpr ⟨q, ((hmem q).mp hq).1, rfl⟩)

theorem jsDeleteProp_holds (h : Holds S order m) (hk : k ∈ Ordered.keys m) :
    (jsDeleteProp S k).1 = true ∧ ∃ order', Holds (jsDeleteProp S k).2 order' (Ordered.erase m k) := by
  rw [h.keys] at hk
  obtain ⟨p, hp, rfl⟩ := List.mem_map.mp hk
  unfold jsDeleteProp
  split
  · rename_i hno
    rw [h.none_made hno] at hp
    cases hp
  · rename_i bs hbs
    obtain ⟨hpos, hheld⟩ := h.made bs hbs
    have hi := slot_lt (S.key p) hpos
    obtain ⟨c, hlinked, hmem⟩ := hheld _ hi
    obtain ⟨l, r, rfl⟩ := List.append_of_mem ((hmem p).mpr ⟨hp, rfl⟩)
    obtain ⟨lo, ro, rfl⟩ := List.append_of_mem hp
    have hfirst : ∀ q ∈ l, jsStrEq (S.key q) (S.key p) = false := fun q hq => jsStrEq_false fun hkey => by
      have hqp := h.inj ((hmem q).mp (List.mem_append_left _ hq)).1 hp hkey
      exact (List.nodup_append.mp hlinked.nodup).2.2 q hq p List.mem_cons_self hqp
    have hshort : l.length < S.o.count := by
      have hle := h.chain_le hlinked.nodup fun q hq => ((hmem q).mp hq).1
      rw [List.length_append, List.length_cons] at hle
      omega
    dsimp only
    rw [hlinked.seek_eq hfirst ((jsStrEq_iff _ _).mpr rfl) hshort, Option.or_none]
    refine ⟨rfl, lo ++ ro, ?_⟩
    dsimp only
    have ho := S.setChain_o hbs hi l.getLast? (S.next p)
    have hnext := S.setChain_next bs (slot (S.key p) bs.length) l.getLast? (S.next p)
    have hfield := fun {β : Type} (g : Jprop V → β) (hg : ∀ n x, g { n with next := x } = g n) =>
      S.setChain_field g hg bs (slot (S.key p) bs.length) l.getLast? (S.next p)
    generalize S.setChain bs (slot (S.key p) bs.length) l.getLast? (S.next p) = S' at ho hnext hfield
    have hkey : ∀ q, S'.key q = S.key q := hfield Jprop.key fun _ _ => rfl
    have hentry : ∀ q, S'.entry q = S.entry q := hfield (fun n => (n.key, (n.v, n.flags))) fun _ _ => rfl
    have hin : InOrder S' (lo ++ p :: ro) m := by
      refine ⟨?_, by rw [ho, h.last], by rw [ho, h.count], ?_, h.nodup⟩
      · rw [ho]
        exact h.linked.same fun q _ => hfield Jprop.onext (fun _ _ => rfl) q
      · rw [← h.entries]
        exact List.map_congr_left fun q _ => hentry q
    obtain ⟨hout, hnext', hkey', hbuckets⟩ := jsUnorder_inOrder hin
    rw [hkey] at hout
    have hpull := hheld.pull hi hlinked hmem (fun b hb => (hnext b).trans (if_pos hb)) fun q hq => (hnext q).trans (if_neg hq)
    have hpout : p ∉ lo ++ ro := (List.nodup_cons.mp (List.nodup_middle.mp h.linked.nodup)).1
    rw [ho] at hbuckets
    refine ⟨hout, fun hno => ?_, fun bs' hbs' => ?_⟩
    · rw [hbuckets] at hno
      cases hno
    · obtain rfl := Option.some.inj (hbuckets.symm.trans hbs')
      have hpull' := @Held.same _ _ (jsUnorder S' p).next _ (fun q => slot ((jsUnorder S' p).key q) bs.length) _ _ hpull
        (fun q _ => hnext' q) fun q _ => by rw [hkey', hkey]
      simp only [List.getLast?_eq_none_iff, Props.Held, List.length_set]
      refine ⟨hpos, hpull'.congr fun q => ?_⟩
      rw [List.mem_append, List.mem_append, List.mem_cons]
      constructor
      · rintro ⟨hq, hne⟩
        exact hq.imp_right fun hq => hq.resolve_left hne
      · intro hq
        refine ⟨hq.imp_right .inr, ?_⟩
        rintro rfl
        exact hpout (List.mem_append.mpr hq)

end

end Zelr.Js
