import Zelr.X509.Chain
import Mathlib.Data.List.Perm.Basic

/-!
# The order of a chain

The walk takes the first certificate with the name it looks for and never goes back to the next one.
-/

namespace Zelr.X509

variable {chain : List (Option Cert)} {used : List Bool} {t : Stand} {rest : List Cert}

/-! ## The walk over the certificates that are left -/

/-- `c` bears the name of the issuer of `top`. -/
def bears (top c : Cert) : Bool :=
  decide (c.subject.len = top.issuer.len ∧ c.subject.bytes = top.issuer.bytes)

def available (chain : List (Option Cert)) (used : List Bool) : List Cert :=
  (chain.zip used).filterMap fun p => if p.2 then none else p.1

/-- What the walk asks of a parent which the store has no copy of. -/
structure Accepts (P : Prims) (now depth : Nat) (top c : Cert) : Prop where
  authority : c.hasBasicConstraints = true ∧ c.isCa = true
  deep : ¬ (0 ≤ c.pathLen ∧ c.pathLen < depth)
  dates : datesOk c now = none
  signed : x509SignedBy P top c = true

/-- Where the walk stands: what it may choose from, where it is, what is under that, and how many were climbed. -/
structure Stand where
  left : List Cert
  top : Cert
  below : Option Cert
  depth : Nat

def Stand.over (s : Stand) (l : List Cert) : Stand := { s with left := l }

def Stand.climb (s : Stand) (c : Cert) (rest : List Cert) : Stand :=
  ⟨rest, c, some s.top, s.depth + 1⟩

section Walking

variable (P : Prims) (roots : List Root) (now : Nat)

def known (c : Cert) : Prop := (rootsFind roots c.subject.bytes).isSome

/-- The walk looks for nothing above `top`. -/
def ends (top : Cert) : Prop :=
  known roots top ∨ (top.subject.len = top.issuer.len ∧ top.subject.bytes = top.issuer.bytes)

def Anchored (below : Option Cert) (top : Cert) : Prop :=
  verifyTop P roots false below top = .ok

/-- What follows the loop answers `ok`. -/
def Walk.Good : Walk → Prop
  | .stop below top => Anchored P roots below top
  | .refused _ => False

/-- The loop over the certificates that are left, and what follows it, answer `ok`. -/
def walksTo : Nat → Stand → Prop
  | 0, s => Anchored P roots s.below s.top
  | n + 1, s =>
    (ends roots s.top ∧ Anchored P roots s.below s.top) ∨
    (¬ ends roots s.top ∧
      match s.left.find? (bears s.top) with
      | none => Anchored P roots s.below s.top
      | some c =>
        (known roots c ∧ Anchored P roots (some s.top) c) ∨
        (¬ known roots c ∧ Accepts P now s.depth s.top c ∧
          walksTo n (s.climb c (s.left.eraseP (bears s.top)))))

end Walking

/-- What the walk's search finds at place `k`. -/
def offered (chain : List (Option Cert)) (used : List Bool) (top : Cert) (k : Nat) : Option Cert :=
  if used.getD k true then none else (chain.getD k none).filter (bears top)

theorem findParent_eq (chain : List (Option Cert)) (used : List Bool) (top : Cert) :
    findParent chain used top =
      (List.range chain.length).findSome? fun k => (offered chain used top k).map fun c => (k, c) := by
  unfold findParent
  congr 1
  funext k
  unfold offered
  split
  · rfl
  · cases chain.getD k none with
    | none => rfl
    | some c =>
      by_cases hb : c.subject.len = top.issuer.len ∧ c.subject.bytes = top.issuer.bytes
      · simp [bears, hb]
      · dsimp only
        rw [if_neg hb, Option.filter_some, bears, decide_eq_false hb]
        rfl

theorem available_cons (x : Option Cert) (chain : List (Option Cert)) (u : Bool)
    (used : List Bool) :
    available (x :: chain) (u :: used) = (if u then none else x).toList ++ available chain used := by
  cases u <;> cases x <;> rfl

theorem findParent_cons (x : Option Cert) (chain : List (Option Cert)) (u : Bool)
    (used : List Bool) (top : Cert) :
    findParent (x :: chain) (u :: used) top =
      match offered (x :: chain) (u :: used) top 0 with
      | some c => some (0, c)
      | none => (findParent chain used top).map fun p => (p.1 + 1, p.2) := by
  have hnext : ∀ k, offered (x :: chain) (u :: used) top (k + 1) = offered chain used top k := by
    intro k
    simp only [offered, List.getD_cons_succ]
  rw [findParent_eq, findParent_eq, List.length_cons, List.range_succ_eq_map,
    List.findSome?_cons, List.findSome?_map, List.map_findSome?]
  simp only [Function.comp_def, Nat.succ_eq_add_one, hnext, Option.map_map]
  cases offered (x :: chain) (u :: used) top 0 with
  | none => rfl
  | some c => rfl

theorem findParent_available (top : Cert)
    (hlen : chain.length = used.length) :
    (findParent chain used top).map Prod.snd = (available chain used).find? (bears top) ∧
    ∀ k c, findParent chain used top = some (k, c) →
      available chain (used.set k true) = (available chain used).eraseP (bears top) := by
  induction chain generalizing used with
  | nil => simp [findParent, available]
  | cons x chain ih =>
    cases used with
    | nil => cases hlen
    | cons u used =>
      simp only [List.length_cons, Nat.add_right_cancel_iff] at hlen
      obtain ⟨ihfind, iherase⟩ := ih hlen
      rw [findParent_cons, available_cons]
      have hat : offered (x :: chain) (u :: used) top 0 =
          (if u then none else x).filter (bears top) := by
        cases u <;> rfl
      -- Further on, where the head is not the choice.
      have hmore : ∀ k c, (findParent chain used top).map (fun p => (p.1 + 1, p.2)) = some (k, c) →
          available (x :: chain) ((u :: used).set k true) = (if u then none else x).toList ++
            (available chain used).eraseP (bears top) := by
        rintro k c hk
        obtain ⟨⟨j, d⟩, hj, heq⟩ := Option.map_eq_some_iff.mp hk
        simp only [Prod.mk.injEq] at heq
        obtain ⟨rfl, rfl⟩ := heq
        rw [List.set_cons_succ, available_cons, iherase j d hj]
      have hsame : ((findParent chain used top).map fun p => (p.1 + 1, p.2)).map Prod.snd =
          (available chain used).find? (bears top) := by
        rw [← ihfind, Option.map_map]
        rfl
      rw [hat]
      cases hx : (if u then none else x) with
      | none =>
        rw [hx] at hmore
        exact ⟨hsame, hmore⟩
      | some d =>
        rw [hx] at hmore
        rw [Option.filter_some, Option.toList_some, List.singleton_append]
        cases hb : bears top d with
        | true =>
          rw [List.find?_cons_of_pos hb, List.eraseP_cons_of_pos hb]
          refine ⟨rfl, ?_⟩
          rintro k c hk
          simp only [Option.some.injEq, Prod.mk.injEq, if_true] at hk
          obtain ⟨rfl, rfl⟩ := hk
          rw [List.set_cons_zero, available_cons]
          rfl
        | false =>
          rw [List.find?_cons_of_neg (by simp [hb]), List.eraseP_cons_of_neg (by simp [hb])]
          exact ⟨hsame, hmore⟩

theorem walk_good {P : Prims} {roots : List Root} {now n : Nat}
    {top : Cert} {below : Option Cert} {depth : Nat}
    (hlen : chain.length = used.length) :
    (walk P roots chain now n used top below depth).Good P roots ↔
      walksTo P roots now n ⟨available chain used, top, below, depth⟩ := by
  induction n generalizing used top below depth with
  | zero => rfl
  | succ n ih =>
    unfold walk walksTo
    by_cases hends : ends roots top
    · simp only [hends, true_and, not_true_eq_false, false_and, or_false]
      by_cases hknown : (rootsFind roots top.subject.bytes).isSome = true
      · rw [if_pos hknown]
        rfl
      · rw [if_neg hknown, if_pos (hends.resolve_left hknown)]
        rfl
    have hknown : ¬ (rootsFind roots top.subject.bytes).isSome = true := fun h => hends (Or.inl h)
    have hself : ¬ (top.subject.len = top.issuer.len ∧ top.subject.bytes = top.issuer.bytes) :=
      fun h => hends (Or.inr h)
    simp only [hends, false_and, not_false_eq_true, true_and, false_or]
    rw [if_neg hknown, if_neg hself]
    obtain ⟨hfind, herase⟩ := findParent_available top hlen
    rw [← hfind]
    cases hp : findParent chain used top with
    | none => rfl
    | some p =>
      obtain ⟨k, c⟩ := p
      simp only [Option.map_some]
      by_cases hc : known roots c
      · rw [if_pos (show (rootsFind roots c.subject.bytes).isSome = true from hc)]
        simp only [hc, true_and, not_true_eq_false, false_and, or_false]
        rfl
      rw [if_neg (show ¬ (rootsFind roots c.subject.bytes).isSome = true from hc)]
      simp only [hc, false_and, not_false_eq_true, true_and, false_or]
      by_cases hca : ¬ c.hasBasicConstraints = true ∨ ¬ c.isCa = true
      · rw [if_pos hca]
        refine iff_of_false id ?_
        rintro ⟨hacc, -⟩
        exact hca.elim (fun h => h hacc.authority.1) (fun h => h hacc.authority.2)
      rw [if_neg hca]
      by_cases hdeep : 0 ≤ c.pathLen ∧ c.pathLen < depth
      · rw [if_pos hdeep]
        exact iff_of_false id fun h => h.1.deep hdeep
      rw [if_neg hdeep]
      cases hdates : datesOk c now with
      | some why =>
        refine iff_of_false id ?_
        rintro ⟨hacc, -⟩
        rw [hacc.dates] at hdates
        cases hdates
      | none =>
        dsimp only
        by_cases hsig : x509SignedBy P top c = true
        · rw [if_pos hsig, ih (by rw [List.length_set, hlen]), herase k c hp]
          simp only [not_or, not_not] at hca
          constructor
          · intro h
            exact ⟨⟨hca, hdeep, hdates, hsig⟩, h⟩
          · exact fun h => h.2
        · rw [if_neg hsig]
          exact iff_of_false id fun h => hsig h.1.signed

/-! ## Paths and forks -/

section Forking

variable (P : Prims) (roots : List Root) (now : Nat)

/-- The walk may climb from where it stands to a certificate with the name it looks for. -/
inductive Climbs : Stand → Stand → Prop
  | to {s : Stand} {c : Cert} {rest : List Cert} (hends : ¬ ends roots s.top)
      (hleft : s.left.Perm (c :: rest)) (hname : bears s.top c = true) (hknown : ¬ known roots c)
      (haccepts : Accepts P now s.depth s.top c) : Climbs s (s.climb c rest)

/-- Some choice of parents leads from here to a root of the store. -/
inductive Leads : Stand → Prop
  | stays {s : Stand} (hstays : ends roots s.top ∨ ∀ c ∈ s.left, bears s.top c = false)
      (hanchored : Anchored P roots s.below s.top) : Leads s
  | root {s : Stand} {c : Cert} (hends : ¬ ends roots s.top) (hc : c ∈ s.left)
      (hname : bears s.top c = true) (hknown : known roots c)
      (hanchored : Anchored P roots (some s.top) c) : Leads s
  | climbs {s t : Stand} (hclimb : Climbs P roots now s t) (hleads : Leads t) : Leads s

/-- Some choice of parents that begins with `c` leads from `s` to a root of the store. -/
def LeadsBy (s : Stand) (c : Cert) : Prop :=
  (known roots c ∧ Anchored P roots (some s.top) c) ∨
  ∃ rest, s.left.Perm (c :: rest) ∧ ¬ known roots c ∧ Accepts P now s.depth s.top c ∧
    Leads P roots now (s.climb c rest)

/-- Wherever the walk may come to, the certificates with the name it looks for lead to a root of
the store all together or not at all. -/
def Forkless (s : Stand) : Prop :=
  ∀ t, Relation.ReflTransGen (Climbs P roots now) s t → ¬ ends roots t.top →
    ∀ c ∈ t.left, ∀ d ∈ t.left, bears t.top c = true → bears t.top d = true →
      LeadsBy P roots now t c → LeadsBy P roots now t d

end Forking

section Orders

variable {P : Prims} {roots : List Root} {now : Nat}

variable {l : List Cert} {s : Stand} {c : Cert} {n : Nat}

theorem Climbs.perm (h : Climbs P roots now s t)
    (hl : l.Perm s.left) : Climbs P roots now (s.over l) t := by
  obtain ⟨hends, hleft, hname, hknown, haccepts⟩ := h
  exact .to (s := s.over l) hends (hl.trans hleft) hname hknown haccepts

theorem Leads.perm (h : Leads P roots now s) (hl : l.Perm s.left) :
    Leads P roots now (s.over l) := by
  cases h with
  | stays hstays hanchored =>
    refine .stays ?_ hanchored
    rcases hstays with hends | hnone
    · exact Or.inl hends
    · exact Or.inr fun c hc => hnone c (hl.mem_iff.mp hc)
  | root hends hc hname hknown hanchored =>
    exact .root (s := s.over l) hends (hl.mem_iff.mpr hc) hname hknown hanchored
  | climbs hclimb hleads => exact .climbs (hclimb.perm hl) hleads

theorem LeadsBy.perm (h : LeadsBy P roots now s c)
    (hl : l.Perm s.left) : LeadsBy P roots now (s.over l) c := by
  rcases h with hroot | ⟨rest, hrest, hmore⟩
  · exact Or.inl hroot
  · exact Or.inr ⟨rest, hl.trans hrest, hmore⟩

theorem Forkless.perm (h : Forkless P roots now s)
    (hl : l.Perm s.left) : Forkless P roots now (s.over l) := by
  intro t ht hends c hc d hd hcn hdn hlead
  rcases ht.cases_head with rfl | ⟨u, hu, hut⟩
  · have hfork := h s .refl hends c (hl.mem_iff.mp hc) d (hl.mem_iff.mp hd) hcn hdn
      (hlead.perm hl.symm)
    exact hfork.perm hl
  · exact h t (.head (hu.perm hl.symm) hut) hends c hc d hd hcn hdn hlead

theorem perm_eraseP (h : s.left.find? (bears s.top) = some c) :
    bears s.top c = true ∧ c ∈ s.left ∧
      s.left.Perm (c :: s.left.eraseP (bears s.top)) := by
  obtain ⟨hname, before, after, hsplit, hbefore⟩ := List.find?_eq_some_iff_append.mp h
  refine ⟨hname, List.mem_of_find?_eq_some h, ?_⟩
  rw [hsplit, List.eraseP_append_right _ (by simpa using hbefore), List.eraseP_cons_of_pos hname]
  exact List.perm_middle

theorem leads_of_walksTo (hn : s.left.length < n)
    (h : walksTo P roots now n s) : Leads P roots now s := by
  induction n generalizing s with
  | zero => omega
  | succ n ih =>
    unfold walksTo at h
    rcases h with ⟨hends, hanchored⟩ | ⟨hends, h⟩
    · exact .stays (Or.inl hends) hanchored
    cases hfind : s.left.find? (bears s.top) with
    | none =>
      rw [hfind] at h
      refine .stays (Or.inr fun c hc => ?_) h
      simpa using List.find?_eq_none.mp hfind c hc
    | some c =>
      obtain ⟨hname, hmem, hperm⟩ := perm_eraseP hfind
      rw [hfind] at h
      rcases h with ⟨hknown, hanchored⟩ | ⟨hknown, haccepts, hwalk⟩
      · exact .root hends hmem hname hknown hanchored
      · have hlen := hperm.length_eq
        rw [List.length_cons] at hlen
        exact .climbs (.to hends hperm hname hknown haccepts)
          (ih (show (s.left.eraseP (bears s.top)).length < n by omega) hwalk)

theorem walksTo_stays (hstays : ends roots s.top ∨ ∀ c ∈ s.left, bears s.top c = false)
    (hanchored : Anchored P roots s.below s.top) : walksTo P roots now (n + 1) s := by
  unfold walksTo
  by_cases hends : ends roots s.top
  · exact Or.inl ⟨hends, hanchored⟩
  · have hnone : s.left.find? (bears s.top) = none :=
      List.find?_eq_none.mpr fun c hc => by simp [hstays.resolve_left hends c hc]
    rw [hnone]
    exact Or.inr ⟨hends, hanchored⟩

theorem walksTo_of_leads (hn : s.left.length < n)
    (hfork : Forkless P roots now s) (h : Leads P roots now s) : walksTo P roots now n s := by
  induction n generalizing s with
  | zero => omega
  | succ n ih =>
    unfold walksTo
    -- Whatever a path begins with, the walk's own choice leads as far.
    have choice : ∀ c ∈ s.left, ¬ ends roots s.top → bears s.top c = true →
        LeadsBy P roots now s c →
        match s.left.find? (bears s.top) with
        | none => Anchored P roots s.below s.top
        | some c =>
          (known roots c ∧ Anchored P roots (some s.top) c) ∨
          (¬ known roots c ∧ Accepts P now s.depth s.top c ∧
            walksTo P roots now n (s.climb c (s.left.eraseP (bears s.top)))) := by
      intro c hc hends hname hlead
      cases hfind : s.left.find? (bears s.top) with
      | none =>
        have := List.find?_eq_none.mp hfind c hc
        exact absurd hname this
      | some d =>
        obtain ⟨hdname, hdmem, hperm⟩ := perm_eraseP hfind
        rcases hfork s .refl hends c hc d hdmem hname hdname hlead with
          hroot | ⟨rest, hrest, hknown, haccepts, hleads⟩
        · exact Or.inl hroot
        · have hlen := hperm.length_eq
          rw [List.length_cons] at hlen
          have hsame := (List.perm_cons d).mp (hperm.symm.trans hrest)
          refine Or.inr ⟨hknown, haccepts, ih ?_ ?_ (hleads.perm hsame)⟩
          · show (s.left.eraseP (bears s.top)).length < n
            omega
          · intro t ht
            exact hfork t (.head (.to hends hperm hdname hknown haccepts) ht)
    cases h with
    | stays hstays hanchored => exact walksTo_stays hstays hanchored
    | root hends hc hname hknown hanchored =>
      exact Or.inr ⟨hends, choice _ hc hends hname (Or.inl ⟨hknown, hanchored⟩)⟩
    | climbs hclimb hleads =>
      obtain ⟨hends, hleft, hname, hknown, haccepts⟩ := hclimb
      exact Or.inr ⟨hends, choice _ (hleft.mem_iff.mpr (by simp)) hends hname
        (Or.inr ⟨_, hleft, hknown, haccepts, hleads⟩)⟩

/-! ### The order that follows a path -/

theorem walksTo_cons
    (hends : ¬ ends roots s.top) (hname : bears s.top c = true) :
    walksTo P roots now (n + 1) (s.over (c :: rest)) ↔
      (known roots c ∧ Anchored P roots (some s.top) c) ∨
      (¬ known roots c ∧ Accepts P now s.depth s.top c ∧
        walksTo P roots now n (s.climb c rest)) := by
  rw [walksTo]
  simp only [Stand.over, hends, false_and, not_false_eq_true, true_and, false_or,
    List.find?_cons_of_pos hname, List.eraseP_cons_of_pos hname]
  rfl

theorem walksTo_order (h : Relation.ReflTransGen (Climbs P roots now) s t)
    (hl : l.Perm t.left) :
    ∃ l', l'.Perm s.left ∧ ∀ n, s.left.length < n → ∃ m, t.left.length < m ∧
      (walksTo P roots now n (s.over l') ↔ walksTo P roots now m (t.over l)) := by
  induction h using Relation.ReflTransGen.head_induction_on with
  | refl => exact ⟨l, hl, fun n hn => ⟨n, hn, Iff.rfl⟩⟩
  | head hst _ ih =>
    obtain ⟨l', hl', hwalk⟩ := ih
    obtain ⟨hends, hleft, hname, hknown, haccepts⟩ := hst
    refine ⟨_ :: l', (hl'.cons _).trans hleft.symm, fun n hn => ?_⟩
    cases n with
    | zero => omega
    | succ n =>
      have hlen := hleft.length_eq
      rw [List.length_cons] at hlen
      obtain ⟨m, hm, hiff⟩ := hwalk n (by simp only [Stand.climb]; omega)
      refine ⟨m, hm, ?_⟩
      rw [walksTo_cons hends hname, ← hiff]
      constructor
      · rintro (⟨h, -⟩ | ⟨-, -, h⟩)
        · exact absurd h hknown
        · exact h
      · exact fun h => Or.inr ⟨hknown, haccepts, h⟩

theorem leads_order (h : Leads P roots now s) :
    ∃ l, l.Perm s.left ∧ ∀ n, s.left.length < n → walksTo P roots now n (s.over l) := by
  induction h with
  | @stays s hstays hanchored =>
    refine ⟨s.left, .refl _, fun n hn => ?_⟩
    cases n with
    | zero => omega
    | succ n =>
      exact walksTo_stays hstays hanchored
  | @root s c hends hc hname hknown hanchored =>
    obtain ⟨before, after, hsplit⟩ := List.append_of_mem hc
    refine ⟨c :: (before ++ after), ?_, fun n hn => ?_⟩
    · rw [hsplit]
      exact List.perm_middle.symm
    · cases n with
      | zero => omega
      | succ n => exact (walksTo_cons hends hname).mpr (Or.inl ⟨hknown, hanchored⟩)
  | climbs hclimb _ ih =>
    obtain ⟨l, hl, hwalk⟩ := ih
    obtain ⟨l', hl', hsame⟩ := walksTo_order (.single hclimb) hl
    refine ⟨l', hl', fun n hn => ?_⟩
    obtain ⟨m, hm, hiff⟩ := hsame n hn
    exact hiff.mpr (hwalk m hm)

theorem leadsBy_order (hends : ¬ ends roots s.top) (hc : c ∈ s.left)
    (hname : bears s.top c = true) (h : LeadsBy P roots now s c) :
    ∃ l, l.Perm s.left ∧ ∀ n, s.left.length < n → walksTo P roots now n (s.over l) := by
  rcases h with ⟨hknown, hanchored⟩ | ⟨rest, hrest, hknown, haccepts, hleads⟩
  · exact leads_order (.root hends hc hname hknown hanchored)
  · exact leads_order (.climbs (.to hends hrest hname hknown haccepts) hleads)

theorem leadsBy_of_walksTo {d : Cert}
    (hends : ¬ ends roots s.top) (hname : bears s.top d = true) (hleft : s.left.Perm (d :: rest))
    (hn : s.left.length < n) (h : walksTo P roots now n (s.over (d :: rest))) :
    LeadsBy P roots now s d := by
  cases n with
  | zero => omega
  | succ n =>
    have hlen := hleft.length_eq
    rw [List.length_cons] at hlen
    rcases (walksTo_cons hends hname).mp h with hroot | ⟨hknown, haccepts, hwalk⟩
    · exact Or.inl hroot
    · exact Or.inr ⟨rest, hleft, hknown, haccepts,
        leads_of_walksTo (by simp only [Stand.climb]; omega) hwalk⟩

theorem walksTo_perm_iff (hn : s.left.length < n) :
    (∀ l, l.Perm s.left →
      (walksTo P roots now n (s.over l) ↔ walksTo P roots now n s)) ↔ Forkless P roots now s := by
  constructor
  · intro hsame t ht hends c hc d hd hcn hdn hlead
    obtain ⟨l, hl, hgood⟩ := leadsBy_order hends hc hcn hlead
    obtain ⟨before, after, hsplit⟩ := List.append_of_mem hd
    have hperm : t.left.Perm (d :: (before ++ after)) := by
      rw [hsplit]
      exact List.perm_middle
    -- The two orders part at `t`, one with `c` first and one with `d` first.
    obtain ⟨lc, hlc, hc⟩ := walksTo_order ht hl
    obtain ⟨ld, hld, hd⟩ := walksTo_order ht hperm.symm
    obtain ⟨m, hm, hc⟩ := hc n hn
    obtain ⟨k, hk, hd⟩ := hd n hn
    refine leadsBy_of_walksTo hends hdn hperm hk ?_
    rw [← hd, hsame ld hld, ← hsame lc hlc, hc]
    exact hgood m hm
  · intro hfork l hl
    have hlen : (s.over l).left.length < n := by
      rw [show (s.over l).left = l from rfl, hl.length_eq]
      exact hn
    constructor
    · intro h
      have hleads := leads_of_walksTo hlen h
      exact walksTo_of_leads hn hfork (hleads.perm hl.symm)
    · intro h
      exact walksTo_of_leads hlen (hfork.perm hl) ((leads_of_walksTo hn h).perm hl)

end Orders

/-! ## The certificates as they were sent -/

theorem perm_of_filterMap {α β : Type} {f : α → Option β} {l : List α} {m : List β}
    (h : m.Perm (l.filterMap f)) : ∃ l' : List α, l'.Perm l ∧ l'.filterMap f = m := by
  generalize hm : l.filterMap f = m' at h
  induction h generalizing l with
  | nil => exact ⟨l, .refl _, hm⟩
  | cons b _ ih =>
    obtain ⟨before, a, after, rfl, hbefore, ha, hafter⟩ := List.filterMap_eq_cons_iff.mp hm
    obtain ⟨l', hl', hf⟩ := ih hafter
    refine ⟨before ++ a :: l', (hl'.cons a).append_left before, ?_⟩
    rw [List.filterMap_append, List.filterMap_eq_nil_iff.mpr hbefore, List.nil_append,
      List.filterMap_cons_some ha, hf]
  | swap b c _ =>
    obtain ⟨before, a, after, rfl, hbefore, ha, hafter⟩ := List.filterMap_eq_cons_iff.mp hm
    obtain ⟨between, a', after, rfl, hbetween, ha', hafter⟩ :=
      List.filterMap_eq_cons_iff.mp hafter
    refine ⟨before ++ a' :: (between ++ a :: after), ?_, ?_⟩
    · refine List.Perm.append_left before ?_
      calc (a' :: (between ++ a :: after)).Perm (a' :: a :: (between ++ after)) :=
            List.perm_middle.cons a'
        _ |>.Perm (a :: a' :: (between ++ after)) := .swap a a' _
        _ |>.Perm (a :: (between ++ a' :: after)) := List.perm_middle.symm.cons a
    · simp only [List.filterMap_append, List.filterMap_eq_nil_iff.mpr hbefore,
        List.filterMap_eq_nil_iff.mpr hbetween, List.filterMap_cons_some ha,
        List.filterMap_cons_some ha', List.nil_append, hafter]
  | trans _ _ ih₁ ih₂ =>
    obtain ⟨l₂, hl₂, hf₂⟩ := ih₂ hm
    obtain ⟨l₁, hl₁, hf₁⟩ := ih₁ hf₂
    exact ⟨l₁, hl₁.trans hl₂, hf₁⟩

/-- Where the walk starts: at the leaf, with every further certificate that can be read. -/
def Stand.start (leaf : Cert) (ders : List Bytes) : Stand :=
  ⟨ders.filterMap x509Parse, leaf, none, 0⟩

theorem available_start (leaf : Cert) (rest : List (Option Cert)) :
    available (some leaf :: rest) (true :: rest.map Option.isNone) = rest.filterMap id := by
  rw [available_cons]
  induction rest with
  | nil => rfl
  | cons x rest ih =>
    rw [List.map_cons, available_cons, List.filterMap_cons]
    cases x with
    | none => exact ih
    | some c => exact congrArg (c :: ·) ih

theorem verifyTop_unreadable (P : Prims) (roots : List Root) (unreadable : Bool)
    (below : Option Cert) (top : Cert) :
    verifyTop P roots unreadable below top = .ok ↔ Anchored P roots below top := by
  unfold Anchored verifyTop
  cases rootsFind roots top.subject.bytes with
  | some root => rfl
  | none =>
    cases rootsFind roots top.issuer.bytes with
    | none => cases unreadable <;> simp
    | some root => rfl

theorem x509VerifyChain_ok_iff (P : Prims) (roots : List Root) (der : Bytes) (ders : List Bytes)
    (host : Bytes) (now : Nat) :
    x509VerifyChain P roots (der :: ders) host now = .ok ↔
      ∃ leaf, x509Parse der = some leaf ∧ ders.length < X509_MAX_CHAIN ∧
        x509HostMatches leaf host = true ∧ datesOk leaf now = none ∧
        walksTo P roots now (ders.length + 1) (.start leaf ders) := by
  unfold x509VerifyChain
  rw [List.length_cons]
  by_cases hmany : X509_MAX_CHAIN < ders.length + 1
  · rw [if_pos (Or.inr hmany)]
    refine iff_of_false (by simp) ?_
    rintro ⟨_, _, h, _⟩
    omega
  rw [if_neg (by omega)]
  unfold verifyWith
  rw [List.map_cons]
  cases hparse : x509Parse der with
  | none => simp
  | some leaf =>
    dsimp only
    by_cases hhost : x509HostMatches leaf host = true
    · rw [if_neg (by simpa using hhost)]
      cases hdates : datesOk leaf now with
      | some why =>
        refine iff_of_false (fun h => datesOk_ne_ok leaf now (h ▸ hdates)) ?_
        rintro ⟨_, heq, _, _, h, _⟩
        cases heq
        rw [hdates] at h
        cases h
      | none =>
        have hwalk : (walk P roots (some leaf :: ders.map x509Parse) now (ders.length + 1)
            (true :: (ders.map x509Parse).map Option.isNone) leaf none 0).Good P roots ↔ _ := walk_good (by simp)
        rw [available_start, List.filterMap_map] at hwalk
        dsimp only
        rw [List.length_cons, List.length_map]
        have hgood : walksTo P roots now (ders.length + 1) (.start leaf ders) ↔ _ := hwalk.symm
        simp only [Option.some.injEq, exists_eq_left', hhost, hdates, hgood, true_and]
        rw [and_iff_right (by omega : ders.length < X509_MAX_CHAIN)]
        cases hw : walk P roots (some leaf :: ders.map x509Parse) now (ders.length + 1)
            (true :: (ders.map x509Parse).map Option.isNone) leaf none 0 with
        | stop below top => exact verifyTop_unreadable P roots _ below top
        | refused why =>
          refine iff_of_false ?_ id
          rintro rfl
          exact walk_ne_refused_ok _ _ _ _ _ _ _ _ _ hw
    · rw [if_pos (by simpa using hhost)]
      refine iff_of_false (by simp) ?_
      rintro ⟨_, h, _, hmatch, _⟩
      cases h
      exact hhost hmatch

/-- The order of the further certificates decides nothing just when the walk meets no fork: two certificates of its
issuer's name of which one leads to a root and the other does not. -/
theorem x509VerifyChain_perm_iff (P : Prims) (roots : List Root) (der : Bytes)
    (ders : List Bytes) (host : Bytes) (now : Nat) :
    (∀ ders', ders'.Perm ders →
      (x509VerifyChain P roots (der :: ders') host now = .ok ↔
        x509VerifyChain P roots (der :: ders) host now = .ok)) ↔
    (∀ leaf, x509Parse der = some leaf → ders.length < X509_MAX_CHAIN →
      x509HostMatches leaf host = true → datesOk leaf now = none →
      Forkless P roots now (.start leaf ders)) := by
  have hfew : ∀ leaf ders, (Stand.start leaf ders).left.length < ders.length + 1 := fun _ ders =>
    Nat.lt_succ_of_le (List.length_filterMap_le _ ders)
  constructor
  · intro hsame leaf hparse hlen hhost hdates
    refine (walksTo_perm_iff (hfew leaf ders)).mp fun l hl => ?_
    obtain ⟨ders', hperm, rfl⟩ := perm_of_filterMap hl
    have hboth := hsame ders' hperm
    rw [x509VerifyChain_ok_iff, x509VerifyChain_ok_iff, hperm.length_eq] at hboth
    simp only [hparse, Option.some.injEq, exists_eq_left', hlen, hhost, hdates, true_and] at hboth
    exact hboth
  · intro hfork ders' hperm
    rw [x509VerifyChain_ok_iff, x509VerifyChain_ok_iff, hperm.length_eq]
    refine exists_congr fun leaf => and_congr_right fun hparse => and_congr_right fun hlen =>
      and_congr_right fun hhost => and_congr_right fun hdates => ?_
    exact (walksTo_perm_iff (hfew leaf ders)).mpr (hfork leaf hparse hlen hhost hdates) _
      (hperm.filterMap x509Parse)

/-! ### Two authorities of one name

The name `ca` is borne by an authority and by a certificate that may not sign. -/

def sampleFork : List Bytes := [sampleCert "root" "ca" sampleCa, sampleCert "root" "ca" []]

theorem sampleFork_order :
    ¬ ∀ ders ders' : List Bytes, ders.Perm ders' →
      (x509VerifyChain samplePrims [sampleRoot]
          (sampleCert "ca" "site" (sampleSan "*.b.c") :: ders) (ascii "a.b.c") 20250607080910 = .ok ↔
        x509VerifyChain samplePrims [sampleRoot]
          (sampleCert "ca" "site" (sampleSan "*.b.c") :: ders') (ascii "a.b.c") 20250607080910 = .ok) := by
  intro h
  have hswap := h sampleFork sampleFork.reverse (List.reverse_perm _).symm
  exact absurd (hswap.mp (by decide +kernel)) (by decide +kernel)

end Zelr.X509
