import Zelr.Js.Rewind
import Zelr.Js.Textbook

/-!
# The matcher means what the pattern means

A continuation in the pool stands for what comes after, read off the frames behind it. A call that
has steps and frames left does what the textbook does from there, and one that fails leaves the pool
as it was, and of the captures those that no lookahead caught.
-/

namespace Zelr.Js

variable {α : Type} {len pos i e g frames : Nat} {c : Option Nat} {l : List Nat} {T : Reading}
  {caps caps' : Caps} {f : RxCont} {act r : RxM Bool} {o o' : Outcome} {top : Bool}
  {spec : Caps → Outcome} {alt : List (List RxNode)} {wmin wmax : Int} {q : RxQuant}

/-- The code's reading, with the room that the pool has. -/
def pooled (R : RxEnv) : Reading := codeReading R (some RX_CONTS)

theorem pooled_fits (R : RxEnv) (frames : Nat) : (pooled R).fits frames = true ↔ frames ≤ RX_CONTS := by
  simp [Reading.fits, pooled, codeReading]

theorem rxBind {β : Type} (m : RxM α) (f : α → RxM β) (S : RxState) :
    (m >>= f) S = (m S).bind fun r => f r.1 r.2 := rfl

theorem rxPure (a : α) (S : RxState) : (pure a : RxM α) S = some (a, S) := rfl

theorem rxGet (S : RxState) : (get : RxM RxState) S = some (S, S) := rfl

theorem rxSet (S' S : RxState) : (set S' : RxM PUnit) S = some (⟨⟩, S') := rfl

theorem rxModify (f : RxState → RxState) (S : RxState) : (modify f : RxM PUnit) S = some (⟨⟩, f S) := rfl

/-! ## Moving on -/

/-- From `a` on to `b`, which is past `a` only when the text goes on at `a`. -/
def Moved (len a b : Nat) : Prop := a ≤ b ∧ (a < b → a < len)

theorem Moved.refl (len a : Nat) : Moved len a a := ⟨le_refl a, fun h => absurd h (lt_irrefl a)⟩

theorem Moved.trans {a b c : Nat} (h₁ : Moved len a b) (h₂ : Moved len b c) : Moved len a c := by
  obtain ⟨hab, ha⟩ := h₁
  obtain ⟨hbc, hb⟩ := h₂
  refine ⟨by omega, fun h => ?_⟩
  rcases Nat.lt_or_ge a b with hlt | hge
  · exact ha hlt
  · have : a = b := by omega
    subst this
    exact hb h

theorem walk_moved (R : RxEnv) (x : RxSingle) (h : Walk (rxOne R x) pos l) :
    ∀ p ∈ l, Moved R.len pos p := by
  induction h with
  | stop _ => simp [Moved.refl]
  | @step q l hone _ ih =>
    intro p hp
    have hlt := (rxOne_charLen R x q hone).1
    rcases List.mem_cons.mp hp with rfl | hp
    · exact .refl _ _
    · exact Moved.trans ⟨by omega, fun _ => hlt⟩ (ih p hp)

/-! ## Captures that count -/

/-- The same captures, but for those of the groups in `G`. -/
structure Agree (G : Nat → Prop) (c c' : Caps) : Prop where
  length : c.length = c'.length
  same : ∀ g, ¬ G g → c.getD g none = c'.getD g none

section Agree
variable {G : Nat → Prop} {a b c : Caps}

theorem Agree.refl (c : Caps) : Agree G c c := ⟨rfl, fun _ _ => rfl⟩

theorem Agree.trans (h : Agree G a b) (h' : Agree G b c) : Agree G a c :=
  ⟨h.length.trans h'.length, fun g hg => (h.same g hg).trans (h'.same g hg)⟩

theorem getD_set (c : Caps) (i g : Nat) (x : Option (Nat × Nat)) :
    (c.set i x).getD g none = if i = g ∧ i < c.length then x else c.getD g none := by
  simp only [List.getD_eq_getElem?_getD, List.getElem?_set]
  by_cases hi : i = g
  · subst hi
    by_cases hlt : i < c.length
    · simp [hlt]
    · simp [hlt]
  · simp [hi]

theorem Agree.set (h : Agree G a b) (i : Nat) (x : Option (Nat × Nat)) : Agree G (a.set i x) (b.set i x) := by
  refine ⟨by simpa using h.length, fun g hg => ?_⟩
  rw [getD_set, getD_set, h.length, h.same g hg]

theorem Agree.restore {x : Option (Nat × Nat)} (h : Agree G a (b.set i x)) (hc : Agree G c b) :
    Agree G (a.set i (c.getD i none)) b := by
  have hlength : a.length = b.length := by simpa using h.length
  refine ⟨by simpa using hlength, fun g hg => ?_⟩
  have hsame := h.same g hg
  rw [getD_set] at hsame ⊢
  rw [hlength]
  by_cases hi : i = g ∧ i < b.length
  · rw [if_pos hi, hi.1]
    exact hc.same g hg
  · rw [if_neg hi] at hsame ⊢
    exact hsame

theorem Agree.close {gs : List Nat} (h : Agree (· ∈ gs) a b) (cap : Option Nat) (pos e : Nat) :
    Agree (· ∈ cap.toList ++ gs) (RxCap.close cap pos e a) b := by
  cases cap with
  | none => exact h
  | some i =>
    refine ⟨by simpa [RxCap.close] using h.length, fun g hg => ?_⟩
    rw [RxCap.close, getD_set, if_neg fun hi => hg (by simp [hi.1])]
    exact h.same g fun hmem => hg (List.mem_append_right _ hmem)

theorem Agree.mono {H : Nat → Prop} (h : Agree G a b) (hsub : ∀ g, G g → H g) : Agree H a b :=
  ⟨h.length, fun g hg => h.same g fun hG => hg (hsub g hG)⟩

theorem clear_agree (gs : List Nat) (c : Caps) : Agree (· ∈ gs) (clearGroups gs c) c := by
  induction gs generalizing c with
  | nil => exact .refl c
  | cons g gs ih =>
    have hset : Agree (· ∈ g :: gs) (c.set g none) c := by
      refine ⟨by simp, fun i hi => ?_⟩
      rw [getD_set, if_neg fun hg => hi (by simp [hg.1])]
    exact ((ih (c.set g none)).mono fun i hi => List.mem_cons_of_mem _ hi).trans hset

end Agree

def RxPart.groups : RxPart → List Nat
  | .node n => n.groups
  | .alts alt => altsGroups alt
  | .seq ns => seqGroups ns
  | .turns n _ => n.groups

theorem Goes.agree {part : RxPart} (h : Goes T part pos caps e caps') :
    Agree (· ∈ part.groups) caps' caps := by
  induction h with
  | single | here | again | not | nil | stop => exact .refl _
  | ahead _ ih => exact ih
  | group _ ih => exact ih.close _ _ _
  | first _ ih => exact ih.mono fun g hg => List.mem_append_left _ hg
  | other _ ih => exact ih.mono fun g hg => List.mem_append_right _ hg
  | cons _ _ ih ih' =>
    exact (ih'.mono fun g hg => List.mem_append_right _ hg).trans (ih.mono fun g hg => List.mem_append_left _ hg)
  | @turn n done pos caps e caps' e' caps'' _ _ _ ih ih' =>
    have hclear : Agree (· ∈ n.groups) (clearGroups (if T.clears then n.groups else []) caps) caps :=
      (clear_agree _ caps).mono fun g hg => by
        split at hg
        · exact hg
        · cases hg
    exact (ih'.trans ih).trans hclear

/-! ## The pool -/

def RxCont.parent : RxCont → Option Nat
  | .rep _ _ parent _ _ => parent
  | .close _ parent _ => parent
  | .lookEnd _ => none

/-- Where a frame was pushed, for the frames that go back to a parent. -/
def RxCont.place : RxCont → Option Nat
  | .rep _ _ _ _ place => some place
  | .close _ _ place => some place
  | .lookEnd _ => none

/-- Turns are never pushed for one character repeated. -/
def RxCont.Proper (G : Nat → Prop) : RxCont → Prop
  | .rep n next _ _ _ => n.frames = 1 ∧ n.Proper G ∧ SeqProper G next
  | _ => True

/-- The continuation is there, and was pushed no further on than `pos`. -/
def Past (len : Nat) (pool : List RxCont) (c : Option Nat) (pos : Nat) : Prop :=
  ∀ i, c = some i → ∃ f, pool[i]? = some f ∧ ∀ p, f.place = some p → Moved len p pos

theorem past_none (len : Nat) (pool : List RxCont) (pos : Nat) : Past len pool none pos := by
  intro i hi
  simp at hi

variable {G : Nat → Prop} {pool pool' : List RxCont} {task : RxTask}

theorem Past.moved {pos' : Nat} (h : Past len pool c pos)
    (hmove : Moved len pos pos') : Past len pool c pos' := by
  intro i hi
  obtain ⟨f, hf, hplace⟩ := h i hi
  exact ⟨f, hf, fun p hp => (hplace p hp).trans hmove⟩

theorem frame_grow (hf : pool[i]? = some f)
    (hgrow : pool <+: pool') : pool'[i]? = some f := by
  obtain ⟨rest, rfl⟩ := hgrow
  obtain ⟨hi, -⟩ := List.getElem?_eq_some_iff.mp hf
  rwa [List.getElem?_append_left hi]

theorem take_grow (hf : pool[i]? = some f)
    (hgrow : pool <+: pool') : pool'.take i = pool.take i := by
  obtain ⟨rest, rfl⟩ := hgrow
  obtain ⟨hi, -⟩ := List.getElem?_eq_some_iff.mp hf
  exact List.take_append_of_le_length (by omega)

theorem Past.grow (h : Past len pool c pos)
    (hgrow : pool <+: pool') : Past len pool' c pos := by
  intro i hi
  obtain ⟨f, hf, hplace⟩ := h i hi
  exact ⟨f, frame_grow hf hgrow, hplace⟩

structure Sound (G : Nat → Prop) (len : Nat) (pool : List RxCont) : Prop where
  room : pool.length ≤ RX_CONTS
  back : ∀ i f, pool[i]? = some f → f.Proper G ∧ ∀ p, f.place = some p → Past len (pool.take i) f.parent p

theorem Sound.push (h : Sound G len pool) (f : RxCont) (hf : f.Proper G)
    (hroom : pool.length < RX_CONTS) (hpast : ∀ p, f.place = some p → Past len pool f.parent p) :
    Sound G len (pool ++ [f]) := by
  refine ⟨by simp; omega, fun i g hg => ?_⟩
  rcases Nat.lt_trichotomy i pool.length with hi | rfl | hi
  · rw [List.getElem?_append_left hi] at hg
    rw [List.take_append_of_le_length (by omega)]
    exact h.back i g hg
  · obtain rfl : f = g := by simpa using hg
    simpa using ⟨hf, hpast⟩
  · rw [List.getElem?_eq_none (by simp; omega)] at hg
    simp at hg

theorem Sound.cut (h : Sound G len pool') (hgrow : pool <+: pool') :
    Sound G len pool := by
  have hlen := hgrow.length_le
  refine ⟨hlen.trans h.room, fun i f hf => ?_⟩
  rw [← take_grow hf hgrow]
  exact h.back i f (frame_grow hf hgrow)

/-! ## What a continuation means -/

section Meaning

variable (T : Reading)

def frameMeaning (f : RxCont) (k : Onward) : Onward :=
  match f with
  | .lookEnd place => fun _ e caps => if place = none ∨ place = some e then .found e caps else .missed
  | .close cap _ place => fun frames e caps => k frames e (caps.set cap (some (place, e)))
  | .rep n next _ rep place => fun frames e caps =>
    if n.quant.min < rep ∧ ¬ (place < e ∧ place < T.len) then .missed
    else repeatMatcher T n.quant n.frames (matchNode T n) (clearGroups (if T.clears then n.groups else []))
      (matchSeq T next k) rep frames e caps

def meaning (pool : List RxCont) (c : Option Nat) : Onward :=
  match c with
  | none => fun _ e caps => .found e caps
  | some i =>
    if _ : i < pool.length then frameMeaning T pool[i] (meaning (pool.take i) pool[i].parent)
    else fun _ _ _ => .missed
  termination_by pool.length
  decreasing_by
    rw [List.length_take]
    omega

def rooted (pool : List RxCont) (c : Option Nat) : Bool :=
  match c with
  | none => true
  | some i =>
    if _ : i < pool.length then pool[i].place.isSome && rooted (pool.take i) pool[i].parent
    else false
  termination_by pool.length
  decreasing_by
    rw [List.length_take]
    omega

variable {pool : List RxCont}

theorem meaning_some (h : pool[i]? = some f) :
    meaning T pool (some i) = frameMeaning T f (meaning T (pool.take i) f.parent) := by
  obtain ⟨hi, rfl⟩ := List.getElem?_eq_some_iff.mp h
  rw [meaning, dif_pos hi]

theorem meaning_none (pool : List RxCont) : meaning T pool none = fun _ e caps => .found e caps := by
  rw [meaning]

theorem meaning_grow (h : Past len pool c pos)
    (hgrow : pool <+: pool') : meaning T pool' c = meaning T pool c := by
  cases c with
  | none => rw [meaning_none, meaning_none]
  | some i =>
    obtain ⟨f, hf, -⟩ := h i rfl
    rw [meaning_some T hf, meaning_some T (frame_grow hf hgrow), take_grow hf hgrow]

omit T in
theorem rooted_some (h : pool[i]? = some f) :
    rooted pool (some i) = (f.place.isSome && rooted (pool.take i) f.parent) := by
  obtain ⟨hi, rfl⟩ := List.getElem?_eq_some_iff.mp h
  rw [rooted, dif_pos hi]

omit T in
theorem rooted_none (pool : List RxCont) : rooted pool none = true := by
  rw [rooted]

omit T in
theorem rooted_grow (h : Past len pool c pos)
    (hgrow : pool <+: pool') : rooted pool' c = rooted pool c := by
  cases c with
  | none => rw [rooted_none, rooted_none]
  | some i =>
    obtain ⟨f, hf, -⟩ := h i rfl
    rw [rooted_some hf, rooted_some (frame_grow hf hgrow), take_grow hf hgrow]

end Meaning

/-! ## What an action does -/

/-- No step was one too many. -/
structure RxState.Within (S : RxState) : Prop where
  steps : S.steps ≤ RX_STEPS
  total : S.total ≤ RX_SEARCH

instance (S : RxState) : Decidable S.Within :=
  decidable_of_iff (S.steps ≤ RX_STEPS ∧ S.total ≤ RX_SEARCH) ⟨fun h => ⟨h.1, h.2⟩, fun h => ⟨h.1, h.2⟩⟩

/-- Some steps on, with the same continuations. -/
structure Later (G : Nat → Prop) (len : Nat) (S S' : RxState) : Prop where
  sound : Sound G len S'.cont
  steps : S.steps ≤ S'.steps
  total : S.total ≤ S'.total
  cont : S'.cont = S.cont

/-- The action has done what the textbook says, of captures that agree with those it found. -/
structure Answers (G : Nat → Prop) (top : Bool) (caps : Caps) (b : Bool) (S' : RxState) (o : Outcome) : Prop where
  missed : o = .missed → b = false ∧ Agree G S'.caps caps
  found : ∀ e c, o = .found e c → b = true ∧ Agree G S'.caps c ∧ (top = true → S'.fin = some e)

/-- What an action leaves: if no step was one too many, what `spec` says of the captures it found; if it failed, the
continuations as they were. -/
structure Post (G : Nat → Prop) (len : Nat) (top : Bool) (spec : Caps → Outcome) (S : RxState) (b : Bool)
    (S' : RxState) : Prop where
  sound : Sound G len S'.cont
  steps : S.steps ≤ S'.steps
  total : S.total ≤ S'.total
  kept : S.cont <+: S'.cont
  dropped : b = false → S'.cont = S.cont
  does : S'.Within → ∀ caps, Agree G S.caps caps → Answers G top caps b S' (spec caps)

def Acts (G : Nat → Prop) (len : Nat) (top : Bool) (spec : Caps → Outcome) (act : RxM Bool) (S : RxState) : Prop :=
  ∃ b S', act S = some (b, S') ∧ Post G len top spec S b S'

section Actions

variable {len : Nat} {top : Bool} {spec spec₁ spec₂ : Caps → Outcome} {S S' S₁ : RxState} {b : Bool}

theorem Answers.deep : Answers G top caps b S' .deep := ⟨fun h => (by cases h), fun _ _ h => (by cases h)⟩

theorem Answers.of_missed (h : Agree G S'.caps caps) : Answers G top caps false S' .missed :=
  ⟨fun _ => ⟨rfl, h⟩, fun _ _ h => (by cases h)⟩

theorem Answers.of_found {c : Caps} (h : Agree G S'.caps c) (hfin : top = true → S'.fin = some e) :
    Answers G top caps true S' (.found e c) :=
  ⟨fun h => (by cases h), fun e' c' h' => by
    cases h'
    exact ⟨rfl, h, hfin⟩⟩

theorem Later.refl (h : Sound G len S.cont) : Later G len S S := ⟨h, le_rfl, le_rfl, rfl⟩

theorem Later.trans (h₁ : Later G len S S₁) (h₂ : Later G len S₁ S') : Later G len S S' :=
  ⟨h₂.sound, h₁.steps.trans h₂.steps, h₁.total.trans h₂.total, h₂.cont.trans h₁.cont⟩

theorem Post.within (h : Post G len top spec S b S') (hw : S'.Within) : S.Within :=
  ⟨h.steps.trans hw.steps, h.total.trans hw.total⟩

theorem Post.later (h : Post G len top spec S false S') : Later G len S S' :=
  ⟨h.sound, h.steps, h.total, h.dropped rfl⟩

/-- After some steps, what an action leaves, when it has done what `spec` says of these captures. -/
theorem Post.after (hlater : Later G len S S₁) (h : Post G len top spec₁ S₁ b S')
    (hdoes : S'.Within → ∀ caps, Agree G S.caps caps → Answers G top caps b S' (spec caps)) :
    Post G len top spec S b S' :=
  ⟨h.sound, hlater.steps.trans h.steps, hlater.total.trans h.total, by rw [← hlater.cont]; exact h.kept,
    fun hb => (h.dropped hb).trans hlater.cont, hdoes⟩

theorem Post.stop (hlater : Later G len S S')
    (h : S'.Within → ∀ caps, Agree G S.caps caps → Answers G top caps false S' (spec caps)) : Post G len top spec S false S' :=
  ⟨hlater.sound, hlater.steps, hlater.total, hlater.cont ▸ List.prefix_rfl, fun _ => hlater.cont, h⟩

theorem Acts.run {act' : RxM Bool} (heq : act S = act' S) (h : Acts G len top spec act' S) :
    Acts G len top spec act S := by
  obtain ⟨b, S', hrun, hpost⟩ := h
  exact ⟨b, S', heq.trans hrun, hpost⟩

theorem Acts.congr (h : Acts G len top spec₁ act S)
    (heq : ∀ caps, Agree G S.caps caps → spec₁ caps = spec₂ caps) : Acts G len top spec₂ act S := by
  obtain ⟨b, S', hrun, hpost⟩ := h
  exact ⟨b, S', hrun, hpost.sound, hpost.steps, hpost.total, hpost.kept, hpost.dropped,
    fun hw caps hcaps => heq caps hcaps ▸ hpost.does hw caps hcaps⟩

theorem Acts.stop (h : Sound G len S.cont) (hspec : ∀ caps, Agree G S.caps caps → spec caps = .missed) :
    Acts G len top spec (pure false) S :=
  ⟨false, S, rfl, .stop (.refl h) fun _ caps hcaps => by
    rw [hspec caps hcaps]
    exact .of_missed hcaps⟩

theorem Answers.orLeft (h : Answers G top caps true S' o) : Answers G top caps true S' (o.or o') := by
  cases o with
  | missed => cases (h.missed rfl).1
  | found => exact h
  | deep => exact .deep

theorem Answers.orRight (h : Answers G top caps false S₁ o)
    (h' : Agree G S₁.caps caps → Answers G top caps b S' o') : Answers G top caps b S' (o.or o') := by
  cases o with
  | missed => exact h' (h.missed rfl).2
  | found e c => cases (h.found e c rfl).1
  | deep => exact .deep

theorem Acts.orElse {a : RxM Bool} (h₁ : Acts G len top spec₁ a S)
    (h₂ : ∀ S', Later G len S S' → Acts G len top spec₂ r S') :
    Acts G len top (fun caps => (spec₁ caps).or (spec₂ caps)) (a >>= fun x => if x = true then pure true else r) S := by
  obtain ⟨b₁, S₁, hrun₁, hpost₁⟩ := h₁
  cases b₁ with
  | true =>
    exact ⟨true, S₁, by simp [rxBind, hrun₁, rxPure], hpost₁.sound, hpost₁.steps, hpost₁.total, hpost₁.kept, hpost₁.dropped,
      fun hw caps hcaps => (hpost₁.does hw caps hcaps).orLeft⟩
  | false =>
    obtain ⟨b, S', hrun, hpost⟩ := h₂ S₁ hpost₁.later
    exact ⟨b, S', by simp [rxBind, hrun₁, hrun], hpost.after hpost₁.later fun hw caps hcaps =>
      (hpost₁.does (hpost.within hw) caps hcaps).orRight (hpost.does hw caps)⟩

theorem rxBudget_later (h : Sound G len S.cont) :
    ∃ b S', rxBudget S = some (b, S') ∧ Later G len S S' ∧ S'.caps = S.caps ∧ S'.steps = S.steps + 1 ∧
      (b = true → S'.steps ≤ RX_STEPS) ∧ (b = false → ¬ S'.Within) := by
  simp only [rxBudget, rxBind, rxGet, Option.bind_some]
  split
  · rename_i hsteps
    refine ⟨_, _, rfl, ⟨h, Nat.le_succ _, Nat.le_succ _, rfl⟩, rfl, rfl, fun _ => hsteps, fun hb hw => ?_⟩
    exact of_decide_eq_false hb hw.total
  · rename_i hsteps
    exact ⟨_, _, rfl, ⟨h, Nat.le_succ _, le_rfl, rfl⟩, rfl, rfl, fun hb => (by cases hb), fun _ hw => hsteps hw.steps⟩

theorem Acts.budget (hsound : Sound G len S.cont)
    (h : ∀ S', Later G len S S' → S'.caps = S.caps → S'.steps = S.steps + 1 → S'.steps ≤ RX_STEPS →
      Acts G len top spec r S') :
    Acts G len top spec (rxBudget >>= fun x => if (!x) = true then pure false else r) S := by
  obtain ⟨b₁, S₁, hrun₁, hlater, hcaps, hsteps, htrue, hfalse⟩ := rxBudget_later hsound
  cases b₁ with
  | false =>
    exact ⟨false, S₁, by simp [rxBind, hrun₁, rxPure], .stop hlater fun hw => absurd hw (hfalse rfl)⟩
  | true =>
    obtain ⟨b, S', hrun, hpost⟩ := h S₁ hlater hcaps hsteps (htrue rfl)
    exact ⟨b, S', by simp [rxBind, hrun₁, hrun], hpost.after hlater (by rw [← hcaps]; exact hpost.does)⟩

end Actions

/-! ## Calls -/

def RxTask.Valid (G : Nat → Prop) (len : Nat) (pool : List RxCont) : RxTask → Prop
  | .run n pos cont => SeqProper G n ∧ Past len pool cont pos
  | .rep n next pos cont done => (n.frames = 1 ∨ done = 0) ∧ n.Proper G ∧ SeqProper G next ∧ Past len pool cont pos
  | .atom n pos cont => n.Proper G ∧ Past len pool cont pos
  | .contDo cont pos => Past len pool cont pos

def RxTask.behind : RxTask → Option Nat
  | .run _ _ cont => cont
  | .rep _ _ _ cont _ => cont
  | .atom _ _ cont => cont
  | .contDo cont _ => cont

def RxTask.means (T : Reading) (pool : List RxCont) : RxTask → Caps → Outcome
  | .run n pos cont => matchSeq T n (meaning T pool cont) pool.length pos
  | .rep n next pos cont done =>
    repeatMatcher T n.quant n.frames (matchNode T n) (clearGroups (if T.clears then n.groups else []))
      (matchSeq T next (meaning T pool cont)) done pool.length pos
  | .atom n pos cont => matchNode T n (meaning T pool cont) pool.length pos
  | .contDo cont pos => meaning T pool cont pool.length pos

/-- How much deeper a call goes before the next step is counted: captures are closed one under the other, and a list
at its end goes on with what is behind it. -/
def RxTask.cost : RxTask → Nat
  | .run _ _ _ => RX_CONTS + 3
  | .contDo (some c) _ => c + 2
  | _ => 1

theorem contDo_cost {cont : Option Nat} (h : Past len pool cont pos)
    (hsound : Sound G len pool) : (RxTask.contDo cont pos).cost < RX_CONTS + 2 := by
  cases cont with
  | none => simp [RxTask.cost, RX_CONTS]
  | some c =>
    obtain ⟨f, hf, -⟩ := h c rfl
    obtain ⟨hc, -⟩ := List.getElem?_eq_some_iff.mp hf
    have := hsound.room
    simp only [RxTask.cost]
    omega

theorem RxTask.Valid.cost_lt (h : task.Valid G len pool)
    (hsound : Sound G len pool) : task.cost < RX_CONTS + 4 := by
  cases task with
  | run n pos cont => simp [RxTask.cost]
  | rep n next pos cont done => simp [RxTask.cost, RX_CONTS]
  | atom n pos cont => simp [RxTask.cost, RX_CONTS]
  | contDo cont pos =>
    have := contDo_cost h hsound
    omega

/-- Calls that cost less than `cost`, made with so many steps behind, do what they are there to do. -/
def Serves (G : Nat → Prop) (R : RxEnv) (call : RxTask → RxM Bool) (steps cost : Nat) : Prop :=
  ∀ task S, steps ≤ S.steps → task.cost < cost → Sound G R.len S.cont → task.Valid G R.len S.cont →
    Acts G R.len (rooted S.cont task.behind) (task.means (pooled R) S.cont) (call task) S

/-- A pool from which every call can be made, with so many steps behind. -/
structure Ready (G : Nat → Prop) (R : RxEnv) (call : RxTask → RxM Bool) (steps : Nat) (S : RxState) : Prop where
  sound : Sound G R.len S.cont
  late : steps ≤ S.steps
  call : Serves G R call steps (RX_CONTS + 4)

section Calls

variable {R : RxEnv} {call : RxTask → RxM Bool} {steps : Nat} {S S' : RxState}

theorem Ready.later (h : Ready G R call steps S) (hlater : Later G R.len S S') : Ready G R call steps S' :=
  ⟨hlater.sound, h.late.trans hlater.steps, h.call⟩

theorem Serves.later {cost : Nat} (h : Serves G R call steps cost)
    (hlater : Later G R.len S S') (hsteps : steps ≤ S'.steps) (hcost : task.cost < cost)
    (hvalid : task.Valid G R.len S.cont) :
    Acts G R.len (rooted S.cont task.behind) (task.means (pooled R) S.cont) (call task) S' := by
  have := h task S' hsteps hcost hlater.sound (by rw [hlater.cont]; exact hvalid)
  rwa [hlater.cont] at this

/-! ### Pushing a frame -/

theorem rxPush_full (f : RxCont) (hroom : RX_CONTS ≤ S.cont.length) : rxPush f S = some (none, S) := by
  simp only [rxPush, rxBind, rxGet, rxPure, Option.bind_some, ge_iff_le, hroom, if_true]

theorem rxPush_room (f : RxCont) (hroom : S.cont.length < RX_CONTS) :
    rxPush f S = some (some S.cont.length, { S with cont := S.cont ++ [f] }) := by
  simp only [rxPush, rxBind, rxGet, rxSet, rxPure, Option.bind_some, ge_iff_le, not_le.mpr hroom, if_false]

theorem fits_full (hroom : RX_CONTS ≤ S.cont.length) : (pooled R).fits (S.cont.length + 1) = false := by
  rw [Bool.eq_false_iff, ne_eq, pooled_fits]
  omega

theorem fits_room (hroom : S.cont.length < RX_CONTS) : (pooled R).fits (S.cont.length + 1) = true := by
  rw [pooled_fits]
  omega

theorem Acts.deep (h : Sound G len S.cont)
    (hact : act S = some (false, S)) (hspec : ∀ caps, spec caps = .deep) : Acts G len top spec act S :=
  ⟨false, S, hact, .stop (.refl h) fun _ caps _ => by
    rw [hspec caps]
    exact .deep⟩

variable {f : RxCont} {cont : Option Nat} {next : List RxNode} {n : RxNode} {done : Nat}

theorem Post.unpush
    (h : Post G len top spec { S with cont := S.cont ++ [f] } true S') : Post G len top spec S true S' :=
  ⟨h.sound, h.steps, h.total, (List.prefix_append _ _).trans h.kept, fun hb => (by cases hb), h.does⟩

theorem Post.popped
    (h : Post G len top spec { S with cont := S.cont ++ [f] } false S') :
    Post G len top spec S false { S' with cont := S'.cont.take S.cont.length } := by
  have hcont : S'.cont.take S.cont.length = S.cont := by rw [h.dropped rfl, List.take_left]
  refine ⟨h.sound.cut (List.take_prefix _ _), h.steps, h.total, by simp [hcont], fun _ => hcont, fun hw caps hcaps => ?_⟩
  have hdoes := h.does ⟨hw.1, hw.2⟩ caps hcaps
  exact ⟨hdoes.missed, hdoes.found⟩

theorem meaning_pushed (T : Reading) (pool : List RxCont) (f : RxCont) :
    meaning T (pool ++ [f]) (some pool.length) = frameMeaning T f (meaning T pool f.parent) := by
  rw [meaning_some T (f := f) (by simp), List.take_left]

theorem rooted_pushed (pool : List RxCont) (f : RxCont) :
    rooted (pool ++ [f]) (some pool.length) = (f.place.isSome && rooted pool f.parent) := by
  rw [rooted_some (f := f) (by simp), List.take_left]

theorem past_pushed (len : Nat) (pool : List RxCont) (f : RxCont) (pos : Nat)
    (h : ∀ p, f.place = some p → Moved len p pos) : Past len (pool ++ [f]) (some pool.length) pos := by
  intro i hi
  obtain rfl : pool.length = i := by simpa using hi
  exact ⟨f, by simp, h⟩

/-! ### Going on with what is behind -/

theorem frame_parent {c : Nat} {place : Nat} (hsound : Sound G R.len S.cont)
    (hf : S.cont[c]? = some f) (hplace : f.place = some place) (hmoved : Moved R.len place pos) :
    Past R.len S.cont f.parent pos ∧
      meaning (pooled R) (S.cont.take c) f.parent = meaning (pooled R) S.cont f.parent ∧
      rooted (S.cont.take c) f.parent = rooted S.cont f.parent ∧
      (RxTask.contDo f.parent pos).cost < c + 2 := by
  have hpast := (hsound.back c f hf).2 place hplace
  have hgrow : S.cont.take c <+: S.cont := List.take_prefix _ _
  refine ⟨(hpast.grow hgrow).moved hmoved, (meaning_grow _ hpast hgrow).symm, (rooted_grow hpast hgrow).symm, ?_⟩
  cases hparent : f.parent with
  | none => simp [RxTask.cost]
  | some i =>
    obtain ⟨g, hg, -⟩ := hpast i hparent
    obtain ⟨hi, -⟩ := List.getElem?_eq_some_iff.mp hg
    rw [List.length_take] at hi
    simp only [RxTask.cost]
    omega

theorem rxContDo_acts (hsound : Sound G R.len S.cont)
    (hpast : Past R.len S.cont cont pos)
    (hcall : Serves G R call S.steps (RxTask.contDo cont pos).cost) :
    Acts G R.len (rooted S.cont cont) (meaning (pooled R) S.cont cont S.cont.length pos) (rxContDo call cont pos) S := by
  cases cont with
  | none =>
    refine ⟨true, { S with fin := some pos }, rfl, hsound, le_rfl, le_rfl, List.prefix_rfl, fun hb => (by cases hb),
      fun _ caps hcaps => ?_⟩
    rw [meaning_none]
    exact .of_found hcaps fun _ => rfl
  | some c =>
    obtain ⟨f, hf, hmoved⟩ := hpast c rfl
    rw [meaning_some _ hf, rooted_some hf]
    cases f with
    | lookEnd place =>
      have hrun : rxContDo call (some c) pos S =
          (pure (decide (place = none ∨ place = some pos)) : RxM Bool) S := by
        simp [rxContDo, rxBind, rxGet, hf]
      simp only [Acts, hrun]
      rcases em (place = none ∨ place = some pos) with h | h
      · rw [decide_eq_true h]
        refine ⟨true, S, rfl, hsound, le_rfl, le_rfl, List.prefix_rfl, fun hb => (by cases hb), fun _ caps hcaps => ?_⟩
        simp only [frameMeaning, if_pos h]
        exact .of_found hcaps fun ht => by cases ht
      · rw [decide_eq_false h]
        exact Acts.stop hsound fun caps _ => if_neg h
    | close cap parent place =>
      obtain ⟨hparent, hmean, hroot, hcost⟩ := frame_parent hsound hf rfl (hmoved place rfl)
      simp only [RxCont.parent] at hparent hmean hroot hcost
      simp only [RxCont.place, RxCont.parent, frameMeaning, Option.isSome_some, Bool.true_and, hmean, hroot]
      obtain ⟨b, S', hrun, hpost⟩ := hcall (.contDo parent pos)
        { S with caps := S.caps.set cap (some (place, pos)) } (le_refl _) hcost hsound hparent
      have hclose : rxContDo call (some c) pos S =
          some (b, if b = true then S' else { S' with caps := S'.caps.set cap (S.caps.getD cap none) }) := by
        simp only [rxContDo, rxBind, rxGet, hf, rxSetCap, rxModify, Option.bind_some, hrun]
        cases b <;> rfl
      have hdoes := fun hw caps (hcaps : Agree G S.caps caps) =>
        hpost.does hw (caps.set cap (some (place, pos))) (hcaps.set _ _)
      cases b with
      | true =>
        refine ⟨true, S', hclose, hpost.sound, hpost.steps, hpost.total, hpost.kept, fun hb => (by cases hb),
          fun hw caps hcaps => ⟨fun hm => ?_, (hdoes hw caps hcaps).found⟩⟩
        cases ((hdoes hw caps hcaps).missed hm).1
      | false =>
        refine ⟨false, _, hclose, hpost.sound, hpost.steps, hpost.total, hpost.kept, hpost.dropped,
          fun hw caps hcaps => ⟨fun hm => ⟨rfl, ?_⟩, fun e c hf => ?_⟩⟩
        · exact ((hdoes ⟨hw.1, hw.2⟩ caps hcaps).missed hm).2.restore hcaps
        · cases ((hdoes ⟨hw.1, hw.2⟩ caps hcaps).found e c hf).1
    | rep n next parent rep place =>
      obtain ⟨hparent, hmean, hroot, -⟩ := frame_parent hsound hf rfl (hmoved place rfl)
      obtain ⟨hproper, -⟩ := hsound.back c _ hf
      simp only [RxCont.parent] at hparent hmean hroot
      simp only [RxCont.place, RxCont.parent, frameMeaning, Option.isSome_some, Bool.true_and, hmean, hroot]
      have hrun : rxContDo call (some c) pos S =
          (if pos = place ∧ rep > n.quant.min then pure false else call (.rep n next pos parent rep)) S := by
        simp only [rxContDo, rxBind, rxGet, Option.bind_some, hf]
      have hmove := hmoved place rfl
      simp only [Acts, hrun]
      split
      · rename_i hstuck
        exact Acts.stop hsound fun caps _ => if_pos ⟨hstuck.2, by omega⟩
      · rename_i hgo
        have hspec : ¬ (n.quant.min < rep ∧ ¬ (place < pos ∧ place < R.len)) := by
          rintro ⟨hrep, hstuck⟩
          obtain ⟨hle, hlt⟩ := hmove
          exact hgo ⟨by omega, hrep⟩
        have := hcall (.rep n next pos parent rep) S (le_refl _) (by simp [RxTask.cost]) hsound
          ⟨.inl hproper.1, hproper.2.1, hproper.2.2, hparent⟩
        exact this.congr fun caps _ => (if_neg hspec).symm

/-! ### Lists -/

theorem rxRun_acts {n : List RxNode} (hsound : Sound G R.len S.cont)
    (hvalid : (RxTask.run n pos cont).Valid G R.len S.cont)
    (hcall : Serves G R call S.steps (RxTask.run n pos cont).cost) :
    Acts G R.len (rooted S.cont cont) (matchSeq (pooled R) n (meaning (pooled R) S.cont cont) S.cont.length pos)
      (rxRun call n pos cont) S := by
  cases n with
  | nil =>
    have hcost : (RxTask.contDo cont pos).cost < RX_CONTS + 3 := (contDo_cost hvalid.2 hsound).trans (by omega)
    exact hcall (.contDo cont pos) S (le_refl _) hcost hsound hvalid.2
  | cons n next =>
    exact hcall (.rep n next pos cont 0) S (le_refl _) (by simp [RxTask.cost, RX_CONTS]) hsound
      ⟨.inr rfl, hvalid.1.1, hvalid.1.2, hvalid.2⟩

/-! ### Groups -/

theorem rxGroupAlts_drop (cap : Option Nat) (pos : Nat) (cont : Option Nat) (save : Nat)
    (alt : List (List RxNode)) (S : RxState) :
    rxGroupAlts call cap pos cont save alt S =
      rxGroupAlts call cap pos cont save alt { S with cont := S.cont.take save } := by
  cases alt <;>
    simp [rxGroupAlts, rxBind, rxDropTo, rxModify, List.take_take]

theorem rxGroupAlts_acts {cap : Option Nat} (h : Ready G R call steps S)
    (hpast : Past R.len S.cont cont pos) (hproper : AltsProper G alt)
    (hroom : S.cont.length + cap.toList.length ≤ RX_CONTS) :
    Acts G R.len (rooted S.cont cont)
      (matchAlts (pooled R) alt (closing cap pos (meaning (pooled R) S.cont cont)) (S.cont.length + cap.toList.length) pos)
      (rxGroupAlts call cap pos cont S.cont.length alt) S := by
  induction alt generalizing S with
  | nil =>
    refine Acts.run ?_ (Acts.stop h.sound fun _ _ => rfl)
    simp [rxGroupAlts, rxBind, rxDropTo, rxModify]
  | cons a alt ih =>
    have hrest : ∀ S', Later G R.len S S' → Acts G R.len (rooted S.cont cont)
        (matchAlts (pooled R) alt (closing cap pos (meaning (pooled R) S.cont cont))
          (S.cont.length + cap.toList.length) pos)
        (rxGroupAlts call cap pos cont S.cont.length alt) S' := fun S' hlater => by
      have := ih (h.later hlater) (by rw [hlater.cont]; exact hpast) hproper.2 (by rw [hlater.cont]; exact hroom)
      rwa [hlater.cont] at this
    have hdrop : ({ S with cont := S.cont.take S.cont.length } : RxState) = S := by simp
    cases cap with
    | none =>
      have hrun : rxGroupAlts call none pos cont S.cont.length (a :: alt) S =
          (call (.run a pos cont) >>= fun x => if x = true then pure true
            else rxGroupAlts call none pos cont S.cont.length alt) S := by
        rw [rxGroupAlts]
        simp only [rxBind, rxDropTo, rxModify, Option.bind_some, hdrop]
      have hfirst := h.call (.run a pos cont) S h.late (by simp [RxTask.cost]) h.sound ⟨hproper.1, hpast⟩
      exact (hfirst.orElse hrest).run hrun
    | some g =>
      have hlt : S.cont.length < RX_CONTS := hroom
      have hrun : rxGroupAlts call (some g) pos cont S.cont.length (a :: alt) S =
          (call (.run a pos (some S.cont.length)) >>= fun x => if x = true then pure true
            else rxGroupAlts call (some g) pos cont S.cont.length alt)
            { S with cont := S.cont ++ [.close g cont pos] } := by
        rw [rxGroupAlts]
        simp only [rxBind, rxDropTo, rxModify, Option.bind_some, hdrop, rxPush_room _ hlt]
      have hplace : ∀ p, (RxCont.close g cont pos).place = some p → Past R.len S.cont cont p := fun p hp => by
        obtain rfl : pos = p := by simpa [RxCont.place] using hp
        exact hpast
      have hpush := h.sound.push (.close g cont pos) trivial hlt hplace
      have hhere : Past R.len (S.cont ++ [.close g cont pos]) (some S.cont.length) pos :=
        past_pushed _ _ _ _ fun p hp => by
          obtain rfl : pos = p := by simpa [RxCont.place] using hp
          exact .refl _ _
      obtain ⟨b, S', hrun', hpost⟩ := h.call (.run a pos (some S.cont.length))
        { S with cont := S.cont ++ [.close g cont pos] } h.late (by simp [RxTask.cost]) hpush ⟨hproper.1, hhere⟩
      simp only [RxTask.means, RxTask.behind, meaning_pushed, rooted_pushed, List.length_append,
        List.length_singleton] at hpost
      rw [Acts, hrun]
      simp only [rxBind, hrun', Option.bind_some]
      cases b with
      | true =>
        have hpost := hpost.unpush
        exact ⟨true, S', rfl, hpost.sound, hpost.steps, hpost.total, hpost.kept, hpost.dropped,
          fun hw caps hcaps => (hpost.does hw caps hcaps).orLeft⟩
      | false =>
        have hpost := hpost.popped
        obtain ⟨b, S₂, hrun₂, hpost₂⟩ := hrest _ hpost.later
        rw [← rxGroupAlts_drop] at hrun₂
        exact ⟨b, S₂, by simpa using hrun₂, hpost₂.after hpost.later fun hw caps hcaps =>
          (hpost.does (hpost₂.within hw) caps hcaps).orRight (hpost₂.does hw caps)⟩

theorem rxGroupAlts_full (hroom : RX_CONTS ≤ S.cont.length) :
    rxGroupAlts call (some g) pos cont S.cont.length alt S = some (false, S) := by
  have hdrop : ({ S with cont := S.cont.take S.cont.length } : RxState) = S := by simp
  cases alt with
  | nil => simp only [rxGroupAlts, rxBind, rxDropTo, rxModify, rxPure, Option.bind_some, hdrop]
  | cons a alt =>
    rw [rxGroupAlts]
    simp only [rxBind, rxDropTo, rxModify, rxPure, Option.bind_some, hdrop, rxPush_full _ hroom]

/-! ### Lookarounds -/

theorem rxLookAlts_acts {f : Nat} (h : Ready G R call steps S) (hf : S.cont.length = f + 1)
    (hpast : Past R.len S.cont (some f) pos) (hproper : AltsProper G alt) :
    Acts G R.len (rooted S.cont (some f))
      (matchAlts (pooled R) alt (meaning (pooled R) S.cont (some f)) S.cont.length pos)
      (rxLookAlts call pos f alt) S := by
  induction alt generalizing S with
  | nil => exact Acts.stop h.sound fun _ _ => rfl
  | cons a alt ih =>
    have hrun : rxLookAlts call pos f (a :: alt) S =
        (call (.run a pos (some f)) >>= fun x => if x = true then pure true else rxLookAlts call pos f alt) S := by
      have hdrop : ({ S with cont := S.cont.take (f + 1) } : RxState) = S := by simp [← hf]
      rw [rxLookAlts]
      simp only [rxBind, rxDropTo, rxModify, Option.bind_some, hdrop]
    have hfirst := h.call (.run a pos (some f)) S h.late (by simp [RxTask.cost]) h.sound ⟨hproper.1, hpast⟩
    refine (hfirst.orElse fun S' hlater => ?_).run hrun
    have := ih (h.later hlater) (by rw [hlater.cont]; exact hf) (by rw [hlater.cont]; exact hpast) hproper.2
    rwa [hlater.cont] at this

theorem rxLookPlaces_acts {f : Nat} (h : Ready G R call steps S) (hf : S.cont.length = f + 1)
    (hpast : ∀ pos, Past R.len S.cont (some f) pos) (hproper : AltsProper G alt) :
    Acts G R.len (rooted S.cont (some f))
      (fun caps => firstOf l fun pos =>
        matchAlts (pooled R) alt (meaning (pooled R) S.cont (some f)) S.cont.length pos caps)
      (rxLookPlaces call f alt l) S := by
  induction l generalizing S with
  | nil => exact Acts.stop h.sound fun _ _ => rfl
  | cons k ks ih =>
    have hfirst := rxLookAlts_acts h hf (hpast k) hproper
    refine hfirst.orElse fun S' hlater => ?_
    have := ih (h.later hlater) (by rw [hlater.cont]; exact hf) (by rw [hlater.cont]; exact hpast)
    rwa [hlater.cont] at this

theorem lookEnd_meaning (T : Reading) (pool : List RxCont) (behind : Bool) (pos : Nat) :
    meaning T (pool ++ [.lookEnd (if behind then some pos else none)]) (some pool.length) =
      lookDone behind pos := by
  rw [meaning_pushed]
  funext frames e caps
  cases behind <;> simp [frameMeaning, lookDone, eq_comm, ite_not]

def lookFound (T : Reading) (behind : Bool) (alt : List (List RxNode)) (wmin wmax : Int) (frames pos : Nat)
    (caps : Caps) : Outcome :=
  firstOf (if behind then T.places wmin wmax pos else [pos]) fun p => matchAlts T alt (lookDone behind pos) frames p caps

theorem matchNode_look (T : Reading) (neg behind : Bool) (alt : List (List RxNode)) (wmin wmax : Int) (k : Onward)
    (frames pos : Nat) (caps : Caps) :
    matchNode T (.look neg behind alt wmin wmax) k frames pos caps =
      if T.fits (frames + 1) then
        lookNext neg (k frames pos) caps (lookFound T behind alt wmin wmax (frames + 1) pos caps)
      else .deep := by
  rw [matchNode]
  rfl

theorem lookFound_agree {behind : Bool}
    (h : lookFound T behind alt wmin wmax frames pos caps = .found e caps')
    (hG : ∀ g ∈ altsGroups alt, G g) : Agree G caps' caps := by
  obtain ⟨p, -, hp⟩ := firstOf_found h
  obtain ⟨f, e', c, hdone, hgoes⟩ := alts_through T alt _ _ _ _ _ _ hp
  obtain ⟨-, rfl, -⟩ := lookDone_found hdone
  exact hgoes.agree.mono hG

theorem rxLook_acts {neg behind : Bool} (h : Ready G R call steps S) (hpast : Past R.len S.cont cont pos)
    (hproper : (RxNode.look neg behind alt wmin wmax).Proper G) :
    Acts G R.len (rooted S.cont cont)
      (matchNode (pooled R) (.look neg behind alt wmin wmax) (meaning (pooled R) S.cont cont) S.cont.length pos)
      (rxLook call neg behind alt wmin wmax pos cont) S := by
  obtain ⟨hgroups, hproper⟩ := hproper
  have hsound := h.sound
  rcases Nat.lt_or_ge S.cont.length RX_CONTS with hroom | hroom
  · have hspec : matchNode (pooled R) (.look neg behind alt wmin wmax) (meaning (pooled R) S.cont cont) S.cont.length pos =
        fun caps => lookNext neg (meaning (pooled R) S.cont cont S.cont.length pos) caps
          (lookFound (pooled R) behind alt wmin wmax (S.cont.length + 1) pos caps) :=
      funext fun caps => by rw [matchNode_look, if_pos (fits_room hroom)]
    rw [hspec]
    have hpush := hsound.push (.lookEnd (if behind then some pos else none)) trivial hroom fun p hp => by
      simp [RxCont.place] at hp
    obtain ⟨m, S₂, hrun₂, hpost₂⟩ := rxLookPlaces_acts
      (l := if behind then (pooled R).places wmin wmax pos else [pos])
      (S := { S with cont := S.cont ++ [.lookEnd (if behind then some pos else none)] }) ⟨hpush, h.late, h.call⟩
      (by simp)
      (fun p => past_pushed _ _ _ _ fun q hq => by simp [RxCont.place] at hq) hproper
    rw [lookEnd_meaning, List.length_append, List.length_singleton] at hpost₂
    have hfound : S₂.Within → ∀ caps, Agree G S.caps caps →
        Answers G _ caps m S₂ (lookFound (pooled R) behind alt wmin wmax (S.cont.length + 1) pos caps) := hpost₂.does
    have hcont : S₂.cont.take S.cont.length = S.cont := by
      obtain ⟨rest, hrest⟩ := hpost₂.kept
      rw [← hrest, List.append_assoc, List.take_left]
    cases neg with
    | true =>
      have hlater : Later G R.len S { S₂ with cont := S.cont, caps := S.caps } := ⟨hsound, hpost₂.steps, hpost₂.total, rfl⟩
      have hrun : rxLook call true behind alt wmin wmax pos cont S =
          (if m = true then pure false else call (.contDo cont pos)) { S₂ with cont := S.cont, caps := S.caps } := by
        simp only [rxLook, rxBind, rxGet, Option.bind_some, rxPush_room _ hroom, rxDropTo, rxModify, if_true]
        erw [hrun₂]
        simp only [Option.bind_some, hcont]
      rw [Acts, hrun]
      cases m with
      | true =>
        refine ⟨false, _, rfl, .stop hlater fun hw caps hcaps => ?_⟩
        have hdoes := hfound ⟨hw.1, hw.2⟩ caps hcaps
        cases hlook : lookFound (pooled R) behind alt wmin wmax (S.cont.length + 1) pos caps with
        | missed => cases (hdoes.missed hlook).1
        | found => exact .of_missed hcaps
        | deep => exact .deep
      | false =>
        obtain ⟨b, S', hrun', hpost⟩ := h.call.later hlater (h.later hlater).late
          ((contDo_cost hpast hsound).trans (by omega)) hpast
        refine ⟨b, S', hrun', hpost.after hlater fun hw caps hcaps => ?_⟩
        have hw₂ := hpost.within hw
        have hdoes := hfound ⟨hw₂.1, hw₂.2⟩ caps hcaps
        cases hlook : lookFound (pooled R) behind alt wmin wmax (S.cont.length + 1) pos caps with
        | missed => exact hpost.does hw caps hcaps
        | found e c => cases (hdoes.found e c hlook).1
        | deep => exact .deep
    | false =>
      have hlater : Later G R.len S { S₂ with cont := S.cont } := ⟨hsound, hpost₂.steps, hpost₂.total, rfl⟩
      have hrun : rxLook call false behind alt wmin wmax pos cont S =
          (if m = true then call (.contDo cont pos) else pure false) { S₂ with cont := S.cont } := by
        simp only [rxLook, rxBind, rxGet, Option.bind_some, rxPush_room _ hroom, rxDropTo, rxModify,
          Bool.false_eq_true, if_false]
        erw [hrun₂]
        simp only [Option.bind_some, hcont]
      rw [Acts, hrun]
      cases m with
      | true =>
        obtain ⟨b, S', hrun', hpost⟩ := h.call.later hlater (h.later hlater).late
          ((contDo_cost hpast hsound).trans (by omega)) hpast
        refine ⟨b, S', hrun', hpost.after hlater fun hw caps hcaps => ?_⟩
        have hw₂ := hpost.within hw
        have hdoes := hfound ⟨hw₂.1, hw₂.2⟩ caps hcaps
        cases hlook : lookFound (pooled R) behind alt wmin wmax (S.cont.length + 1) pos caps with
        | missed => cases (hdoes.missed hlook).1
        | found e c =>
          -- What the lookaround caught is its own groups', which are not asked for.
          have hdone := hpost.does hw c (hdoes.found e c hlook).2.1
          have hsame := lookFound_agree hlook (hgroups rfl)
          exact ⟨fun hm => ⟨(hdone.missed hm).1, (hdone.missed hm).2.trans hsame⟩, hdone.found⟩
        | deep => exact .deep
      | false =>
        refine ⟨false, _, rfl, .stop hlater fun hw caps hcaps => ?_⟩
        have hdoes := hfound ⟨hw.1, hw.2⟩ caps hcaps
        cases hlook : lookFound (pooled R) behind alt wmin wmax (S.cont.length + 1) pos caps with
        | missed => exact .of_missed (hdoes.missed hlook).2
        | found e c => cases (hdoes.found e c hlook).1
        | deep => exact .deep
  · refine Acts.deep hsound ?_ fun caps => by
      rw [matchNode_look, fits_full hroom, if_neg Bool.false_ne_true]
    simp only [rxLook, rxBind, rxGet, rxPure, Option.bind_some, rxPush_full _ hroom]

/-! ### One character repeated -/

theorem tryCounted_acts {spec : Nat → Caps → Outcome} {next : Int → RxM Bool}
    (hsound : Sound G R.len S.cont)
    (hnext : ∀ p ∈ l, ∀ S', Later G R.len S S' → Acts G R.len top (spec p) (next p) S') :
    Acts G R.len top (fun caps => firstOf l fun p => spec p caps) (tryCounted next rxBudget l) S := by
  induction l generalizing S with
  | nil => exact Acts.stop hsound fun _ _ => rfl
  | cons p l ih =>
    refine (hnext p List.mem_cons_self S (.refl hsound)).orElse fun S' hlater =>
      Acts.budget hlater.sound fun S₂ hlater₂ _ _ _ => ih hlater₂.sound fun p hp S₃ hlater₃ => ?_
    exact hnext p (List.mem_cons_of_mem _ hp) S₃ ((hlater.trans hlater₂).trans hlater₃)

theorem firstOf_append (l l' : List Nat) (o : Nat → Outcome) : firstOf (l ++ l') o = (firstOf l o).or (firstOf l' o) := by
  induction l with
  | nil => rfl
  | cons p l ih =>
    change (o p).or (firstOf (l ++ l') o) = ((o p).or (firstOf l o)).or _
    rw [ih, Outcome.or_assoc]

theorem here_firstOf (q : RxQuant) (done pos : Nat) (o : Nat → Outcome) :
    firstOf (q.here done pos) o = if q.min ≤ done then o pos else .missed := by
  unfold RxQuant.here
  split
  · exact (o pos).or_missed
  · rfl

theorem order_firstOf (q : RxQuant) (done pos : Nat) (l : List Nat) (o : Nat → Outcome) :
    firstOf (q.order (q.here done pos ++ l)) o =
      if q.greedy then (firstOf (q.order l) o).or (if q.min ≤ done then o pos else .missed)
      else (if q.min ≤ done then o pos else .missed).or (firstOf (q.order l) o) := by
  have hrev : (q.here done pos).reverse = q.here done pos := by
    unfold RxQuant.here
    split <;> rfl
  unfold RxQuant.order
  cases q.greedy
  · simp [firstOf_append, here_firstOf]
  · simp [firstOf_append, here_firstOf, hrev]

theorem repeat_single (R : RxEnv) (x : RxSingle) (q : RxQuant) (k : Onward) (caps : Caps)
    (hframes : frames ≤ RX_CONTS) (h : Walk (rxOne R x) pos l) (done : Nat) :
    repeatMatcher (pooled R) q 0 (matchNode (pooled R) (.single x q)) (clearGroups []) k done frames pos caps =
      firstOf (q.order ((q.upTo done l).drop (q.min.toNat - done))) fun p => k frames p caps := by
  have hfits : (pooled R).fits (frames + 0) = true := (pooled_fits R frames).mpr hframes
  have hone : (pooled R).one = rxOne R := rfl
  induction h generalizing done with
  | @stop pos h0 =>
    have hnil : ∀ max done, (q.upTo done ([] : List Nat)).drop max = [] := by
      intro max done
      unfold RxQuant.upTo
      split <;> simp
    have hturn : ∀ k' : Onward, matchNode (pooled R) (.single x q) k' (frames + 0) pos (clearGroups [] caps) = .missed :=
      fun k' => by rw [matchNode_single, hone, if_pos h0]
    rw [repeatMatcher, drop_turns, order_firstOf]
    simp only [hfits, if_true, hturn]
    cases q.more done <;> simp [hnil, RxQuant.order, firstOf]
  | @step pos l hstep _ ih =>
    have hlt := (rxOne_charLen R x pos hstep).1
    have hgo : ¬ (q.min ≤ done ∧ ¬ (pos < pos + rxOne R x pos ∧ pos < (pooled R).len)) := by
      have : (pooled R).len = R.len := rfl
      omega
    have hturn : ∀ k' : Onward, matchNode (pooled R) (.single x q) k' (frames + 0) pos (clearGroups [] caps) =
        k' frames (pos + rxOne R x pos) caps := fun k' => by
      rw [matchNode_single, hone, if_neg hstep]
      rfl
    rw [repeatMatcher, drop_turns, order_firstOf]
    simp only [hfits, if_true, hturn, dif_neg hgo, ih]
    cases q.more done <;> simp [RxQuant.order, firstOf]

theorem rxRepSingle_acts {x : RxSingle} (h : Ready G R call steps S) (hq : q.Proper)
    (hnext : SeqProper G next) (hpast : Past R.len S.cont cont pos) :
    Acts G R.len (rooted S.cont cont)
      (repeatMatcher (pooled R) q 0 (matchNode (pooled R) (.single x q)) (clearGroups [])
        (matchSeq (pooled R) next (meaning (pooled R) S.cont cont)) 0 S.cont.length pos)
      (rxRepSingle R x q (rxFrom call next cont) rxBudget pos) S := by
  obtain ⟨l, hl⟩ := walk_exists R x pos
  have hbounds : if q.greedy then 0 ≤ q.min else q.max < 0 ∨ q.min ≤ q.max := by
    split
    · exact hq.min
    · exact hq.max
  rw [rxRepSingle_order R x q hbounds _ _ hl]
  refine (tryCounted_acts h.sound fun p hp S' hlater => ?_).congr fun caps _ =>
    (repeat_single R x q _ caps h.sound.room hl 0).symm
  have hmem : p ∈ l := order_places q (fun p hp => upTo_subset q 0 l p (List.mem_of_mem_drop hp)) hp
  have hvalid : (RxTask.run next p cont).Valid G R.len S.cont := ⟨hnext, hpast.moved (walk_moved R x hl p hmem)⟩
  exact h.call.later hlater (h.later hlater).late (hvalid.cost_lt h.sound) hvalid

/-! ### Nodes -/

theorem contDo_moved {n : Nat} (h : Ready G R call steps S) (hpast : Past R.len S.cont cont pos)
    (hmoved : n = 0 ∨ pos < R.len) :
    Acts G R.len (rooted S.cont cont) (meaning (pooled R) S.cont cont S.cont.length (pos + n))
      (call (.contDo cont (pos + n))) S := by
  have hthere : Past R.len S.cont cont (pos + n) := hpast.moved ⟨by omega, fun h => by omega⟩
  exact h.call (.contDo cont (pos + n)) S h.late ((contDo_cost hthere h.sound).trans (by omega)) h.sound hthere

theorem contDo_if (h : Ready G R call steps S) (hpast : Past R.len S.cont cont pos) (p : Prop) [Decidable p] :
    Acts G R.len (rooted S.cont cont)
      (fun caps => if p then meaning (pooled R) S.cont cont S.cont.length pos caps else .missed)
      (if p then call (.contDo cont pos) else pure false) S := by
  by_cases hp : p
  · rw [if_pos hp]
    exact (contDo_moved h hpast (.inl rfl)).congr fun _ _ => (if_pos hp).symm
  · rw [if_neg hp]
    exact Acts.stop h.sound fun _ _ => if_neg hp

theorem rxBackLen_moved {n : Nat} (h : rxBackLen R g pos caps = some n) :
    n = 0 ∨ pos < R.len := by
  unfold rxBackLen at h
  split at h
  · left
    simpa using h.symm
  · simp only at h
    grind

theorem rxAtom_acts (hsound : Sound G R.len S.cont)
    (hvalid : (RxTask.atom n pos cont).Valid G R.len S.cont)
    (hcall : S.steps + 1 ≤ RX_STEPS → Serves G R call (S.steps + 1) (RX_CONTS + 4)) :
    Acts G R.len (rooted S.cont cont)
      (matchNode (pooled R) n (meaning (pooled R) S.cont cont) S.cont.length pos)
      (rxAtom R call n pos cont) S := by
  obtain ⟨hproper, hpast⟩ := hvalid
  unfold rxAtom
  refine Acts.budget hsound fun S₁ hlater _ hstep hroom => ?_
  have h : Ready G R call (S.steps + 1) S₁ := ⟨hlater.sound, by omega, hcall (by omega)⟩
  rw [← hlater.cont] at hpast ⊢
  cases n with
  | single x q =>
    rcases eq_or_ne (rxOne R x pos) 0 with h0 | h0
    · simp only [if_pos h0]
      exact Acts.stop h.sound fun _ _ => if_pos h0
    · simp only [if_neg h0]
      exact (contDo_moved h hpast (.inr (rxOne_charLen R x pos h0).1)).congr
        fun _ _ => (if_neg h0).symm
  | bol =>
    simp only [← ite_or]
    exact (contDo_if h hpast _).congr fun _ _ => (if_congr decide_eq_true_iff rfl rfl).symm
  | eol =>
    simp only [← ite_or]
    exact (contDo_if h hpast _).congr fun _ _ => (if_congr decide_eq_true_iff rfl rfl).symm
  | wordb => exact (contDo_if h hpast _).congr fun _ _ => (if_congr bne_iff_ne rfl rfl).symm
  | nwordb =>
    refine (contDo_if h hpast (rxAtWord R (pos - 1) = rxAtWord R pos)).congr fun caps _ => ?_
    rw [matchNode, ← ite_not]
    exact if_congr (by simp [pooled, codeReading]) rfl rfl
  | backref g q =>
    have hlen : ∀ caps, Agree G S₁.caps caps → (pooled R).again g pos caps = rxBackLen R g pos S₁.caps := fun caps hcaps => by
      simp only [pooled, codeReading, rxBackLen, hcaps.same g hproper.2]
    cases hback : rxBackLen R g pos S₁.caps with
    | none =>
      refine Acts.run ?_ (Acts.stop h.sound fun caps hcaps => by rw [matchNode]; simp only [hlen caps hcaps, hback])
      simp only [rxBind, rxGet, Option.bind_some, hback]
    | some n =>
      refine Acts.run ?_ ((contDo_moved h hpast (rxBackLen_moved hback)).congr
        fun caps hcaps => by rw [matchNode]; simp only [hlen caps hcaps, hback])
      simp only [rxBind, rxGet, Option.bind_some, hback]
  | look neg behind alt wmin wmax => exact rxLook_acts h hpast hproper
  | group cap alt q =>
    by_cases hroom : S₁.cont.length + cap.toList.length ≤ RX_CONTS
    · exact (rxGroupAlts_acts h hpast hproper.2 hroom).congr fun caps _ => by
        rw [matchNode_group, if_pos ((pooled_fits R _).mpr hroom)]
    · have hone : S₁.cont.length ≤ RX_CONTS := h.sound.room
      obtain ⟨g, rfl⟩ : ∃ g, cap = some g := by
        cases cap with
        | none => exact absurd hone hroom
        | some g => exact ⟨g, rfl⟩
      have hfull : RX_CONTS < S₁.cont.length + 1 := not_le.mp hroom
      refine Acts.deep h.sound (rxGroupAlts_full (Nat.le_of_lt_succ hfull)) fun caps => ?_
      rw [matchNode_group, if_neg fun hfits => hroom ((pooled_fits R _).mp hfits)]

/-! ### Turns -/

def turnOr (q : RxQuant) (done : Nat) (again stop : Outcome) : Outcome :=
  if q.greedy then (if q.more done then again else .missed).or (if q.min ≤ done then stop else .missed)
  else (if q.min ≤ done then stop else .missed).or (if q.more done then again else .missed)

theorem rxRepTurn_acts {again next : RxM Bool}
    {spec₁ spec₂ : Caps → Outcome} (hsound : Sound G R.len S.cont)
    (hagain : ∀ S', Later G R.len S S' → Acts G R.len top spec₁ again S')
    (hnext : ∀ S', Later G R.len S S' → Acts G R.len top spec₂ next S') :
    Acts G R.len top (fun caps => turnOr q done (spec₁ caps) (spec₂ caps)) (rxRepTurn q done again next) S := by
  have hstop : ∀ S', Later G R.len S S' → Acts G R.len top (fun _ => .missed) (pure false) S' := fun S' hlater =>
    Acts.stop hlater.sound fun _ _ => rfl
  have hlast : ∀ {spec : Caps → Outcome} {act : RxM Bool} {S' : RxState}, Later G R.len S S' →
      (∀ S', Later G R.len S S' → Acts G R.len top spec act S') →
      Acts G R.len top spec (act >>= fun x => if x = true then pure true else pure false) S' :=
    fun hlater h => ((h _ hlater).orElse fun S₂ hlater₂ => hstop S₂ (hlater.trans hlater₂)).congr (by simp)
  unfold rxRepTurn turnOr
  rcases hg : q.greedy with _ | _ <;> rcases hm : q.more done with _ | _ <;>
    rcases em (q.min ≤ done) with hd | hd <;>
    simp only [hd, if_true, if_false, and_false, and_true, Bool.false_eq_true, reduceCtorEq, Outcome.missed_or,
      Outcome.or_missed]
  · exact hlast (.refl hsound) hnext
  · exact hstop S (.refl hsound)
  · exact (hnext S (.refl hsound)).orElse fun S' hlater => hlast hlater hagain
  · exact hlast (.refl hsound) hagain
  · exact hlast (.refl hsound) hnext
  · exact hstop S (.refl hsound)
  · exact (hagain S (.refl hsound)).orElse fun S' hlater => hlast hlater hnext
  · exact hlast (.refl hsound) hagain

/-- What one more turn makes of what comes after it, when there is room for its frame. -/
def turnMeaning (T : Reading) (n : RxNode) (next : List RxNode) (cont : Option Nat) (done pos : Nat) (k : Onward)
    (frames : Nat) (caps : Caps) : Outcome :=
  if T.fits (frames + 1) then
    matchNode T n (frameMeaning T (.rep n next cont (done + 1) pos) k) (frames + 1) pos caps
  else .deep

theorem repeat_turns (T : Reading) (q : RxQuant) (w : Nat) (m : Onward → Onward) (clear : Caps → Caps) (k : Onward)
    (done frames pos : Nat) (caps : Caps) :
    repeatMatcher T q w m clear k done frames pos caps = turnOr q done
      (if T.fits (frames + w) then
        m (fun frames' pos' caps' => if _ : q.min ≤ done ∧ ¬ (pos < pos' ∧ pos < T.len) then .missed
          else repeatMatcher T q w m clear k (done + 1) frames' pos' caps') (frames + w) pos (clear caps)
      else .deep) (k frames pos caps) := by
  rw [repeatMatcher]
  rfl

theorem repeat_turn (next : List RxNode) (n : RxNode) (hn : n.frames = 1) (k : Onward) (cont : Option Nat)
    (done frames pos : Nat) (caps : Caps) :
    repeatMatcher (pooled R) n.quant n.frames (matchNode (pooled R) n) (clearGroups [])
        (matchSeq (pooled R) next k) done frames pos caps =
      turnOr n.quant done (turnMeaning (pooled R) n next cont done pos k frames caps)
        (matchSeq (pooled R) next k frames pos caps) := by
  have hlast : n.quant.min < (done + 1 : Nat) ↔ n.quant.min ≤ done := by omega
  rw [repeat_turns, turnMeaning, hn]
  simp only [frameMeaning, hlast, dite_eq_ite, hn]
  rfl

theorem rxAgain_acts (h : Ready G R call steps S) (hn : n.frames = 1) (hproper : n.Proper G)
    (hnext : SeqProper G next) (hpast : Past R.len S.cont cont pos) :
    Acts G R.len (rooted S.cont cont)
      (turnMeaning (pooled R) n next cont done pos (meaning (pooled R) S.cont cont) S.cont.length)
      (rxAgain call n next pos cont done) S := by
  rcases Nat.lt_or_ge S.cont.length RX_CONTS with hroom | hroom
  · have hplace : ∀ p, (RxCont.rep n next cont (done + 1) pos).place = some p → Past R.len S.cont cont p :=
      fun p hp => by
        obtain rfl : pos = p := by simpa [RxCont.place] using hp
        exact hpast
    have hpush := h.sound.push (.rep n next cont (done + 1) pos) ⟨hn, hproper, hnext⟩ hroom hplace
    have hhere : Past R.len (S.cont ++ [.rep n next cont (done + 1) pos]) (some S.cont.length) pos :=
      past_pushed _ _ _ _ fun p hp => by
        obtain rfl : pos = p := by simpa [RxCont.place] using hp
        exact .refl _ _
    obtain ⟨b, S', hrun', hpost⟩ := h.call (.atom n pos (some S.cont.length))
      { S with cont := S.cont ++ [.rep n next cont (done + 1) pos] } h.late (by simp [RxTask.cost, RX_CONTS]) hpush
      ⟨hproper, hhere⟩
    simp only [RxTask.means, RxTask.behind, meaning_pushed, rooted_pushed, List.length_append,
      List.length_singleton] at hpost
    have hrun : rxAgain call n next pos cont done S =
        some (b, if b = true then S' else { S' with cont := S'.cont.take S.cont.length }) := by
      simp only [rxAgain, rxBind, rxGet, Option.bind_some, rxPush_room _ hroom, hrun']
      cases b <;> rfl
    refine Acts.congr (?_ : Acts G R.len _ (fun caps => matchNode (pooled R) n (frameMeaning (pooled R)
      (.rep n next cont (done + 1) pos) (meaning (pooled R) S.cont cont)) (S.cont.length + 1) pos caps) _ S)
      fun caps _ => by rw [turnMeaning, if_pos (fits_room hroom)]
    cases b with
    | true => exact ⟨true, S', hrun, hpost.unpush⟩
    | false => exact ⟨false, _, hrun, hpost.popped⟩
  · refine Acts.deep h.sound ?_ fun caps => by rw [turnMeaning, fits_full hroom, if_neg Bool.false_ne_true]
    simp only [rxAgain, rxBind, rxGet, rxPure, Option.bind_some, rxPush_full _ hroom]

theorem rxRep_acts (hsound : Sound G R.len S.cont)
    (hvalid : (RxTask.rep n next pos cont done).Valid G R.len S.cont)
    (hcall : S.steps + 1 ≤ RX_STEPS → Serves G R call (S.steps + 1) (RX_CONTS + 4)) :
    Acts G R.len (rooted S.cont cont) ((RxTask.rep n next pos cont done).means (pooled R) S.cont)
      (rxRep R call n next pos cont done) S := by
  obtain ⟨hfirst, hproper, hnext, hpast⟩ := hvalid
  unfold rxRep
  refine Acts.budget hsound fun S₁ hlater _ hstep hroom => ?_
  have h : Ready G R call (S.steps + 1) S₁ := ⟨hlater.sound, by omega, hcall (by omega)⟩
  rw [← hlater.cont] at hpast ⊢
  have hrun : (RxTask.run next pos cont).Valid G R.len S₁.cont := ⟨hnext, hpast⟩
  have hgeneral : n.frames = 1 →
      Acts G R.len (rooted S₁.cont cont) ((RxTask.rep n next pos cont done).means (pooled R) S₁.cont)
        (rxRepTurn n.quant done (rxAgain call n next pos cont done) (call (.run next pos cont))) S₁ := fun hn => by
    refine (rxRepTurn_acts h.sound (fun S' hlater' => ?_) fun S' hlater' =>
      h.call.later hlater' (h.later hlater').late (hrun.cost_lt h.sound) hrun).congr
      fun caps _ => (repeat_turn next n hn _ cont done _ pos caps).symm
    have hagain : Acts G R.len _ _ (rxAgain call n next pos cont done) S' :=
      rxAgain_acts (h.later hlater') hn hproper hnext (by rw [hlater'.cont]; exact hpast)
    rwa [hlater'.cont] at hagain
  cases n with
  | single x q =>
    obtain rfl : done = 0 := hfirst.resolve_left Nat.zero_ne_one
    exact rxRepSingle_acts h hproper hnext hpast
  | bol => exact hgeneral rfl
  | eol => exact hgeneral rfl
  | wordb => exact hgeneral rfl
  | nwordb => exact hgeneral rfl
  | backref g q => exact hgeneral rfl
  | look neg behind alt wmin wmax => exact hgeneral rfl
  | group cap alt q => exact hgeneral rfl

end Calls

/-! ## The matcher -/

def RxTask.depth (task : RxTask) (S : RxState) : Nat := (RX_STEPS + 1 - S.steps) * (RX_CONTS + 4) + task.cost

theorem RxTask.cost_pos (task : RxTask) : 0 < task.cost := by
  rcases task with _ | _ | _ | ⟨_ | _, _⟩ <;> simp [RxTask.cost]

theorem depth_same {task' : RxTask} {S S' : RxState} (hsteps : S.steps ≤ S'.steps)
    (hcost : task'.cost < task.cost) : task'.depth S' < task.depth S := by
  have : (RX_STEPS + 1 - S'.steps) * (RX_CONTS + 4) ≤ (RX_STEPS + 1 - S.steps) * (RX_CONTS + 4) :=
    Nat.mul_le_mul_right _ (by omega)
  unfold RxTask.depth
  omega

theorem depth_step {task' : RxTask} {S S' : RxState} (hsteps : S.steps + 1 ≤ S'.steps)
    (hroom : S.steps + 1 ≤ RX_STEPS) (hcost : task'.cost < RX_CONTS + 4) : task'.depth S' < task.depth S := by
  have hleft : (RX_STEPS + 1 - S'.steps) * (RX_CONTS + 4) ≤ (RX_STEPS - S.steps) * (RX_CONTS + 4) :=
    Nat.mul_le_mul_right _ (by omega)
  have hone : (RX_STEPS + 1 - S.steps) * (RX_CONTS + 4) =
      (RX_STEPS - S.steps) * (RX_CONTS + 4) + (RX_CONTS + 4) := by
    rw [show RX_STEPS + 1 - S.steps = RX_STEPS - S.steps + 1 by omega, Nat.succ_mul]
  have := task.cost_pos
  unfold RxTask.depth
  omega

theorem rxCall_acts (R : RxEnv) (deep : Nat) (task : RxTask) (S : RxState) (hsound : Sound G R.len S.cont)
    (hvalid : task.Valid G R.len S.cont) (hdeep : task.depth S ≤ deep) :
    Acts G R.len (rooted S.cont task.behind) (task.means (pooled R) S.cont) (rxCall R deep task) S := by
  induction deep generalizing task S with
  | zero =>
    have := task.cost_pos
    simp only [RxTask.depth] at hdeep
    omega
  | succ deep ih =>
    have hsame : Serves G R (rxCall R deep) S.steps task.cost := fun task' S' hsteps hcost hsound' hvalid' =>
      ih task' S' hsound' hvalid' (by
        have := depth_same hsteps hcost
        omega)
    have hstep : S.steps + 1 ≤ RX_STEPS → Serves G R (rxCall R deep) (S.steps + 1) (RX_CONTS + 4) :=
      fun hroom task' S' hsteps hcost hsound' hvalid' =>
        ih task' S' hsound' hvalid' (by
          have := @depth_step task task' S S' hsteps hroom hcost
          omega)
    cases task with
    | run n pos cont => exact rxRun_acts hsound hvalid hsame
    | rep n next pos cont done => exact rxRep_acts hsound hvalid hstep
    | atom n pos cont => exact rxAtom_acts hsound hvalid hstep
    | contDo cont pos => exact rxContDo_acts hsound hvalid hsame

end Zelr.Js
