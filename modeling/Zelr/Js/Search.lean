import Zelr.Js.Machine

/-!
# Searching

A search that keeps within its steps and the frames of its pool finds what the textbook finds: to the code's reading
of a pattern, and so to the standard's, but that a turn of a repetition starts with what the last one caught.
-/

namespace Zelr.Js

variable {P : Rx} {a b a' b' : Outcome} {T : Reading}

/-- The state each try of a search ends in. -/
def rxTries (P : Rx) (s : Bytes) : Nat → Nat → RxState → List RxState
  | 0, _, _ => []
  | places + 1, start, S =>
    if start > s.length then []
    else
      match rxCall (P.env s) rxDeep (.run P.root start none) (rxFresh P S) with
      | none => []
      | some (true, S) => [S]
      | some (false, S) =>
        S :: if P.sticky = true ∨ S.total > RX_SEARCH then []
          else rxTries P s places (start + if start < s.length then (rxUtf8 (s.drop start)).2 else 1) S

def rxStart : RxState := ⟨[], [], none, 0, 0⟩

/-- No step of the search was one too many. -/
def Unspent (P : Rx) (s : Bytes) (start : Nat) : Prop :=
  ∀ S ∈ rxTries P s (s.length + 1) start rxStart, S.Within

instance (P : Rx) (s : Bytes) (start : Nat) : Decidable (Unspent P s start) := inferInstanceAs (Decidable (∀ _ ∈ _, _))

/-- What a search came to is what the textbook says, but for the captures of the groups in `G`. -/
def Agrees (G : Nat → Prop) (r : Option Nat) (caps : Caps) : Outcome → Prop
  | .missed => r = none
  | .found start c => r = some start ∧ Agree G caps c
  | .deep => False

section Search
variable {G : Nat → Prop}

def Rx.Proper (G : Nat → Prop) (P : Rx) : Prop := AltsProper G P.alt

theorem root_proper (hP : P.Proper G) : SeqProper G P.root := ⟨⟨⟨by decide, .inr (by decide)⟩, hP⟩, trivial⟩

theorem try_textbook (P : Rx) (hP : P.Proper G) (s : Bytes) (start : Nat) (S : RxState) :
    ∃ b S', rxCall (P.env s) rxDeep (.run P.root start none) (rxFresh P S) = some (b, S') ∧
      (S'.Within → Answers G true (List.replicate P.ncaps none) b S' (textbookAt (pooled (P.env s)) P start)) := by
  have hsound : Sound G (P.env s).len (rxFresh P S).cont := ⟨by simp [rxFresh], fun i f hf => by simp [rxFresh] at hf⟩
  have hvalid : (RxTask.run P.root start none).Valid G (P.env s).len (rxFresh P S).cont :=
    ⟨root_proper hP, past_none _ _ _⟩
  have hdeep : (RxTask.run P.root start none).depth (rxFresh P S) ≤ rxDeep := by
    simp [RxTask.depth, RxTask.cost, rxFresh, rxDeep, RX_STEPS, RX_CONTS]
  obtain ⟨b, S', hrun, hpost⟩ := rxCall_acts (P.env s) rxDeep _ (rxFresh P S) hsound hvalid hdeep
  refine ⟨b, S', hrun, fun hw => ?_⟩
  have hdoes := hpost.does hw (List.replicate P.ncaps none) (.refl _)
  simp only [RxTask.means, RxTask.behind, rooted_none, meaning_none] at hdoes
  exact hdoes

theorem rxTry_textbook (P : Rx) (hP : P.Proper G) (s : Bytes) (places start : Nat) (S : RxState) :
    ∃ r S', rxTry P s places start S = some (r, S') ∧ ((∀ S' ∈ rxTries P s places start S, S'.Within) →
      textbookFrom (pooled (P.env s)) P s places start ≠ .deep →
        Agrees G r S'.caps (textbookFrom (pooled (P.env s)) P s places start)) := by
  induction places generalizing start S with
  | zero => exact ⟨none, S, rfl, fun _ _ => rfl⟩
  | succ places ih =>
    rw [rxTry, rxTries, textbookFrom]
    rcases Nat.lt_or_ge s.length start with hend | hend
    · exact ⟨none, S, if_pos hend, fun _ _ => by rw [if_pos hend]; rfl⟩
    rw [if_neg (not_lt.mpr hend), if_neg (not_lt.mpr hend), if_neg (not_lt.mpr hend)]
    obtain ⟨b, S', hrun, hdoes⟩ := try_textbook P hP s start S
    rw [hrun]
    cases b with
    | true =>
      refine ⟨some start, { S' with caps := S'.caps.set 0 (some (start, S'.fin.getD 0)) }, rfl, fun hw hdeep => ?_⟩
      have hdoes := hdoes (hw S' List.mem_cons_self)
      cases hat : textbookAt (pooled (P.env s)) P start with
      | missed => cases (hdoes.missed hat).1
      | deep =>
        rw [hat] at hdeep
        exact absurd rfl hdeep
      | found e c =>
        obtain ⟨-, hagree, hfin⟩ := hdoes.found e c hat
        rw [hfin rfl]
        exact ⟨rfl, hagree.set _ _⟩
    | false =>
      obtain ⟨r, S₂, hrest, hspec⟩ := ih (start + if start < s.length then (rxUtf8 (s.drop start)).2 else 1) S'
      dsimp only
      by_cases hover : P.sticky = true ∨ S'.total > RX_SEARCH
      · rw [if_pos hover, if_pos hover]
        refine ⟨none, S', rfl, fun hw hdeep => ?_⟩
        have hwithin := hw S' List.mem_cons_self
        cases hat : textbookAt (pooled (P.env s)) P start with
        | missed => exact (congrArg (Agrees G none S'.caps) (if_pos (hover.resolve_right (not_lt.mpr hwithin.total)))).mpr rfl
        | deep =>
          rw [hat] at hdeep
          exact absurd rfl hdeep
        | found e c => cases ((hdoes hwithin).found e c hat).1
      · rw [if_neg hover, if_neg hover]
        refine ⟨r, S₂, hrest, fun hw hdeep => ?_⟩
        have hwithin := hw S' List.mem_cons_self
        cases hat : textbookAt (pooled (P.env s)) P start with
        | missed =>
          rw [hat] at hdeep
          dsimp only at hdeep ⊢
          rw [if_neg fun hsticky => hover (.inl hsticky)] at hdeep ⊢
          exact hspec (fun S hS => hw S (List.mem_cons_of_mem _ hS)) hdeep
        | deep =>
          rw [hat] at hdeep
          exact absurd rfl hdeep
        | found e c => cases ((hdoes hwithin).found e c hat).1

end Search

/-! ## One reading for another -/

/-- The readings have the same characters and edges, and the second all the room there is. -/
structure Reading.Like (T T' : Reading) : Prop where
  len : T.len = T'.len
  one : T.one = T'.one
  lineStart : T.lineStart = T'.lineStart
  lineEnd : T.lineEnd = T'.lineEnd
  wordEdge : T.wordEdge = T'.wordEdge
  clears : T.clears = T'.clears
  room : T'.room = none

section Asks
variable (again behind : Prop)

mutual

/-- It asks again for what a group caught, and looks behind, only where it may. -/
def RxNode.Asks : RxNode → Prop
  | .backref _ _ => again
  | .look _ back alt _ _ => (back = true → behind) ∧ AltsAsk alt
  | .group _ alt _ => AltsAsk alt
  | _ => True

def AltsAsk : List (List RxNode) → Prop
  | [] => True
  | a :: alts => SeqAsks a ∧ AltsAsk alts

def SeqAsks : List RxNode → Prop
  | [] => True
  | n :: ns => n.Asks ∧ SeqAsks ns

end

end Asks

section Like
variable {T T' : Reading} {again behind : Prop} {k k' : Onward}

/-- Whatever the first comes to in its room, the second comes to. -/
def Carries (k k' : Onward) : Prop :=
  ∀ frames frames' pos caps, k frames pos caps ≠ .deep → k' frames' pos caps = k frames pos caps

theorem or_carried (ha : a ≠ .deep → a' = a) (hb : b ≠ .deep → b' = b) (h : a.or b ≠ .deep) :
    a'.or b' = a.or b := by
  cases a with
  | missed =>
    rw [ha (by simp)]
    exact hb h
  | found e c =>
    rw [ha (by simp)]
    rfl
  | deep => exact absurd rfl h

theorem firstOf_carried {l : List Nat} {o o' : Nat → Outcome} (h : ∀ p, o p ≠ .deep → o' p = o p)
    (hdeep : firstOf l o ≠ .deep) : firstOf l o' = firstOf l o := by
  induction l with
  | nil => rfl
  | cons p l ih => exact or_carried (h p) ih hdeep

theorem Carries.closing (hk : Carries k k') (cap : Option Nat) (pos : Nat) :
    Carries (closing cap pos k) (closing cap pos k') := by
  intro frames frames' e caps h
  rw [closing_eq] at h ⊢
  rw [closing_eq]
  exact hk _ _ _ _ h

theorem lookDone_carries (behind : Bool) (pos : Nat) : Carries (lookDone behind pos) (lookDone behind pos) :=
  fun _ _ _ _ _ => rfl

theorem end_carries : Carries (fun _ e caps => .found e caps) fun _ e caps => .found e caps := fun _ _ _ _ _ => rfl

theorem fits_all (hT : T.Like T') (frames : Nat) : T'.fits frames = true := by
  rw [Reading.fits, hT.room]
  rfl

theorem if_carried {p : Prop} [Decidable p] (ha : a ≠ .deep → a' = a) (hb : b ≠ .deep → b' = b)
    (h : (if p then a else b) ≠ .deep) : (if p then a' else b') = if p then a else b := by
  by_cases hp : p
  · rw [if_pos hp] at h ⊢
    rw [if_pos hp]
    exact ha h
  · rw [if_neg hp] at h ⊢
    rw [if_neg hp]
    exact hb h

theorem turnOr_carried {q : RxQuant} {done : Nat} (ha : a ≠ .deep → a' = a) (hb : b ≠ .deep → b' = b)
    (h : turnOr q done a b ≠ .deep) : turnOr q done a' b' = turnOr q done a b := by
  have hagain := if_carried (p := q.more done = true) ha fun (_ : Outcome.missed ≠ .deep) => rfl
  have hstop := if_carried (p := q.min ≤ done) hb fun (_ : Outcome.missed ≠ .deep) => rfl
  exact if_carried (or_carried hagain hstop) (or_carried hstop hagain) h

theorem repeat_carried (hT : T.Like T') (q : RxQuant) (w : Nat) {m m' : Onward → Onward}
    (hm : ∀ k k', Carries k k' → Carries (m k) (m' k')) (clear : Caps → Caps) (hk : Carries k k') (done : Nat) :
    Carries (repeatMatcher T q w m clear k done) (repeatMatcher T' q w m' clear k' done) := by
  intro frames frames' pos caps hdeep
  have hstep : ∀ (done frames pos : Nat) (caps : Caps),
      (∀ f p c, ¬ (q.min ≤ done ∧ ¬ (pos < p ∧ pos < T.len)) → ∀ f',
        repeatMatcher T q w m clear k (done + 1) f p c ≠ .deep →
        repeatMatcher T' q w m' clear k' (done + 1) f' p c = repeatMatcher T q w m clear k (done + 1) f p c) →
      ∀ frames', repeatMatcher T q w m clear k done frames pos caps ≠ .deep →
      repeatMatcher T' q w m' clear k' done frames' pos caps = repeatMatcher T q w m clear k done frames pos caps := by
    intro done frames pos caps ih frames' hdeep
    rw [repeat_turns] at hdeep
    rw [repeat_turns, repeat_turns]
    refine turnOr_carried (fun h => ?_) (hk frames frames' pos caps) hdeep
    rw [if_pos (fits_all hT _)]
    split at h
    · rename_i hfits
      rw [if_pos hfits]
      refine hm _ _ (fun f f' p c h => ?_) _ _ _ _ h
      rw [← hT.len]
      split at h
      · rename_i hstuck
        rw [dif_pos hstuck, dif_pos hstuck]
      · rename_i hmoved
        rw [dif_neg hmoved, dif_neg hmoved]
        exact ih f p c hmoved f' h
    · exact absurd rfl h
  induction done, frames, pos, caps using repeatMatcher.induct T q w m clear k generalizing frames' with
  | case1 done frames pos caps _ ih => exact hstep done frames pos caps (fun f p c h f' => ih f p c h f') frames' hdeep
  | case2 done frames pos caps _ ih => exact hstep done frames pos caps (fun f p c h f' => ih f p c h f') frames' hdeep

variable (hT : T.Like T') (hagain : again → T.again = T'.again) (hplaces : behind → T.places = T'.places)
include hT hagain hplaces

set_option linter.unusedSectionVars false in
mutual

theorem node_carried (n : RxNode) (h : n.Asks again behind) {k k' : Onward} (hk : Carries k k') :
    Carries (matchNode T n k) (matchNode T' n k') := by
  intro frames frames' pos caps hdeep
  cases n with
  | single x q =>
    rw [matchNode_single] at hdeep
    rw [matchNode_single, matchNode_single, ← hT.one]
    exact if_carried (fun _ => rfl) (hk _ _ _ _) hdeep
  | bol =>
    simp only [matchNode, ← hT.lineStart] at hdeep ⊢
    exact if_carried (hk _ _ _ _) (fun _ => rfl) hdeep
  | eol =>
    simp only [matchNode, ← hT.lineEnd] at hdeep ⊢
    exact if_carried (hk _ _ _ _) (fun _ => rfl) hdeep
  | wordb =>
    simp only [matchNode, ← hT.wordEdge] at hdeep ⊢
    exact if_carried (hk _ _ _ _) (fun _ => rfl) hdeep
  | nwordb =>
    simp only [matchNode, ← hT.wordEdge] at hdeep ⊢
    exact if_carried (fun _ => rfl) (hk _ _ _ _) hdeep
  | backref g q =>
    simp only [matchNode, ← hagain h] at hdeep ⊢
    cases hback : T.again g pos caps with
    | none => rfl
    | some n =>
      rw [hback] at hdeep
      exact hk _ _ _ _ hdeep
  | look neg behind alt wmin wmax =>
    obtain ⟨hbehind, halt⟩ := h
    rw [matchNode_look] at hdeep
    rw [matchNode_look, matchNode_look, if_pos (fits_all hT _)]
    split at hdeep
    · rename_i hfits
      rw [if_pos hfits]
      have hsame : (if behind then T'.places wmin wmax pos else [pos]) = if behind then T.places wmin wmax pos else [pos] := by
        split
        · rw [hplaces (hbehind ‹_›)]
        · rfl
      have hlook : lookFound T behind alt wmin wmax (frames + 1) pos caps ≠ .deep →
          lookFound T' behind alt wmin wmax (frames' + 1) pos caps = lookFound T behind alt wmin wmax (frames + 1) pos caps := by
        unfold lookFound
        rw [hsame]
        exact firstOf_carried fun p => alts_carried alt halt (lookDone_carries behind pos) _ _ _ _
      cases hfound : lookFound T behind alt wmin wmax (frames + 1) pos caps with
      | missed =>
        rw [hfound] at hdeep hlook
        rw [hlook (by simp)]
        cases neg
        · rfl
        · exact hk _ _ _ _ hdeep
      | found e c =>
        rw [hfound] at hdeep hlook
        rw [hlook (by simp)]
        cases neg
        · exact hk _ _ _ _ hdeep
        · rfl
      | deep =>
        rw [hfound] at hdeep
        exact absurd rfl hdeep
    · exact absurd rfl hdeep
  | group cap alt q =>
    rw [matchNode_group] at hdeep
    rw [matchNode_group, matchNode_group, if_pos (fits_all hT _)]
    split at hdeep
    · rename_i hfits
      rw [if_pos hfits]
      exact alts_carried alt h (hk.closing cap pos) _ _ _ _ hdeep
    · exact absurd rfl hdeep

theorem alts_carried (alt : List (List RxNode)) (h : AltsAsk again behind alt) {k k' : Onward} (hk : Carries k k') :
    Carries (matchAlts T alt k) (matchAlts T' alt k') := by
  intro frames frames' pos caps hdeep
  cases alt with
  | nil => rfl
  | cons a alt =>
    simp only [matchAlts] at hdeep ⊢
    exact or_carried (seq_carried a h.1 hk _ _ _ _) (alts_carried alt h.2 hk _ _ _ _) hdeep

theorem seq_carried (ns : List RxNode) (h : SeqAsks again behind ns) {k k' : Onward} (hk : Carries k k') :
    Carries (matchSeq T ns k) (matchSeq T' ns k') := by
  cases ns with
  | nil => simpa only [matchSeq] using hk
  | cons n ns =>
    rw [matchSeq, matchSeq, ← hT.clears]
    exact repeat_carried hT _ _ (fun _ _ hk => node_carried n h.1 hk) _ (seq_carried ns h.2 hk) 0

end

theorem textbookSearch_carried (P : Rx) (hP : AltsAsk again behind P.alt) (s : Bytes) (start : Nat)
    (hdeep : textbookSearch T P s start ≠ .deep) : textbookSearch T' P s start = textbookSearch T P s start := by
  have hat : ∀ start, textbookAt T P start ≠ .deep → textbookAt T' P start = textbookAt T P start := fun start h =>
    seq_carried hT hagain hplaces P.root ⟨hP, trivial⟩ end_carries _ _ _ _ h
  have hfrom : ∀ places start, textbookFrom T P s places start ≠ .deep →
      textbookFrom T' P s places start = textbookFrom T P s places start := by
    intro places
    induction places with
    | zero => exact fun _ _ => rfl
    | succ places ih =>
      intro start hdeep
      rw [textbookFrom] at hdeep
      rw [textbookFrom, textbookFrom]
      split at hdeep
      · rename_i hend
        rw [if_pos hend, if_pos hend]
      · rename_i hgo
        rw [if_neg hgo, if_neg hgo]
        cases hfound : textbookAt T P start with
        | missed =>
          rw [hat start (by rw [hfound]; simp), hfound]
          rw [hfound] at hdeep
          exact if_carried (fun _ => rfl) (ih _) hdeep
        | found e c => rw [hat start (by rw [hfound]; simp), hfound]
        | deep =>
          rw [hfound] at hdeep
          exact absurd rfl hdeep
  exact hfrom _ _ hdeep

end Like

mutual

theorem node_asks (n : RxNode) : n.Asks True True := by
  cases n with
  | single | bol | eol | wordb | nwordb | backref => trivial
  | look neg back alt wmin wmax => exact ⟨fun _ => trivial, alts_ask alt⟩
  | group cap alt q => exact alts_ask alt

theorem alts_ask (alt : List (List RxNode)) : AltsAsk True True alt := by
  cases alt with
  | nil => trivial
  | cons a alt => exact ⟨seq_asks a, alts_ask alt⟩

theorem seq_asks (ns : List RxNode) : SeqAsks True True ns := by
  cases ns with
  | nil => trivial
  | cons n ns => exact ⟨node_asks n, seq_asks ns⟩

end

/-! ## Patterns of one term, with room enough -/

section Samples
variable {T : Reading}

theorem repeat_once (w : Nat) (m : Onward → Onward) (clear : Caps → Caps) (k : Onward) (frames pos : Nat)
    (caps : Caps) (hfits : T.fits (frames + w) = true) :
    repeatMatcher T onceOnly w m clear k 0 frames pos caps = m k (frames + w) pos (clear caps) := by
  have hmin : onceOnly.min = 1 := rfl
  have hgreedy : onceOnly.greedy = true := rfl
  have hstop : ∀ f e c, repeatMatcher T onceOnly w m clear k 1 f e c = k f e c := by
    intro f e c
    rw [repeat_turns]
    simp [turnOr, hmin, hgreedy, show onceOnly.more 1 = false from rfl]
  rw [repeat_turns, if_pos hfits]
  simp [turnOr, hmin, hgreedy, hstop, show onceOnly.more 0 = true from rfl]

/-- `*` -/
def starQuant : RxQuant := ⟨true, 0, -1⟩

theorem repeat_star (w : Nat) (m : Onward → Onward) (clear : Caps → Caps) (k : Onward) (done frames pos : Nat)
    (caps : Caps) (hfits : T.fits (frames + w) = true) : repeatMatcher T starQuant w m clear k done frames pos caps =
      (m (fun f e c => if pos < e ∧ pos < T.len then repeatMatcher T starQuant w m clear k (done + 1) f e c else .missed)
        (frames + w) pos (clear caps)).or (k frames pos caps) := by
  have hmin : starQuant.min = 0 := rfl
  have hpast : starQuant.min ≤ done := by rw [hmin]; omega
  rw [repeat_turns, if_pos hfits]
  simp only [turnOr, show starQuant.greedy = true from rfl, show starQuant.more done = true from rfl, hpast, if_true,
    true_and, dite_eq_ite, ite_not]

theorem clearGroups_none (gs : List Nat) (n : Nat) : clearGroups gs (List.replicate n none) = List.replicate n none := by
  induction gs with
  | nil => rfl
  | cons g gs ih =>
    rw [clearGroups, List.foldl_cons, show (List.replicate n none).set g none = List.replicate n none by simp]
    exact ih

theorem textbookAt_one (P : Rx) (n : RxNode) (h : P.alt = [[n]]) (start : Nat) (hturn : T.fits 1 = true)
    (hgroup : T.fits 2 = true) :
    textbookAt T P start =
      repeatMatcher T n.quant n.frames (matchNode T n) (clearGroups (if T.clears then n.groups else []))
        (fun _ e caps => .found e (caps.set 0 (some (start, e)))) 0 2 start (List.replicate P.ncaps none) := by
  rw [textbookAt, Rx.root, h, matchSeq, RxNode.quant, repeat_once _ _ _ _ _ _ _ hturn, matchNode_group,
    show (RxNode.group (some 0) [[n]] onceOnly).frames = 1 from rfl, Option.toList_some, List.length_singleton,
    if_pos hgroup]
  simp only [matchAlts, matchSeq, Outcome.or_missed, clearGroups_none]
  rfl

end Samples

def turnAB : RxNode :=
  .group none [[.group (some 1) [[.single (.char 97) onceOnly]] onceOnly], [.single (.char 98) onceOnly]] starQuant

/-- `(?:(a)|b)*` -/
def capOrB : Rx := ⟨[[turnAB]], 2, false, false, false, false⟩

/-- What the textbook makes of it on `ab`, with room for ten turns and groups, by whether a turn clears. -/
theorem capOrB_textbook (hfits : ∀ frames ≤ 10, T.fits frames = true) (hlen : T.len = 2)
    (ha : T.one (.char 97) 0 = 1) (ha' : T.one (.char 97) 1 = 0) (hb : T.one (.char 98) 1 = 1)
    (hend : ∀ ch, T.one (.char ch) 2 = 0) :
    textbookSearch T capOrB [97, 98] 0 = .found 0 [some (0, 2), if T.clears then none else some (0, 1)] := by
  have hturn : ∀ (k : Onward) frames pos caps, frames + 2 ≤ 10 → matchNode T turnAB k frames pos caps =
      (if T.one (.char 97) pos = 0 then .missed
        else k (frames + 2) (pos + T.one (.char 97) pos) (caps.set 1 (some (pos, pos + T.one (.char 97) pos)))).or
      (if T.one (.char 98) pos = 0 then .missed else k frames (pos + T.one (.char 98) pos) caps) := by
    intro k frames pos caps hroom
    have hgroups : ∀ c : Caps, ∀ x, (clearGroups (if T.clears then [1] else []) c).set 1 x = c.set 1 x := fun c x => by
      cases T.clears <;> simp [clearGroups]
    have hnone : ∀ c : Caps, clearGroups [] c = c := fun _ => rfl
    have hroom₀ := hfits frames (by omega)
    have hroom₁ := hfits (frames + 1) (by omega)
    have hroom₂ := hfits (frames + 1 + 1) hroom
    simp [turnAB, matchNode_group, matchNode_single, matchAlts, matchSeq, RxNode.quant, repeat_once, hroom₀, hroom₁,
      hroom₂, hgroups, hnone, RxNode.groups, altsGroups, seqGroups, closing, RxNode.frames]
  have hroot : textbookAt T capOrB 0 = .found 2 [some (0, 2), if T.clears then none else some (0, 1)] := by
    have hgroups : turnAB.groups = [1] := rfl
    rw [textbookAt_one capOrB turnAB rfl 0 (hfits 1 (by omega)) (hfits 2 (by omega)), show turnAB.quant = starQuant from rfl,
      show turnAB.frames = 1 from rfl, hgroups]
    rw [repeat_star _ _ _ _ _ _ _ _ (hfits 3 (by omega)), hturn _ _ _ _ (by omega), ha, hlen]
    simp only [Nat.zero_add, Nat.lt_add_one, Nat.succ_pos, and_self, if_true, one_ne_zero, if_false]
    rw [repeat_star _ _ _ _ _ _ _ _ (hfits 6 (by omega)), hturn _ _ _ _ (by omega), ha', hb, hlen]
    simp only [Nat.lt_add_one, and_self, if_true, one_ne_zero, if_false, Nat.reduceAdd]
    rw [repeat_star _ _ _ _ _ _ _ _ (hfits 7 (by omega)), hturn _ _ _ _ (by omega), hend, hend]
    cases T.clears <;> simp [clearGroups, capOrB]
  simp only [textbookSearch, textbookFrom, hroot]
  rfl

theorem capOrB_pooled :
    textbookSearch (pooled (capOrB.env [97, 98])) capOrB [97, 98] 0 = .found 0 [some (0, 2), some (0, 1)] :=
  capOrB_textbook (fun frames h => (pooled_fits _ frames).mpr (h.trans (by decide))) rfl (by decide) (by decide)
    (by decide) fun _ => rfl

theorem capOrB_unspent : Unspent capOrB [97, 98] 0 := by decide +kernel

theorem capOrB_proper : capOrB.Proper fun _ => False := by
  have honce : onceOnly.Proper := ⟨by decide, .inr (by decide)⟩
  have hstar : starQuant.Proper := ⟨by decide, .inl (by decide)⟩
  simp [Rx.Proper, capOrB, turnAB, AltsProper, SeqProper, RxNode.Proper, honce, hstar]

/-! ## What a search finds -/

theorem rxSearch_textbook {G : Nat → Prop} {again behind : Prop} {s : Bytes}
    (hT : (pooled (P.env s)).Like T) (hagain : again → (pooled (P.env s)).again = T.again)
    (hplaces : behind → (pooled (P.env s)).places = T.places) (hP : P.Proper G) (hasks : AltsAsk again behind P.alt)
    (start : Nat) :
    ∃ r S, rxSearch P s start = some (r, S) ∧ (Unspent P s start →
      textbookSearch (codeReading (P.env s) (some RX_CONTS)) P s start ≠ .deep →
        Agrees G r S.caps (textbookSearch T P s start)) := by
  obtain ⟨r, S, hrun, hspec⟩ := rxTry_textbook P hP s (s.length + 1) start rxStart
  refine ⟨r, S, hrun, fun hunspent hdeep => ?_⟩
  rw [textbookSearch_carried hT hagain hplaces P hasks s start hdeep]
  exact hspec hunspent hdeep

def emptyBranch : RxNode := .group none [] ⟨true, 0, 0⟩

def manyTurns : RxNode := .group none [[emptyBranch]] ⟨true, 1025, 1025⟩

/-- `(?:){1025}` -/
def manyEmpty : Rx := ⟨[[manyTurns]], 1, false, false, false, false⟩

section Turns
variable {T : Reading}

theorem manyTurns_once (hfits : ∀ frames, T.fits frames = true) (k : Onward) (frames pos : Nat) (caps : Caps) :
    matchNode T manyTurns k frames pos caps = k frames pos caps := by
  simp [manyTurns, emptyBranch, matchNode_group, matchAlts, matchSeq, RxNode.quant, repeat_turns, turnOr, hfits, closing,
    RxQuant.more]

theorem manyTurns_all (hfits : ∀ frames, T.fits frames = true) (k : Onward) (left done frames pos : Nat) (caps : Caps)
    (hleft : done + left = 1025) :
    repeatMatcher T manyTurns.quant 1 (matchNode T manyTurns) (clearGroups []) k done frames pos caps =
      k (frames + left) pos caps := by
  induction left generalizing done frames with
  | zero =>
    obtain rfl : done = 1025 := hleft
    rw [repeat_turns]
    rfl
  | succ left ih =>
    have hmin : ¬ manyTurns.quant.min ≤ done := by
      change ¬ (1025 : Int) ≤ done
      omega
    have hmore : manyTurns.quant.more done = true := decide_eq_true (.inr (by change (done : Int) < 1025; omega))
    rw [repeat_turns, if_pos (hfits _), manyTurns_once hfits, dif_neg fun h => hmin h.1,
      show clearGroups [] caps = caps from rfl, ih (done + 1) (frames + 1) (by omega), Nat.add_assoc,
      Nat.add_comm 1 left]
    simp [turnOr, hmin, hmore, show manyTurns.quant.greedy = true from rfl]

end Turns

section Refused

def RxState.tick (S : RxState) (k : Nat) : RxState := { S with steps := S.steps + k, total := S.total + k }

/-- There are `k` steps left. -/
def RxState.Spare (S : RxState) (k : Nat) : Prop := S.steps + k ≤ RX_STEPS ∧ S.total + k ≤ RX_SEARCH

variable {R : RxEnv} {call : RxTask → RxM Bool} {cont : Option Nat} {S S' : RxState} {k done : Nat}

theorem RxState.Spare.tick {j : Nat} (h : S.Spare k) (hjk : j ≤ k) : (S.tick j).Spare (k - j) := by
  unfold RxState.Spare RxState.tick at *
  dsimp only
  omega

theorem rxBudget_tick (h : S.Spare k) (hk : 0 < k) : rxBudget S = some (true, S.tick 1) := by
  obtain ⟨hsteps, htotal⟩ := h
  simp only [rxBudget, rxBind, rxGet, Option.bind_some, if_pos (show S.steps + 1 ≤ RX_STEPS by omega)]
  change some (decide (S.total + 1 ≤ RX_SEARCH), _) = _
  rw [decide_eq_true (by omega)]
  rfl

theorem rep_refused (hdone : done < 1025) (h : S.Spare k) (hk : 0 < k)
    (hagain : rxAgain call manyTurns [] 0 cont done (S.tick 1) = some (false, S')) :
    rxRep R call manyTurns [] 0 cont done S = some (false, S') := by
  have hmore : manyTurns.quant.more done = true := decide_eq_true (.inr (by change (done : Int) < 1025; omega))
  have hmin : ¬ manyTurns.quant.min ≤ done := by
    change ¬ (1025 : Int) ≤ done
    omega
  change (rxBudget >>= fun x => if (!x) = true then pure false else
    rxRepTurn manyTurns.quant done (rxAgain call manyTurns [] 0 cont done) (call (.run [] 0 cont))) S = _
  simp [rxBind, rxBudget_tick h hk, rxRepTurn, hmin, hmore, hagain, rxPure]

/-- With `m` frames left in the pool and more turns than that to come, `m` turns are taken and given back. -/
theorem turns_refused (m d done : Nat) (cont : Option Nat) (S : RxState)
    (hroom : S.cont.length + m = RX_CONTS) (hdone : done + m < 1025) (h : S.Spare (3 * m + 1)) :
    rxCall R (d + (6 * m + 1)) (.rep manyTurns [] 0 cont done) S = some (false, S.tick (3 * m + 1)) := by
  induction m generalizing done cont S with
  | zero =>
    change rxRep R (rxCall R d) manyTurns [] 0 cont done S = _
    refine rep_refused hdone h Nat.one_pos ?_
    simp only [rxAgain, rxBind, rxGet, Option.bind_some,
      rxPush_full (S := S.tick 1) (.rep manyTurns [] cont (done + 1) 0) (le_of_eq hroom.symm)]
    rfl
  | succ m ih =>
    have hdeep : d + (6 * (m + 1) + 1) = d + (6 * m + 1) + 6 := by omega
    rw [hdeep]
    generalize hD : d + (6 * m + 1) = D
    change rxRep R (rxCall R (D + 5)) manyTurns [] 0 cont done S = _
    refine rep_refused (by omega) h (by omega) ?_
    generalize hpushed : ({ S.tick 1 with cont := S.cont ++ [.rep manyTurns [] cont (done + 1) 0] } : RxState) = S₁
    have hcont : S₁.cont = S.cont ++ [.rep manyTurns [] cont (done + 1) 0] := hpushed ▸ rfl
    have hspare : S₁.Spare (3 * m + 3) := hpushed ▸ h.tick (j := 1) (by omega)
    have hturn := ih (done + 1) cont ((S₁.tick 1).tick 1) (by simp [RxState.tick, hcont]; omega) (by omega)
      ((hspare.tick (j := 1) (by omega)).tick (j := 1) (by omega))
    have hnext : rxCall R (D + 2) (.run [] 0 (some S.cont.length)) ((S₁.tick 1).tick 1) =
        some (false, ((S₁.tick 1).tick 1).tick (3 * m + 1)) := by
      have hframe : ((S₁.tick 1).tick 1).cont[S.cont.length]? = some (.rep manyTurns [] cont (done + 1) 0) := by
        simp [RxState.tick, hcont]
      have hstay : ¬ ((done + 1 : Nat) > manyTurns.quant.min) := by
        change ¬ ((done + 1 : Nat) : Int) > 1025
        omega
      change rxContDo (rxCall R D) (some S.cont.length) 0 _ = _
      simp only [rxContDo, rxBind, rxGet, Option.bind_some, hframe, hstay, and_false, if_false, ← hD, hturn]
    have hlist : rxCall R (D + 4) (.run [emptyBranch] 0 (some S.cont.length)) (S₁.tick 1) =
        some (false, ((S₁.tick 1).tick 1).tick (3 * m + 1)) := by
      change (rxBudget >>= fun x => if (!x) = true then pure false else
        rxRepTurn emptyBranch.quant 0 (rxAgain (rxCall R (D + 2)) emptyBranch [] 0 _ 0) (rxCall R (D + 2) (.run [] 0 _))) _ = _
      simp [rxBind, rxBudget_tick (hspare.tick (j := 1) (by omega)) (by omega), rxRepTurn, emptyBranch, RxNode.quant,
        RxQuant.more, hnext, rxPure]
    have hatom : rxCall R (D + 5) (.atom manyTurns 0 (some S.cont.length)) S₁ =
        some (false, ((S₁.tick 1).tick 1).tick (3 * m + 1)) := by
      have hdrop : ∀ S : RxState, S.cont = S₁.cont → { S with cont := S.cont.take S₁.cont.length } = S := fun S hS => by
        rw [← hS, List.take_length]
      change (rxBudget >>= fun x => if (!x) = true then pure false else
        get >>= fun S => rxGroupAlts (rxCall R (D + 4)) none 0 (some _) S.cont.length [[emptyBranch]]) _ = _
      simp [rxBind, rxBudget_tick hspare (by omega), rxGet, rxGroupAlts, rxDropTo, rxModify, hlist]
      exact congrArg (fun S => some (false, S)) (hdrop _ rfl)
    have hpush : rxPush (.rep manyTurns [] cont (done + 1) 0) (S.tick 1) = some (some S.cont.length, S₁) :=
      hpushed ▸ rxPush_room (S := S.tick 1) _ (by simp only [RxState.tick]; omega)
    simp only [rxAgain, rxBind, rxGet, Option.bind_some, hpush, hatom]
    change some (false, { (((S₁.tick 1).tick 1).tick (3 * m + 1)) with cont := S₁.cont.take S.cont.length }) = _
    rw [hcont, List.take_left, ← hpushed]
    simp only [RxState.tick, Nat.add_assoc, show 1 + (1 + (1 + (3 * m + 1))) = 3 * (m + 1) + 1 by omega]

theorem manyEmpty_run {D : Nat} {root : RxCont} (hroot : .rep (.group (some 0) [[manyTurns]] onceOnly) [] none 1 0 = root)
    (hturns : rxCall R D (.rep manyTurns [] 0 (some 1) 0) ⟨[root, .close 0 (some 0) 0], [none], none, 2, 2⟩ =
      some (false, ⟨[root, .close 0 (some 0) 0], [none], none, 3069, 3069⟩)) :
    rxCall R (D + 4) (.run manyEmpty.root 0 none) (rxFresh manyEmpty rxStart) =
      some (false, ⟨[], [none], none, 3069, 3069⟩) := by
  have hatom : rxCall R (D + 2) (.atom (.group (some 0) [[manyTurns]] onceOnly) 0 (some 0)) ⟨[root], [none], none, 1, 1⟩ =
      some (false, ⟨[root], [none], none, 3069, 3069⟩) := by
    have hbudget : rxBudget ⟨[root], [none], none, 1, 1⟩ = some (true, ⟨[root], [none], none, 2, 2⟩) := rfl
    have hpush : rxPush (.close 0 (some 0) 0) ⟨[root], [none], none, 2, 2⟩ =
      some (some 1, ⟨[root, .close 0 (some 0) 0], [none], none, 2, 2⟩) := rfl
    have hlist : rxCall R (D + 1) (.run [manyTurns] 0 (some 1)) _ = _ := hturns
    change (rxBudget >>= fun x => if (!x) = true then pure false else
      get >>= fun S => rxGroupAlts (rxCall R (D + 1)) (some 0) 0 (some 0) S.cont.length [[manyTurns]]) _ = _
    simp [rxBind, hbudget, rxGet, rxGroupAlts, rxDropTo, rxModify, hpush, hlist]
    rfl
  have hbudget : rxBudget (rxFresh manyEmpty rxStart) = some (true, ⟨[], [none], none, 1, 1⟩) := rfl
  have hpush : rxPush root ⟨[], [none], none, 1, 1⟩ = some (some 0, ⟨[root], [none], none, 1, 1⟩) := rfl
  change (rxBudget >>= fun x => if (!x) = true then pure false else
    rxRepTurn onceOnly 0 (rxAgain (rxCall R (D + 2)) (.group (some 0) [[manyTurns]] onceOnly) [] 0 none 0) _) _ = _
  simp [rxBind, hbudget, rxRepTurn, show onceOnly.more 0 = true from rfl, show onceOnly.min = 1 from rfl, rxAgain, rxGet,
    hroot, hpush, hatom, rxDropTo]
  rfl

theorem manyEmpty_call (R : RxEnv) :
    rxCall R rxDeep (.run manyEmpty.root 0 none) (rxFresh manyEmpty rxStart) = some (false, ⟨[], [none], none, 3069, 3069⟩) := by
  have hspare : ∀ root, RxState.Spare ⟨[root, .close 0 (some 0) 0], [none], none, 2, 2⟩ (3 * 1022 + 1) := fun _ =>
    ⟨by simp [RX_STEPS], by simp [RX_SEARCH]⟩
  obtain ⟨d, hd⟩ : ∃ d, rxDeep = d + (6 * 1022 + 1) + 4 := ⟨rxDeep - 6137, by simp [rxDeep, RX_STEPS, RX_CONTS]⟩
  rw [hd]
  exact manyEmpty_run rfl (turns_refused 1022 d 0 (some 1) _ rfl (by decide) (hspare _))

end Refused

/-! ## The standard's characters and lines -/

section Standard
variable (R : RxEnv) (clears : Bool)

theorem one_standard : rxOne R = (standardReading R clears).one := by
  funext x pos
  have hchar : (if (byteAt R.s pos).toNat ≥ 0x80 then rxUtf8 (R.s.drop pos) else ((byteAt R.s pos).toNat, 1)) =
      rxUtf8 (R.s.drop pos) := by
    have hbyte : byteAt (R.s.drop pos) 0 = byteAt R.s pos := byteAt_drop _ _ _
    split
    · rfl
    · rw [rxUtf8, hbyte, if_pos (by omega)]
  simp only [rxOne, standardReading, hchar, ge_iff_le]
  split
  · rfl
  · cases x <;> simp

theorem again_standard (hcase : R.icase = false) : rxBackLen R = (standardReading R clears).again := by
  have hmap : ∀ a b : Bytes, (a.map fun b => b.toNat) = (b.map fun b => b.toNat) ↔ a = b := fun a b =>
    List.map_inj_right fun _ _ h => UInt8.toNat_inj.mp h
  funext g pos caps
  simp only [rxBackLen, standardReading]
  cases caps.getD g none with
  | none => rfl
  | some c =>
    simp only [hcase, Bool.false_eq_true, if_false, hmap]
    split
    · rfl
    · by_cases hroom : R.len < pos + (c.2 - c.1)
      · rw [if_pos hroom, if_neg fun h => absurd h.1 (not_le.mpr hroom)]
      · simp only [if_neg hroom, not_lt.mp hroom, true_and]

theorem like_standard (hlines : R.multiline = true → ∀ q, lineSeparator R.s q = false) :
    (pooled R).Like (standardReading R false) := by
  refine ⟨rfl, one_standard R false, ?_, ?_, rfl, rfl, rfl⟩
  all_goals
    funext pos
    simp only [pooled, codeReading, standardReading]
    cases hmulti : R.multiline
    · simp
    · simp [hlines hmulti]

end Standard

end Zelr.Js
