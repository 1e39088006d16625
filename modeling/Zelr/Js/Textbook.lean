import Zelr.Js.Regex

/-!
# What a pattern means

The matchers a pattern stands for, by recursion on it: each takes what is to be matched after it, and
says where the whole ends and what the groups caught. Of a branch the turns and groups it is in are
counted, where a reading has no room for more.
-/

namespace Zelr.Js

abbrev Caps := List (Option (Nat × Nat))

/-- What a branch comes to; `deep` is one that is in more turns and groups than there is room for. -/
inductive Outcome
  | missed
  | found (e : Nat) (caps : Caps)
  | deep
  deriving DecidableEq, Repr

def Outcome.or : Outcome → Outcome → Outcome
  | .missed, o => o
  | o, _ => o

@[simp] theorem Outcome.missed_or (o : Outcome) : Outcome.missed.or o = o := rfl

@[simp] theorem Outcome.found_or (e : Nat) (caps : Caps) (o : Outcome) : (Outcome.found e caps).or o = .found e caps := rfl

@[simp] theorem Outcome.deep_or (o : Outcome) : Outcome.deep.or o = .deep := rfl

@[simp] theorem Outcome.or_missed (o : Outcome) : o.or .missed = o := by
  cases o <;> rfl

theorem Outcome.or_assoc (a b c : Outcome) : (a.or b).or c = a.or (b.or c) := by
  cases a <;> rfl

theorem Outcome.or_found {a b : Outcome} {e : Nat} {caps : Caps} (h : a.or b = .found e caps) :
    a = .found e caps ∨ b = .found e caps := by
  cases a with
  | missed => exact .inr h
  | found => exact .inl h
  | deep => cases h

/-- What comes next, of the turns and groups it is in, a place, and what the groups caught. -/
abbrev Onward := Nat → Nat → Caps → Outcome

/-- A reading of patterns over one text: how long a character is, where lines and words end, how long a group is where it
is asked for again, where a lookbehind may start, whether each turn clears its groups, and the room there is. -/
structure Reading where
  len : Nat
  one : RxSingle → Nat → Nat
  lineStart : Nat → Bool
  lineEnd : Nat → Bool
  wordEdge : Nat → Bool
  again : Nat → Nat → Caps → Option Nat
  places : Int → Int → Nat → List Nat
  clears : Bool
  room : Option Nat

def Reading.fits (T : Reading) (frames : Nat) : Bool := T.room.all fun room => decide (frames ≤ room)

/-! ## Groups inside -/

mutual

def RxNode.groups : RxNode → List Nat
  | .group cap alt _ => cap.toList ++ altsGroups alt
  | .look _ _ alt _ _ => altsGroups alt
  | _ => []

def altsGroups : List (List RxNode) → List Nat
  | [] => []
  | a :: alts => seqGroups a ++ altsGroups alts

def seqGroups : List RxNode → List Nat
  | [] => []
  | n :: ns => n.groups ++ seqGroups ns

end

def clearGroups (gs : List Nat) (caps : Caps) : Caps := gs.foldl (fun c g => c.set g none) caps

/-- A character repeated takes no room: it is counted. -/
def RxNode.frames : RxNode → Nat
  | .single _ _ => 0
  | _ => 1

/-! ## Matchers -/

section Matchers
variable (T : Reading)

/-- Turns of `m`, `done` of them behind: past the minimum a turn has to have moved on, which it can only
before the end of the text. -/
def repeatMatcher (q : RxQuant) (w : Nat) (m : Onward → Onward) (clear : Caps → Caps) (k : Onward)
    (done frames pos : Nat) (caps : Caps) : Outcome :=
  let turn :=
    if q.more done then
      if T.fits (frames + w) then
        m (fun frames' pos' caps' =>
          if _ : q.min ≤ done ∧ ¬ (pos < pos' ∧ pos < T.len) then .missed
          else repeatMatcher q w m clear k (done + 1) frames' pos' caps') (frames + w) pos (clear caps)
      else .deep
    else .missed
  let stop := if q.min ≤ done then k frames pos caps else .missed
  if q.greedy then turn.or stop else stop.or turn
  termination_by (q.min.toNat - done, T.len - pos)
  decreasing_by
    simp only [Prod.lex_def]
    omega

def lookDone (behind : Bool) (pos : Nat) : Onward := fun _ e caps =>
  if behind = true ∧ e ≠ pos then .missed else .found e caps

def firstOf (places : List Nat) (o : Nat → Outcome) : Outcome := places.foldr (fun p rest => (o p).or rest) .missed

/-- What a lookaround makes of what comes next, by what it found. -/
def lookNext (neg : Bool) (k : Caps → Outcome) (caps : Caps) : Outcome → Outcome
  | .missed => if neg then k caps else .missed
  | .found _ caps' => if neg then .missed else k caps'
  | .deep => .deep

/-- What a group makes of what comes next. -/
def closing (cap : Option Nat) (pos : Nat) (k : Onward) : Onward :=
  match cap with
  | none => k
  | some g => fun frames e caps => k frames e (caps.set g (some (pos, e)))

mutual

def matchNode : RxNode → Onward → Onward
  | .single x _, k => fun frames pos caps => if T.one x pos = 0 then .missed else k frames (pos + T.one x pos) caps
  | .bol, k => fun frames pos caps => if T.lineStart pos then k frames pos caps else .missed
  | .eol, k => fun frames pos caps => if T.lineEnd pos then k frames pos caps else .missed
  | .wordb, k => fun frames pos caps => if T.wordEdge pos then k frames pos caps else .missed
  | .nwordb, k => fun frames pos caps => if T.wordEdge pos then .missed else k frames pos caps
  | .backref g _, k => fun frames pos caps =>
    match T.again g pos caps with
    | none => .missed
    | some n => k frames (pos + n) caps
  | .look neg behind alt wmin wmax, k => fun frames pos caps =>
    if T.fits (frames + 1) then
      lookNext neg (k frames pos) caps (firstOf (if behind then T.places wmin wmax pos else [pos]) fun p =>
        matchAlts alt (lookDone behind pos) (frames + 1) p caps)
    else .deep
  | .group cap alt _, k => fun frames pos caps =>
    if T.fits (frames + cap.toList.length) then matchAlts alt (closing cap pos k) (frames + cap.toList.length) pos caps
    else .deep

def matchAlts : List (List RxNode) → Onward → Onward
  | [], _ => fun _ _ _ => .missed
  | a :: alts, k => fun frames pos caps => (matchSeq a k frames pos caps).or (matchAlts alts k frames pos caps)

def matchSeq : List RxNode → Onward → Onward
  | [], k => k
  | n :: ns, k => repeatMatcher T n.quant n.frames (matchNode n) (clearGroups (if T.clears then n.groups else []))
      (matchSeq ns k) 0

end

theorem matchNode_single (x : RxSingle) (q : RxQuant) (k : Onward) (frames pos : Nat) (caps : Caps) :
    matchNode T (.single x q) k frames pos caps =
      if T.one x pos = 0 then .missed else k frames (pos + T.one x pos) caps := by
  rw [matchNode]

theorem matchNode_group (cap : Option Nat) (alt : List (List RxNode)) (q : RxQuant) (k : Onward) (frames pos : Nat)
    (caps : Caps) :
    matchNode T (.group cap alt q) k frames pos caps =
      if T.fits (frames + cap.toList.length) then
        matchAlts T alt (closing cap pos k) (frames + cap.toList.length) pos caps
      else .deep := by
  rw [matchNode]

/-- A match that starts at `start`: where it ends, and what the groups caught. -/
def textbookAt (P : Rx) (start : Nat) : Outcome :=
  matchSeq T P.root (fun _ e caps => .found e caps) 0 start (List.replicate P.ncaps none)

/-- The first match from `start` on, one that starts where a character does: its start, and what the groups caught, the
whole of it being group nought. -/
def textbookFrom (P : Rx) (s : Bytes) : Nat → Nat → Outcome
  | 0, _ => .missed
  | places + 1, start =>
    if start > s.length then .missed
    else
      match textbookAt T P start with
      | .found e caps => .found start (caps.set 0 (some (start, e)))
      | .deep => .deep
      | .missed =>
        if P.sticky = true then .missed
        else textbookFrom P s places (start + if start < s.length then (rxUtf8 (s.drop start)).2 else 1)

def textbookSearch (P : Rx) (s : Bytes) (start : Nat) : Outcome := textbookFrom T P s (s.length + 1) start

end Matchers

/-! ## Two readings -/

/-- The reading the code has: nothing cleared, and a lookbehind tried where its widths say. -/
def codeReading (R : RxEnv) (room : Option Nat) : Reading where
  len := R.len
  one := rxOne R
  lineStart pos := decide (pos = 0 ∨ R.multiline = true ∧ (byteAt R.s (pos - 1) = 10 ∨ byteAt R.s (pos - 1) = 13))
  lineEnd pos := decide (pos = R.len ∨ R.multiline = true ∧ (byteAt R.s pos = 10 ∨ byteAt R.s pos = 13))
  wordEdge pos := rxAtWord R (pos - 1) != rxAtWord R pos
  again := rxBackLen R
  places := rxBehind
  clears := false
  room := room

/-- U+2028 and U+2029, which end a line to the standard as the two in ASCII do. -/
def lineSeparator (s : Bytes) (q : Nat) : Bool :=
  decide (byteAt s q = 0xE2 ∧ byteAt s (q + 1) = 0x80 ∧ (byteAt s (q + 2) = 0xA8 ∨ byteAt s (q + 2) = 0xA9))

/-- The standard's reading, of a pattern without lookbehind and, where case is ignored, without a backreference:
`clears` is whether a turn starts with the groups inside it cleared, as it does to the standard. -/
def standardReading (R : RxEnv) (clears : Bool) : Reading where
  len := R.len
  one x pos :=
    if R.len ≤ pos then 0
    else
      let c := rxUtf8 (R.s.drop pos)
      let takes := match x with
        | .char ch => decide ((if R.icase then rxFold c.1 else c.1) = ch)
        | .any => R.dotall || decide (c.1 ∉ [10, 13, 0x2028, 0x2029])
        | .cls cls => rxClsHas cls c.1
      if takes then c.2 else 0
  lineStart pos := decide (pos = 0 ∨ R.multiline = true ∧
    (byteAt R.s (pos - 1) = 10 ∨ byteAt R.s (pos - 1) = 13 ∨ 3 ≤ pos ∧ lineSeparator R.s (pos - 3) = true))
  lineEnd pos := decide (pos = R.len ∨ R.multiline = true ∧
    (byteAt R.s pos = 10 ∨ byteAt R.s pos = 13 ∨ lineSeparator R.s pos = true))
  wordEdge pos := rxAtWord R (pos - 1) != rxAtWord R pos
  again g pos caps := match caps.getD g none with
    | none => some 0
    | some (s, e) =>
      if e < s then some 0
      else if pos + (e - s) ≤ R.len ∧ (R.s.drop s).take (e - s) = (R.s.drop pos).take (e - s) then some (e - s)
      else none
  places _ _ _ := []
  clears := clears
  room := none

/-! ## Patterns -/

structure RxQuant.Proper (q : RxQuant) : Prop where
  min : 0 ≤ q.min
  max : q.max < 0 ∨ q.min ≤ q.max

section Proper
variable (G : Nat → Prop)

mutual

/-- Every bound is the right way round (any other pattern is none to the standard) and has not come round; the groups
inside a positive lookaround are some of `G`, and no backreference asks for one of those. -/
def RxNode.Proper : RxNode → Prop
  | .single _ q => q.Proper
  | .backref g q => q.Proper ∧ ¬ G g
  | .look neg _ alt _ _ => (neg = false → ∀ g ∈ altsGroups alt, G g) ∧ AltsProper alt
  | .group _ alt q => q.Proper ∧ AltsProper alt
  | _ => True

def AltsProper : List (List RxNode) → Prop
  | [] => True
  | a :: alts => SeqProper a ∧ AltsProper alts

def SeqProper : List RxNode → Prop
  | [] => True
  | n :: ns => n.Proper ∧ SeqProper ns

end

end Proper

/-! ## What a pattern can take -/

inductive RxPart
  | node (n : RxNode)
  | alts (alt : List (List RxNode))
  | seq (ns : List RxNode)
  | turns (n : RxNode) (done : Nat)

def RxCap.close (cap : Option Nat) (pos e : Nat) (caps : Caps) : Caps :=
  match cap with
  | none => caps
  | some g => caps.set g (some (pos, e))

/-- From a place and what was caught there, to another, whichever branch is taken. -/
inductive Goes (T : Reading) : RxPart → Nat → Caps → Nat → Caps → Prop
  | single {x q pos caps} : T.one x pos ≠ 0 → Goes T (.node (.single x q)) pos caps (pos + T.one x pos) caps
  | here {n pos caps} : n = .bol ∨ n = .eol ∨ n = .wordb ∨ n = .nwordb → Goes T (.node n) pos caps pos caps
  | again {g q n pos caps} : T.again g pos caps = some n → Goes T (.node (.backref g q)) pos caps (pos + n) caps
  | ahead {behind alt wmin wmax pos caps p e caps'} : Goes T (.alts alt) p caps e caps' →
    Goes T (.node (.look false behind alt wmin wmax)) pos caps pos caps'
  | not {behind alt wmin wmax pos caps} : Goes T (.node (.look true behind alt wmin wmax)) pos caps pos caps
  | group {cap alt q pos caps e caps'} : Goes T (.alts alt) pos caps e caps' →
    Goes T (.node (.group cap alt q)) pos caps e (RxCap.close cap pos e caps')
  | first {a alt pos caps e caps'} : Goes T (.seq a) pos caps e caps' → Goes T (.alts (a :: alt)) pos caps e caps'
  | other {a alt pos caps e caps'} : Goes T (.alts alt) pos caps e caps' → Goes T (.alts (a :: alt)) pos caps e caps'
  | nil {pos caps} : Goes T (.seq []) pos caps pos caps
  | cons {n ns pos caps e caps' e' caps''} : Goes T (.turns n 0) pos caps e caps' → Goes T (.seq ns) e caps' e' caps'' →
    Goes T (.seq (n :: ns)) pos caps e' caps''
  | stop {n : RxNode} {done : Nat} {pos caps} : n.quant.min ≤ done → Goes T (.turns n done) pos caps pos caps
  | turn {n : RxNode} {done : Nat} {pos caps e caps' e' caps''} : n.quant.more done = true →
    Goes T (.node n) pos (clearGroups (if T.clears then n.groups else []) caps) e caps' →
    Goes T (.turns n (done + 1)) e caps' e' caps'' → Goes T (.turns n done) pos caps e' caps''

section Goes
variable (T : Reading)

theorem firstOf_found {places : List Nat} {o : Nat → Outcome} {e : Nat} {caps : Caps}
    (h : firstOf places o = .found e caps) : ∃ p ∈ places, o p = .found e caps := by
  induction places with
  | nil => cases h
  | cons p places ih =>
    rcases Outcome.or_found h with hp | hrest
    · exact ⟨p, List.mem_cons_self, hp⟩
    · obtain ⟨q, hq, hfound⟩ := ih hrest
      exact ⟨q, List.mem_cons_of_mem _ hq, hfound⟩

theorem lookDone_found {behind : Bool} {pos frames e e' : Nat} {caps caps' : Caps}
    (h : lookDone behind pos frames e caps = .found e' caps') : e = e' ∧ caps = caps' ∧ (behind = true → e = pos) := by
  unfold lookDone at h
  split at h
  · cases h
  · rename_i hplace
    cases h
    exact ⟨rfl, rfl, fun hb => by_contra fun hne => hplace ⟨hb, hne⟩⟩

theorem closing_eq (cap : Option Nat) (pos : Nat) (k : Onward) (frames e : Nat) (caps : Caps) :
    closing cap pos k frames e caps = k frames e (RxCap.close cap pos e caps) := by
  cases cap <;> rfl

/-- What is found is found by what comes next, from a place the part goes to. -/
def Through (part : RxPart) (m : Onward → Onward) : Prop :=
  ∀ (k : Onward) (frames pos : Nat) (caps : Caps) (e : Nat) (found : Caps), m k frames pos caps = .found e found →
    ∃ frames' pos' caps', k frames' pos' caps' = .found e found ∧ Goes T part pos caps pos' caps'

theorem turns_through (n : RxNode) (h : Through T (.node n) (matchNode T n)) (done : Nat) :
    Through T (.turns n done) fun k => repeatMatcher T n.quant n.frames (matchNode T n)
      (clearGroups (if T.clears then n.groups else [])) k done := by
  intro k frames pos caps e found hfound
  generalize hclear : clearGroups (if T.clears then n.groups else []) = clear at hfound
  have hstep : ∀ (done frames pos : Nat) (caps : Caps),
      (∀ frames' pos' caps', ¬ (n.quant.min ≤ done ∧ ¬ (pos < pos' ∧ pos < T.len)) →
        repeatMatcher T n.quant n.frames (matchNode T n) clear k (done + 1) frames' pos' caps' = .found e found →
        ∃ f p c, k f p c = .found e found ∧ Goes T (.turns n (done + 1)) pos' caps' p c) →
      repeatMatcher T n.quant n.frames (matchNode T n) clear k done frames pos caps = .found e found →
      ∃ f p c, k f p c = .found e found ∧ Goes T (.turns n done) pos caps p c := by
    intro done frames pos caps ih hfound
    have hturn : (if n.quant.more done = true then
        if T.fits (frames + n.frames) then
          matchNode T n (fun frames' pos' caps' =>
            if _ : n.quant.min ≤ done ∧ ¬ (pos < pos' ∧ pos < T.len) then .missed
            else repeatMatcher T n.quant n.frames (matchNode T n) clear k (done + 1) frames' pos' caps')
            (frames + n.frames) pos (clear caps)
        else .deep
        else .missed) = .found e found → ∃ f p c, k f p c = .found e found ∧ Goes T (.turns n done) pos caps p c := by
      intro hfound
      split at hfound
      · rename_i hmore
        split at hfound
        · obtain ⟨f, p, c, hnext, hgoes⟩ := h _ _ _ _ _ _ hfound
          split at hnext
          · cases hnext
          · rename_i hmoved
            obtain ⟨f', p', c', hk, hrest⟩ := ih f p c hmoved hnext
            exact ⟨f', p', c', hk, .turn hmore (by rw [hclear]; exact hgoes) hrest⟩
        · cases hfound
      · cases hfound
    have hstop : (if n.quant.min ≤ done then k frames pos caps else .missed) = .found e found →
        ∃ f p c, k f p c = .found e found ∧ Goes T (.turns n done) pos caps p c := by
      intro hfound
      split at hfound
      · rename_i hmin
        exact ⟨frames, pos, caps, hfound, .stop hmin⟩
      · cases hfound
    rw [repeatMatcher] at hfound
    split at hfound
    · exact (Outcome.or_found hfound).elim hturn hstop
    · exact (Outcome.or_found hfound).elim hstop hturn
  induction done, frames, pos, caps using repeatMatcher.induct T n.quant n.frames (matchNode T n) clear k with
  | case1 done frames pos caps _ ih => exact hstep done frames pos caps ih hfound
  | case2 done frames pos caps _ ih => exact hstep done frames pos caps ih hfound

mutual

theorem node_through (n : RxNode) : Through T (.node n) (matchNode T n) := by
  intro k frames pos caps e found h
  cases n with
  | single x q =>
    simp only [matchNode] at h
    split at h
    · cases h
    · rename_i hone
      exact ⟨frames, _, caps, h, .single hone⟩
  | bol =>
    simp only [matchNode] at h
    split at h
    · exact ⟨frames, pos, caps, h, .here (by simp)⟩
    · cases h
  | eol =>
    simp only [matchNode] at h
    split at h
    · exact ⟨frames, pos, caps, h, .here (by simp)⟩
    · cases h
  | wordb =>
    simp only [matchNode] at h
    split at h
    · exact ⟨frames, pos, caps, h, .here (by simp)⟩
    · cases h
  | nwordb =>
    simp only [matchNode] at h
    split at h
    · cases h
    · exact ⟨frames, pos, caps, h, .here (by simp)⟩
  | backref g q =>
    simp only [matchNode] at h
    split at h
    · cases h
    · rename_i hagain
      exact ⟨frames, _, caps, h, .again hagain⟩
  | look neg behind alt wmin wmax =>
    simp only [matchNode] at h
    split at h
    · generalize hlook : firstOf _ _ = o at h
      cases neg with
      | true =>
        cases o with
        | missed => exact ⟨frames, pos, caps, h, .not⟩
        | found => cases h
        | deep => cases h
      | false =>
        cases o with
        | missed => cases h
        | found e' caps' =>
          obtain ⟨p, -, hp⟩ := firstOf_found hlook
          obtain ⟨f, e'', c, hdone, hgoes⟩ := alts_through alt _ _ _ _ _ _ hp
          obtain ⟨rfl, rfl, -⟩ := lookDone_found hdone
          exact ⟨frames, pos, c, h, .ahead hgoes⟩
        | deep => cases h
    · cases h
  | group cap alt q =>
    simp only [matchNode] at h
    split at h
    · obtain ⟨f, p, c, hk, hgoes⟩ := alts_through alt _ _ _ _ _ _ h
      rw [closing_eq] at hk
      exact ⟨f, p, _, hk, .group hgoes⟩
    · cases h

theorem alts_through (alt : List (List RxNode)) : Through T (.alts alt) (matchAlts T alt) := by
  intro k frames pos caps e found h
  cases alt with
  | nil => simp [matchAlts] at h
  | cons a alt =>
    simp only [matchAlts] at h
    rcases Outcome.or_found h with hfirst | hrest
    · obtain ⟨f, p, c, hk, hgoes⟩ := seq_through a k frames pos caps e found hfirst
      exact ⟨f, p, c, hk, .first hgoes⟩
    · obtain ⟨f, p, c, hk, hgoes⟩ := alts_through alt k frames pos caps e found hrest
      exact ⟨f, p, c, hk, .other hgoes⟩

theorem seq_through (ns : List RxNode) : Through T (.seq ns) (matchSeq T ns) := by
  intro k frames pos caps e found h
  cases ns with
  | nil => exact ⟨frames, pos, caps, by simpa only [matchSeq] using h, .nil⟩
  | cons n ns =>
    rw [matchSeq] at h
    obtain ⟨f, p, c, hnext, hturns⟩ := turns_through T n (node_through n) 0 _ _ _ _ _ _ h
    obtain ⟨f', p', c', hk, hrest⟩ := seq_through ns k f p c e found hnext
    exact ⟨f', p', c', hk, .cons hturns hrest⟩

end

end Goes

end Zelr.Js
