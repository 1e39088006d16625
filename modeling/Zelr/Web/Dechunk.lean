import Zelr.Web.Url

/-!
# Chunked bodies

`wh_dechunk`, which makes a chunked body plain in the buffer that it is in. The arithmetic is that of an `int`, which
has no sum past its end.
-/

namespace Zelr.Web

variable {w r k : Nat} {body : Bytes}

inductive Fault
  | overflow
  /-- a byte that is not in the body -/
  | outside
  | forever
  deriving DecidableEq

/-! ## The program -/

def hexDigit (c : UInt8) : Option Nat :=
  if 48 ≤ c ∧ c ≤ 57 then some (c.toNat - 48)
  else if 97 ≤ c ∧ c ≤ 102 then some (c.toNat - 97 + 10)
  else if 65 ≤ c ∧ c ≤ 70 then some (c.toNat - 65 + 10)
  else none

def whHexFrom (v : Nat) : Bytes → Except Fault (Nat × Nat)
  | [] => .ok (v, 0)
  | c :: s =>
    match hexDigit c with
    | none => .ok (v, 0)
    | some d => if v * 16 + d < 2 ^ 31 then (whHexFrom (v * 16 + d) s).map fun r => (r.1, r.2 + 1) else .error .overflow

def whHex (s : Bytes) : Except Fault (Nat × Nat) := whHexFrom 0 s

def plus (a b : Nat) : Except Fault Nat := if a + b < 2 ^ 31 then .ok (a + b) else .error .overflow

def whMove : Nat → Nat → Nat → Bytes → Except Fault Bytes
  | 0, _, _, body => .ok body
  | size + 1, w, r, body =>
    if r < body.length ∧ w < body.length then whMove size (w + 1) (r + 1) (body.set w (byteAt body r))
    else .error .outside

def lineEnd (body : Bytes) (r : Nat) : Nat := r + ((body.drop r).takeWhile (· ≠ LF)).length

def pastEnds (body : Bytes) (r : Nat) : Nat := r + ((body.drop r).takeWhile fun c => c = CR ∨ c = LF).length

def dechunkLoop : Nat → Bytes → Nat → Nat → Except Fault (Int × Bytes)
  | 0, _, _, _ => .error .forever
  | k + 1, body, r, w => do
    let (size, used) ← whHex (body.drop r)
    if used = 0 then return (if w = 0 then -1 else (w : Int), body)
    let r ← plus (lineEnd body (r + used)) 1
    if size = 0 then return (w, body)
    let stop ← plus r size
    if stop > body.length then
      -- the last piece is short
      let size := body.length - r
      let body ← whMove size w r body
      return (w + size, body)
    let body ← whMove size w r body
    dechunkLoop k body (pastEnds body stop) (w + size)

def whDechunk (body : Bytes) : Except Fault (Int × Bytes) := dechunkLoop (body.length + 1) body 0 0

/-! ## What a chunked body is -/

def isHex (c : UInt8) : Bool := (hexDigit c).isSome

def hexFrom (v : Nat) (digits : Bytes) : Nat := digits.foldl (fun v c => v * 16 + (hexDigit c).getD 0) v

def Says (digits : Bytes) (n : Nat) : Prop := digits ≠ [] ∧ (∀ c ∈ digits, isHex c = true) ∧ hexFrom 0 digits = n

def Extension (ext : Bytes) : Prop := (∀ c ∈ ext.head?, isHex c = false) ∧ LF ∉ ext

/-- The encodings of a body in pieces of any sizes, with extensions and with anything for a trailer. -/
inductive Chunked : Bytes → Bytes → Prop
  | last {digits ext trailer : Bytes} : Says digits 0 → Extension ext →
      Chunked [] (digits ++ (ext ++ CR :: LF :: trailer))
  | piece {digits ext data plain rest : Bytes} : Says digits data.length → data ≠ [] → Extension ext → Chunked plain rest →
      Chunked (data ++ plain) (digits ++ (ext ++ CR :: LF :: (data ++ CR :: LF :: rest)))

/-! ## Its sizes -/

def digitsAt (body : Bytes) (p : Nat) : Bytes := (body.drop p).takeWhile isHex

def sizeAt (body : Bytes) (p : Nat) : Nat := hexFrom 0 (digitsAt body p)

def dataAt (body : Bytes) (p : Nat) : Nat := lineEnd body (p + (digitsAt body p).length) + 1

/-- The places where a size is looked for, from `p` on: piece after piece, while there are more and they are whole. -/
inductive Meets (body : Bytes) : Nat → Nat → Prop
  | here {p : Nat} : Meets body p p
  | next {p q : Nat} : digitsAt body p ≠ [] → sizeAt body p ≠ 0 → dataAt body p + sizeAt body p ≤ body.length →
      Meets body (pastEnds body (dataAt body p + sizeAt body p)) q → Meets body p q

/-- Every size that the pieces say is below `2 ^ 31` together with the place where its data begins. -/
def SizesFit (body : Bytes) : Prop :=
  ∀ p, Meets body 0 p → digitsAt body p ≠ [] → dataAt body p + sizeAt body p < 2 ^ 31

/-! ## The claims -/

/-- Nothing overflows, no byte but the body's is read or written, and it ends. -/
def DechunkSafe (body : Bytes) : Prop := ∃ r, whDechunk body = .ok r

/-- The plain body comes out, if the body is an encoding of it. -/
def DechunkExact (body : Bytes) : Prop :=
  ∀ plain, Chunked plain body → ∃ after, whDechunk body = .ok (plain.length, after) ∧ after.take plain.length = plain

/-! ## Sizes -/

theorem le_hexFrom (v : Nat) (digits : Bytes) : v ≤ hexFrom v digits := by
  induction digits generalizing v with
  | nil => exact le_rfl
  | cons c digits ih => exact le_trans (by omega) (ih (v * 16 + (hexDigit c).getD 0))

theorem whHexFrom_eq {v : Nat} {s : Bytes} (hv : v < 2 ^ 31) :
    whHexFrom v s =
      if hexFrom v (s.takeWhile isHex) < 2 ^ 31 then .ok (hexFrom v (s.takeWhile isHex), (s.takeWhile isHex).length)
      else .error .overflow := by
  induction s generalizing v with
  | nil =>
    exact (if_pos hv).symm
  | cons c s ih =>
    rw [whHexFrom]
    cases hc : hexDigit c with
    | none =>
      have hno : ¬ isHex c = true := by simp [isHex, hc]
      rw [List.takeWhile_cons_of_neg hno]
      exact (if_pos hv).symm
    | some d =>
      have hyes : isHex c = true := by simp [isHex, hc]
      have hstep : hexFrom v (c :: s.takeWhile isHex) = hexFrom (v * 16 + d) (s.takeWhile isHex) := by
        simp [hexFrom, hc]
      rw [List.takeWhile_cons_of_pos hyes, hstep]
      dsimp only
      by_cases hfits : v * 16 + d < 2 ^ 31
      · rw [if_pos hfits, ih hfits]
        split <;> rfl
      · have hle := le_hexFrom (v * 16 + d) (s.takeWhile isHex)
        rw [if_neg hfits, if_neg (by omega)]

theorem whHex_eq (body : Bytes) (p : Nat) :
    whHex (body.drop p) = if sizeAt body p < 2 ^ 31 then .ok (sizeAt body p, (digitsAt body p).length) else .error .overflow :=
  whHexFrom_eq (by decide)

/-! ## Moving -/

def moved (body : Bytes) (w r size : Nat) : Bytes := body.take w ++ (body.drop r).take size ++ body.drop (w + size)

theorem whMove_eq {size : Nat} (hw : w ≤ r) (hr : r + size ≤ body.length) :
    whMove size w r body = .ok (moved body w r size) := by
  unfold moved
  induction size generalizing w r body with
  | zero => rw [whMove, List.take_zero, List.append_nil, Nat.add_zero, List.take_append_drop]
  | succ size ih =>
    rw [whMove, if_pos (by omega), ih (by omega) (by rw [List.length_set]; omega)]
    have hlt : r < body.length := by omega
    have hbyte : byteAt body r = body[r] := List.getD_eq_getElem _ _ hlt
    have htake : (body.set w (byteAt body r)).take (w + 1) = body.take w ++ [body[r]] := by
      rw [List.take_succ_eq_append_getElem (by rw [List.length_set]; omega), List.getElem_set_self, hbyte,
        List.take_set_of_le le_rfl]
    have hmoved : (body.set w (byteAt body r)).drop (r + 1) = body.drop (r + 1) := List.drop_set_of_lt (by omega)
    have hbehind : (body.set w (byteAt body r)).drop (w + 1 + size) = body.drop (w + (size + 1)) := by
      rw [List.drop_set_of_lt (by omega)]
      congr 1
      omega
    rw [htake, hmoved, hbehind, List.drop_eq_getElem_cons hlt, List.take_succ_cons]
    simp only [List.append_assoc, List.cons_append, List.nil_append]

section

variable {body : Bytes} {w r size : Nat}

theorem moved_length (hw : w ≤ r) (hr : r + size ≤ body.length) : (moved body w r size).length = body.length := by
  simp only [moved, List.length_append, List.length_take, List.length_drop]
  omega

theorem moved_take (hw : w ≤ r) (hr : r + size ≤ body.length) :
    (moved body w r size).take (w + size) = body.take w ++ (body.drop r).take size := by
  apply List.take_left'
  simp only [List.length_append, List.length_take, List.length_drop]
  omega

theorem moved_drop {p : Nat} (hw : w ≤ r) (hr : r + size ≤ body.length) (hp : w + size ≤ p) :
    (moved body w r size).drop p = body.drop p := by
  have hfront : (body.take w ++ (body.drop r).take size).length = w + size := by
    simp only [List.length_append, List.length_take, List.length_drop]
    omega
  rw [moved, List.drop_append, hfront, List.drop_of_length_le (by omega), List.nil_append, List.drop_drop]
  congr 1
  omega

end

/-! ## A turn of the loop -/

theorem lt_dataAt (body : Bytes) (p : Nat) : p < dataAt body p := by
  unfold dataAt lineEnd
  omega

theorem dechunkLoop_turn (hw : w ≤ r) :
    dechunkLoop (k + 1) body r w =
      if digitsAt body r = [] then .ok (if w = 0 then -1 else (w : Int), body)
      else if ¬ dataAt body r + sizeAt body r < 2 ^ 31 then .error .overflow
      else if sizeAt body r = 0 then .ok (w, body)
      else if dataAt body r + sizeAt body r > body.length then
        .ok (w + (body.length - dataAt body r : Nat), moved body w (dataAt body r) (body.length - dataAt body r))
      else
        dechunkLoop k (moved body w (dataAt body r) (sizeAt body r))
          (pastEnds (moved body w (dataAt body r) (sizeAt body r)) (dataAt body r + sizeAt body r)) (w + sizeAt body r) := by
  have hdata := lt_dataAt body r
  have hline : lineEnd body (r + (digitsAt body r).length) + 1 = dataAt body r := rfl
  rw [dechunkLoop, whHex_eq]
  by_cases hnil : digitsAt body r = []
  · have hzero : sizeAt body r = 0 := by rw [sizeAt, hnil]; rfl
    rw [if_pos hnil, hzero, hnil]
    rfl
  rw [if_neg hnil]
  have hused : ¬ (digitsAt body r).length = 0 := fun h => hnil (List.length_eq_zero_iff.mp h)
  by_cases hnum : sizeAt body r < 2 ^ 31
  · rw [if_pos hnum]
    dsimp only [bind, Except.bind, pure, Except.pure]
    rw [if_neg hused, plus, hline]
    by_cases hplace : dataAt body r < 2 ^ 31
    · rw [if_pos hplace]
      dsimp only
      by_cases hzero : sizeAt body r = 0
      · rw [if_pos hzero, if_neg (by omega), if_pos hzero]
      rw [if_neg hzero, plus]
      by_cases hfits : dataAt body r + sizeAt body r < 2 ^ 31
      · rw [if_pos hfits, if_neg (not_not_intro hfits), if_neg hzero]
        dsimp only
        by_cases hshort : dataAt body r + sizeAt body r > body.length
        · rw [if_pos hshort, if_pos hshort]
          by_cases hend : dataAt body r ≤ body.length
          · rw [whMove_eq (by omega) (by omega)]
          · -- the line with the size does not end
            have hnone : body.length - dataAt body r = 0 := by omega
            rw [hnone, whMove, moved, List.take_zero, List.append_nil, Nat.add_zero, List.take_append_drop]
        · rw [if_neg hshort, if_neg hshort, whMove_eq (by omega) (by omega)]
      · rw [if_neg hfits, if_pos hfits]
    · rw [if_neg hplace, if_pos (by omega)]
  · have hbig : ¬ dataAt body r + sizeAt body r < 2 ^ 31 := by omega
    rw [if_neg hnum, if_pos hbig]
    rfl

/-! ## Safe -/

section

variable {body b : Bytes} {p r : Nat}

theorem drop_same (hsame : b.drop r = body.drop r) (hp : r ≤ p) : b.drop p = body.drop p := by
  obtain ⟨m, rfl⟩ := Nat.exists_eq_add_of_le hp
  rw [← List.drop_drop, ← List.drop_drop, hsame]

theorem line_same (hsame : b.drop r = body.drop r) :
    digitsAt b r = digitsAt body r ∧ sizeAt b r = sizeAt body r ∧ dataAt b r = dataAt body r := by
  have hdigits : digitsAt b r = digitsAt body r := by rw [digitsAt, hsame, digitsAt]
  refine ⟨hdigits, by rw [sizeAt, hdigits, sizeAt], ?_⟩
  rw [dataAt, hdigits, lineEnd, drop_same hsame (Nat.le_add_right _ _)]
  rfl

theorem le_pastEnds (body : Bytes) (p : Nat) : p ≤ pastEnds body p := Nat.le_add_right _ _

theorem meets_iff {q : Nat} : Meets body p q ↔
    q = p ∨ digitsAt body p ≠ [] ∧ sizeAt body p ≠ 0 ∧ dataAt body p + sizeAt body p ≤ body.length ∧
      Meets body (pastEnds body (dataAt body p + sizeAt body p)) q := by
  constructor
  · intro h
    cases h with
    | here => exact .inl rfl
    | next hdigits hsize hwhole hrest => exact .inr ⟨hdigits, hsize, hwhole, hrest⟩
  · rintro (rfl | ⟨hdigits, hsize, hwhole, hrest⟩)
    · exact .here
    · exact .next hdigits hsize hwhole hrest

theorem dechunkLoop_safe_iff (hlen : b.length = body.length) (hsame : b.drop r = body.drop r) (hw : w ≤ r)
    (hk : body.length - r < k) :
    (∃ x, dechunkLoop k b r w = .ok x) ↔
      ∀ p, Meets body r p → digitsAt body p ≠ [] → dataAt body p + sizeAt body p < 2 ^ 31 := by
  induction k generalizing b r w with
  | zero => exact absurd hk (Nat.not_lt_zero _)
  | succ k ih =>
    obtain ⟨hdigits, hsize, hdata⟩ := line_same hsame
    have hplace := lt_dataAt body r
    rw [dechunkLoop_turn hw, hdigits, hsize, hdata, hlen]
    by_cases hnil : digitsAt body r = []
    · rw [if_pos hnil]
      refine iff_of_true ⟨_, rfl⟩ fun p hp hne => ?_
      rcases meets_iff.mp hp with rfl | ⟨h, -⟩
      · exact absurd hnil hne
      · exact absurd hnil h
    rw [if_neg hnil]
    by_cases hfits : dataAt body r + sizeAt body r < 2 ^ 31
    · rw [if_neg (not_not_intro hfits)]
      by_cases hzero : sizeAt body r = 0
      · rw [if_pos hzero]
        refine iff_of_true ⟨_, rfl⟩ fun p hp _ => ?_
        rcases meets_iff.mp hp with rfl | ⟨-, h, -⟩
        · exact hfits
        · exact absurd hzero h
      rw [if_neg hzero]
      by_cases hshort : dataAt body r + sizeAt body r > body.length
      · rw [if_pos hshort]
        refine iff_of_true ⟨_, rfl⟩ fun p hp _ => ?_
        rcases meets_iff.mp hp with rfl | ⟨-, -, h, -⟩
        · exact hfits
        · omega
      · -- a whole piece, and what is behind it
        rw [if_neg hshort]
        have hmoved : ∀ p, dataAt body r + sizeAt body r ≤ p →
            (moved b w (dataAt body r) (sizeAt body r)).drop p = body.drop p := fun p hp =>
          (moved_drop (by omega) (by omega) (by omega)).trans (drop_same hsame (by omega))
        have hends : pastEnds (moved b w (dataAt body r) (sizeAt body r)) (dataAt body r + sizeAt body r) =
            pastEnds body (dataAt body r + sizeAt body r) := by
          rw [pastEnds, hmoved _ le_rfl, pastEnds]
        have hpast := le_pastEnds body (dataAt body r + sizeAt body r)
        rw [hends, ih ((moved_length (by omega) (by omega)).trans hlen) (hmoved _ hpast) (by omega) (by omega)]
        constructor
        · intro h p hp hne
          rcases meets_iff.mp hp with rfl | ⟨-, -, -, hrest⟩
          · exact hfits
          · exact h p hrest hne
        · intro h p hp hne
          exact h p (.next hnil hzero (by omega) hp) hne
    · rw [if_pos hfits]
      refine iff_of_false ?_ fun h => hfits (h r .here hnil)
      rintro ⟨x, hx⟩
      cases hx

end

theorem dechunk_safe_iff (body : Bytes) : DechunkSafe body ↔ SizesFit body :=
  dechunkLoop_safe_iff rfl rfl le_rfl (by omega)

/-! ## Exact -/

section

variable {body digits ext rest plain : Bytes} {p r n : Nat}

theorem line_read (hsaid : Says digits n) (hext : Extension ext) (hline : body.drop p = digits ++ (ext ++ CR :: LF :: rest)) :
    digitsAt body p = digits ∧ sizeAt body p = n ∧ dataAt body p = p + digits.length + ext.length + 2 ∧
      body.drop (dataAt body p) = rest := by
  obtain ⟨-, hhex, hnum⟩ := hsaid
  have hdigits : digitsAt body p = digits := by
    have hstop : ¬ ∃ c ∈ (ext ++ CR :: LF :: rest).head?, isHex c = true := by
      rintro ⟨c, hc, hyes⟩
      cases ext with
      | nil =>
        obtain rfl := Option.some.inj hc
        exact absurd hyes (by decide)
      | cons d ext =>
        rw [hext.1 c hc] at hyes
        cases hyes
    rw [digitsAt, hline, List.takeWhile_append_of_pos hhex]
    cases h : ext ++ CR :: LF :: rest with
    | nil => exact List.append_nil _
    | cons c s =>
      have hc : ¬ isHex c = true := fun hyes => hstop ⟨c, by rw [h]; rfl, hyes⟩
      rw [List.takeWhile_cons_of_neg hc, List.append_nil]
  have hbehind : body.drop (p + digits.length) = ext ++ CR :: LF :: rest := by
    rw [← List.drop_drop, hline, List.drop_left]
  have hend : lineEnd body (p + digits.length) = p + digits.length + ext.length + 1 := by
    have hline : ∀ c ∈ ext, decide (c ≠ LF) = true := fun c hc => decide_eq_true fun h => hext.2 (h ▸ hc)
    rw [lineEnd, hbehind, List.takeWhile_append_of_pos hline,
      List.takeWhile_cons_of_pos (by decide), List.takeWhile_cons_of_neg (by decide), List.length_append]
    rfl
  have hdata : dataAt body p = p + digits.length + ext.length + 2 := by rw [dataAt, hdigits, hend]
  refine ⟨hdigits, by rw [sizeAt, hdigits, hnum], hdata, ?_⟩
  rw [hdata, Nat.add_assoc _ ext.length, ← List.drop_drop, hbehind, ← List.drop_drop, List.drop_left]
  rfl

theorem Chunked.head (h : Chunked plain rest) : ∃ c s, rest = c :: s ∧ isHex c = true := by
  have hfirst : ∀ {digits more : Bytes} {n : Nat}, Says digits n → ∃ c s, digits ++ more = c :: s ∧ isHex c = true := by
    rintro digits more n ⟨hne, hhex, -⟩
    obtain ⟨c, digits, rfl⟩ := List.exists_cons_of_ne_nil hne
    exact ⟨c, digits ++ more, rfl, hhex c List.mem_cons_self⟩
  cases h with
  | last hsaid _ => exact hfirst hsaid
  | piece hsaid _ _ _ => exact hfirst hsaid

theorem dechunkLoop_chunked (h : Chunked plain rest) (hrest : body.drop r = rest) (hw : w ≤ r)
    (hk : body.length - r < k) (hlen : body.length < 2 ^ 31) :
    ∃ after, dechunkLoop k body r w = .ok ((w + plain.length : Nat), after) ∧
      after.take (w + plain.length) = body.take w ++ plain := by
  induction h generalizing k body r w with
  | @last digits ext trailer hsaid hext =>
    obtain ⟨k, rfl⟩ := Nat.exists_eq_add_one_of_ne_zero (Nat.ne_of_gt (Nat.zero_lt_of_lt hk))
    obtain ⟨hdigits, hsize, hdata, -⟩ := line_read hsaid hext hrest
    have hlength := congrArg List.length hrest
    rw [List.length_drop, List.length_append, List.length_append, List.length_cons, List.length_cons] at hlength
    have hfits : dataAt body r + sizeAt body r < 2 ^ 31 := by omega
    rw [dechunkLoop_turn hw, hdigits, if_neg hsaid.1, if_neg (not_not_intro hfits), if_pos hsize]
    exact ⟨body, rfl, (List.append_nil _).symm⟩
  | @piece digits ext data plain rest hsaid hdata hext hmore ih =>
    obtain ⟨k, rfl⟩ := Nat.exists_eq_add_one_of_ne_zero (Nat.ne_of_gt (Nat.zero_lt_of_lt hk))
    obtain ⟨hdigits, hsize, hplace, hbehind⟩ := line_read hsaid hext hrest
    have hlength := congrArg List.length hbehind
    simp only [List.length_drop, List.length_append, List.length_cons] at hlength
    have hne : data.length ≠ 0 := fun h => hdata (List.length_eq_zero_iff.mp h)
    have hfits : dataAt body r + data.length < 2 ^ 31 := by omega
    rw [dechunkLoop_turn hw, hdigits, hsize, if_neg hsaid.1, if_neg (not_not_intro hfits), if_neg hne, if_neg (by omega)]
    have hle : dataAt body r + data.length ≤ body.length := by omega
    have hmoved := moved_drop (p := dataAt body r + data.length) (show w ≤ dataAt body r by omega) hle (by omega)
    have hnext : body.drop (dataAt body r + data.length) = CR :: LF :: rest := by
      rw [← List.drop_drop, hbehind, List.drop_left]
    obtain ⟨c, s, rfl, hc⟩ := hmore.head
    have hplain : ¬ (c = CR ∨ c = LF) := by
      rintro (rfl | rfl)
      all_goals
        revert hc
        decide
    have hends : pastEnds (moved body w (dataAt body r) data.length) (dataAt body r + data.length) =
        dataAt body r + data.length + 2 := by
      rw [pastEnds, hmoved, hnext, List.takeWhile_cons_of_pos (by decide), List.takeWhile_cons_of_pos (by decide),
        List.takeWhile_cons_of_neg (by simpa using hplain)]
      rfl
    have hfrom : (moved body w (dataAt body r) data.length).drop (dataAt body r + data.length + 2) = c :: s := by
      rw [← List.drop_drop, hmoved, hnext]
      rfl
    have hsame := moved_length (show w ≤ dataAt body r by omega) hle
    obtain ⟨after, hloop, htake⟩ := ih (k := k) (w := w + data.length) hfrom (by omega) (by omega) (by omega)
    have hfront := moved_take (show w ≤ dataAt body r by omega) hle
    rw [hbehind, List.take_left] at hfront
    refine ⟨after, ?_, ?_⟩
    · rw [hends, hloop, List.length_append, Nat.add_assoc]
    · rw [List.length_append, ← Nat.add_assoc, htake, hfront, List.append_assoc]

end

theorem dechunk_exact (hlen : body.length < 2 ^ 31) : DechunkExact body := by
  intro plain h
  have hrest : body.drop 0 = body := rfl
  obtain ⟨after, hloop, htake⟩ := dechunkLoop_chunked h hrest le_rfl (Nat.lt_succ_self _) hlen
  rw [Nat.zero_add] at hloop htake
  exact ⟨after, hloop, htake⟩

/-- It is safe, and makes every encoding plain, exactly where the sizes fit an `int`. -/
theorem dechunk_right_iff {body : Bytes} (hlen : body.length < 2 ^ 31) :
    DechunkSafe body ∧ DechunkExact body ↔ SizesFit body := by
  rw [dechunk_safe_iff]
  exact ⟨fun h => h.1, fun h => ⟨h, dechunk_exact hlen⟩⟩

/-- `ab` in one piece, with an extension. -/
theorem dechunk_right_sample :
    SizesFit (ascii "2;x" ++ [CR, LF] ++ ascii "ab" ++ [CR, LF] ++ ascii "0" ++ [CR, LF, CR, LF]) :=
  (dechunk_right_iff (by decide)).mp ⟨⟨_, rfl⟩, dechunk_exact (by decide)⟩

/-- A size that the body's place cannot be added to. -/
theorem dechunk_overflows : (ascii "7fffffff" ++ [LF] ++ ascii "ab").length < 2 ^ 31 ∧
    ¬ DechunkSafe (ascii "7fffffff" ++ [LF] ++ ascii "ab") := by
  refine ⟨by decide, ?_⟩
  have hfault : whDechunk (ascii "7fffffff" ++ [LF] ++ ascii "ab") = .error .overflow := by decide
  rintro ⟨r, hr⟩
  rw [hfault] at hr
  cases hr

end Zelr.Web
