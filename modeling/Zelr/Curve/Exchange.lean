import Zelr.Curve.X25519

/-!
# The exchange is the specification's

The ladder of RFC 7748 over field elements, and that the program's limbs follow it rung by rung.
-/

namespace Zelr.Curve

variable {scalar : Bytes} {x1 : Fe} {s : Rails} {r : Rung} {k : Nat}

/-! ## The specification -/

structure Rung where
  x2 : ZMod P
  z2 : ZMod P
  x3 : ZMod P
  z3 : ZMod P
  swap : Bool

def cswap (swap : Bool) (a b : ZMod P) : ZMod P × ZMod P := if swap then (b, a) else (a, b)

def Rung.step (x1 : ZMod P) (kt : Bool) (s : Rung) : Rung :=
  let swap := s.swap ^^ kt
  let x := cswap swap s.x2 s.x3
  let z := cswap swap s.z2 s.z3
  let a := x.1 + z.1
  let aa := a ^ 2
  let b := x.1 - z.1
  let bb := b ^ 2
  let e := aa - bb
  let c := x.2 + z.2
  let d := x.2 - z.2
  let da := d * a
  let cb := c * b
  { x3 := (da + cb) ^ 2, z3 := x1 * (da - cb) ^ 2, x2 := aa * bb, z2 := e * (aa + 121665 * e),
    swap := kt }

def Rung.climb (x1 : ZMod P) (k : Nat) : Nat → Rung → Rung
  | 0, s => s
  | t + 1, s => Rung.climb x1 k t (s.step x1 (k.testBit t))

def rfcLadder (k : Nat) (u : ZMod P) : ZMod P :=
  let s := Rung.climb u k 255 ⟨1, 0, u, 1, false⟩
  let x := cswap s.swap s.x2 s.x3
  let z := cswap s.swap s.z2 s.z3
  x.1 * z.1 ^ (P - 2)

def decodeScalar (n : Nat) : Nat := 2 ^ 254 + 8 * (n / 8 % 2 ^ 251)

def decodeUCoordinate (n : Nat) : ZMod P := (n % 2 ^ 255 : Nat)

def rfcX25519 (k u : Key) : ZMod P :=
  rfcLadder (decodeScalar (littleNat k)) (decodeUCoordinate (littleNat u))

/-! ## The ladder -/

/-- The limbs of a state stand for the specification's. -/
structure Matches (s : Rails) (r : Rung) : Prop where
  x2_red : Red s.x2
  z2_red : Red s.z2
  x3_red : Red s.x3
  z3_red : Red s.z3
  x2_val : s.x2.val = r.x2
  z2_val : s.z2.val = r.z2
  x3_val : s.x3.val = r.x3
  z3_val : s.z3.val = r.z3
  swap_eq : s.swap = r.swap.toNat

theorem feCswap_spec {a b : Fe} (swap : Bool) (ha : Red a) (hb : Red b) :
    Red (feCswap a b swap.toNat).1 ∧ Red (feCswap a b swap.toNat).2 ∧
      (feCswap a b swap.toNat).1.val = (cswap swap a.val b.val).1 ∧
      (feCswap a b swap.toNat).2.val = (cswap swap a.val b.val).2 := by
  cases swap with
  | false =>
    rw [Bool.toNat_false, feCswap_false]
    exact ⟨ha, hb, rfl, rfl⟩
  | true =>
    rw [Bool.toNat_true, feCswap_true ha hb]
    exact ⟨hb, ha, rfl, rfl⟩

section Carried

variable {f g : Fe} {α : Type} {k : Fe → Option α} {q : α → Prop}

theorem sum_andThen (hf : Red f) (hg : Red g)
    (hk : ∀ h, Red h → h.val = f.val + g.val → ∃ a, k h = some a ∧ q a) :
    ∃ a, (feAdd f g >>= fun t => feCarry t >>= k) = some a ∧ q a := by
  obtain ⟨t, ht, hl, hv⟩ := feAdd_spec hf hg
  rw [ht, Option.bind_eq_bind, Option.bind_some]
  rw [← hv] at hk
  exact (feCarry_spec hl).andThen hk

theorem difference_andThen (hf : Red f) (hg : Red g)
    (hk : ∀ h, Red h → h.val = f.val - g.val → ∃ a, k h = some a ∧ q a) :
    ∃ a, (feSub f g >>= fun t => feCarry t >>= k) = some a ∧ q a := by
  obtain ⟨t, ht, hl, hv⟩ := feSub_spec hf hg
  rw [ht, Option.bind_eq_bind, Option.bind_some]
  rw [← hv] at hk
  exact (feCarry_spec hl).andThen hk

end Carried

theorem ladderStep_spec {pos : Nat} {kt : Bool}
    (hx1 : Red x1) (hbit : scalarBit scalar pos = kt.toNat) (h : Matches s r) :
    ∃ s', ladderStep scalar x1 pos s = some s' ∧ Matches s' (r.step x1.val kt) := by
  obtain ⟨rx2, rz2, rx3, rz3, vx2, vz2, vx3, vz3, hswap⟩ := h
  have hxor : s.swap ^^^ scalarBit scalar pos = (r.swap ^^ kt).toNat := by
    rw [hswap, hbit]
    cases r.swap <;> cases kt <;> rfl
  obtain ⟨hx2, hx3, ex2, ex3⟩ := feCswap_spec (r.swap ^^ kt) rx2 rx3
  obtain ⟨hz2, hz3, ez2, ez3⟩ := feCswap_spec (r.swap ^^ kt) rz2 rz3
  rw [vx2, vx3] at ex2 ex3
  rw [vz2, vz3] at ez2 ez3
  unfold ladderStep Rung.step
  simp only [hxor]
  generalize feCswap s.x2 s.x3 (r.swap ^^ kt).toNat = xs at hx2 hx3 ex2 ex3 ⊢
  generalize feCswap s.z2 s.z3 (r.swap ^^ kt).toNat = zs at hz2 hz3 ez2 ez3 ⊢
  rw [← ex2, ← ex3, ← ez2, ← ez3]
  -- The limbs of each line of the loop, reduced and standing for that line's element.
  refine sum_andThen hx2 hz2 fun a ha ea => ?_
  refine (feSq_spec ha).andThen fun aa haa eaa => ?_
  refine difference_andThen hx2 hz2 fun b hb eb => ?_
  refine (feSq_spec hb).andThen fun bb hbb ebb => ?_
  refine difference_andThen haa hbb fun e he ee => ?_
  refine sum_andThen hx3 hz3 fun c hc ec => ?_
  refine difference_andThen hx3 hz3 fun d hd ed => ?_
  refine (feMul_spec hd ha).andThen fun da hda eda => ?_
  refine (feMul_spec hc hb).andThen fun cb hcb ecb => ?_
  refine sum_andThen hda hcb fun s1 hs1 es1 => ?_
  refine (feSq_spec hs1).andThen fun x3 hx3' ex3' => ?_
  refine difference_andThen hda hcb fun d1 hd1 ed1 => ?_
  refine (feSq_spec hd1).andThen fun d2 hd2 ed2 => ?_
  refine (feMul_spec hx1 hd2).andThen fun z3 hz3' ez3' => ?_
  refine (feMul_spec haa hbb).andThen fun x2 hx2' ex2' => ?_
  refine (feMul121665_spec he).andThen fun m hm em => ?_
  refine sum_andThen hm haa fun w hw ew => ?_
  refine (feMul_spec he hw).andThen fun z2 hz2' ez2' => ?_
  refine ⟨_, rfl, hx2', hz2', hx3', hz3', ?_, ?_, ?_, ?_, hbit⟩
  · rw [ex2', eaa, ebb, ea, eb]
  · rw [ez2', ew, em, ee, eaa, ebb, ea, eb, add_comm (121665 * _)]
  · rw [ex3', es1, eda, ecb, ec, ed, ea, eb]
  · rw [ez3', ed2, ed1, eda, ecb, ec, ed, ea, eb]

theorem ladderFrom_spec (hx1 : Red x1)
    (hbit : ∀ pos, scalarBit scalar pos = (k.testBit pos).toNat) (n : Nat)
    (h : Matches s r) :
    ∃ s', ladderFrom scalar x1 n s = some s' ∧ Matches s' (Rung.climb x1.val k n r) := by
  induction n generalizing s r with
  | zero => exact ⟨s, rfl, h⟩
  | succ n ih =>
    obtain ⟨s', hs', hnext⟩ := ladderStep_spec hx1 (hbit n) h
    rw [ladderFrom, hs', Rung.climb]
    exact ih hnext

/-! ## The scalar -/

theorem scalarBit_eq (scalar : Bytes) (pos : Nat) :
    scalarBit scalar pos = ((littleNat scalar).testBit pos).toNat := by
  unfold scalarBit
  rw [Nat.and_one_is_mod, Nat.shiftRight_eq_div_pow, Nat.shiftRight_eq_div_pow,
    show 7 = 2 ^ 3 - 1 from rfl, Nat.and_two_pow_sub_one_eq_mod, Nat.toNat_testBit]
  exact byteAt_bit scalar pos

theorem clear_low (b : UInt8) : (b &&& 248).toNat = b.toNat / 8 * 8 := by
  have hall : ∀ n < 256, n &&& 248 = n / 8 * 8 := by decide +kernel
  rw [UInt8.toNat_and]
  exact hall _ b.toNat_lt

theorem set_top (b : UInt8) : (b &&& 127 ||| 64).toNat = b.toNat % 64 + 64 := by
  have hall : ∀ n < 256, n &&& 127 ||| 64 = n % 64 + 64 := by decide +kernel
  rw [UInt8.toNat_or, UInt8.toNat_and]
  exact hall _ b.toNat_lt

theorem clamp_eq (k : Key) : littleNat (clamp k) = decodeScalar (littleNat k) := by
  obtain ⟨bs, hlen⟩ := k
  obtain ⟨b, rest, rfl⟩ := List.exists_cons_of_length_eq_add_one hlen
  obtain ⟨mid, t, rfl⟩ : ∃ mid t, rest = mid ++ [t] := by
    have hne : rest ≠ [] := by
      rintro rfl
      simp at hlen
    exact ⟨_, _, (List.dropLast_append_getLast hne).symm⟩
  have hmid : mid.length = 30 := by simpa using hlen
  have hclamp : clamp (b :: (mid ++ [t])) = (b &&& 248) :: (mid ++ [t &&& 127 ||| 64]) := by
    simp [clamp, byteAt, hmid]
  have hm := littleNat_lt mid
  have hb := b.toNat_lt
  have ht := t.toNat_lt
  simp only [hclamp, littleNat, littleNat_append, hmid, clear_low, set_top] at hm ⊢
  unfold decodeScalar
  omega

/-! ## The answer -/

theorem allZero_iff (p : Bytes) : allZero p = true ↔ ∀ b ∈ p, b = 0 := by
  have hfold := foldl_or_eq_zero p id 0
  rw [allZero, beq_iff_eq]
  exact hfold.trans (and_iff_right rfl)

theorem littleBytes_zero (k : Nat) : littleBytes k 0 = List.replicate k 0 := by
  apply List.ext_getElem (by simp)
  intro i h1 h2
  simp [littleBytes]

theorem allZero_littleBytes {n : Nat} (h : n < 256 ^ k) :
    allZero (littleBytes k n) = true ↔ n = 0 := by
  rw [allZero_iff]
  constructor
  · intro hall
    have hzero : littleBytes k n = littleBytes k 0 := by
      rw [littleBytes_zero]
      exact List.eq_replicate_iff.mpr ⟨littleBytes_length k n, hall⟩
    have hnat := congrArg littleNat hzero
    rw [littleNat_littleBytes, littleNat_littleBytes, Nat.mod_eq_of_lt h] at hnat
    rw [hnat, Nat.zero_mod]
  · rintro rfl b hb
    rw [littleBytes_zero] at hb
    exact List.eq_of_mem_replicate hb

theorem ladder_spec {scalar : Bytes} {x1 : Fe} (hx1 : Red x1) :
    ∃ x z, ladder scalar x1 = some (x, z) ∧ Red x ∧ Red z ∧
      x.val * z.val ^ (P - 2) = rfcLadder (littleNat scalar) x1.val := by
  have hstart : Matches ⟨feOne, feZero, x1, feOne, 0⟩ ⟨1, 0, x1.val, 1, false⟩ :=
    ⟨feOne_red, feZero_red, hx1, feOne_red, feOne_val, feZero_val, rfl, feOne_val, rfl⟩
  unfold ladder rfcLadder
  obtain ⟨s, hs, hmatch⟩ := ladderFrom_spec hx1 (scalarBit_eq scalar) 255 hstart
  generalize Rung.climb x1.val (littleNat scalar) 255 ⟨1, 0, x1.val, 1, false⟩ = r at hmatch ⊢
  obtain ⟨rx2, rz2, rx3, rz3, vx2, vz2, vx3, vz3, hswap⟩ := hmatch
  obtain ⟨hx, -, ex, -⟩ := feCswap_spec r.swap rx2 rx3
  obtain ⟨hz, -, ez, -⟩ := feCswap_spec r.swap rz2 rz3
  rw [hs, Option.bind_eq_bind, Option.bind_some, hswap]
  refine ⟨_, _, rfl, hx, hz, ?_⟩
  rw [ex, ez, vx2, vz2, vx3, vz3]

theorem x25519_rfc (secret peer : Key) :
    x25519 secret peer =
      some (decide (rfcX25519 secret peer ≠ 0), littleBytes 32 (rfcX25519 secret peer).val) := by
  have hx1 := feFrombytes_red peer
  have hu : (feFrombytes peer).val = decodeUCoordinate (littleNat peer) := by
    rw [Fe.val, feFrombytes_nat, decodeUCoordinate]
  obtain ⟨x, z, hladder, hx, hz, hval⟩ := @ladder_spec (clamp secret) _ hx1
  rw [clamp_eq, hu] at hval
  have hanswer : x.val * z.val ^ (P - 2) = rfcX25519 secret peer := hval
  generalize rfcX25519 secret peer = u at hanswer ⊢
  obtain ⟨zi, hzi, hzired, hzival⟩ := feInvert_spec hz
  obtain ⟨out, hout, houtred, houtval⟩ := feMul_spec hx hzired
  have hbytes := feTobytes_spec houtred
  rw [houtval, hzival, hanswer] at hbytes
  have hlt : u.val < 256 ^ 32 := (ZMod.val_lt u).trans (by decide)
  unfold x25519
  dsimp only
  rw [hladder, Option.bind_eq_bind, Option.bind_some]
  dsimp only
  rw [hzi, Option.bind_eq_bind, Option.bind_some, hout, Option.bind_eq_bind, Option.bind_some, hbytes,
    Option.bind_some]
  by_cases hu0 : u = 0
  · have hzero : allZero (littleBytes 32 u.val) = true :=
      (allZero_littleBytes hlt).mpr ((ZMod.val_eq_zero u).mpr hu0)
    rw [if_pos hzero, decide_eq_false (not_not.mpr hu0), hu0, ZMod.val_zero, littleBytes_zero]
    rfl
  · have hnonzero : allZero (littleBytes 32 u.val) ≠ true := by
      rw [ne_eq, allZero_littleBytes hlt, ZMod.val_eq_zero]
      exact hu0
    rw [if_neg hnonzero, decide_eq_true hu0]
    rfl

end Zelr.Curve
