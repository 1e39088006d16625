import Zelr.Base.Bytes
import Mathlib.Data.List.Basic

/-!
# Hashes that go block by block

A hash that pads its message to whole blocks of sixty-four bytes and folds a compression function over
them, and the running form of it, which keeps the bytes of a block that is not full yet.
-/

namespace Zelr.Merkle

variable {σ : Type} (compress : σ → Bytes → σ)

def BLOCK : Nat := 64

/-- The first `n` blocks of a message. -/
def blocks : Nat → Bytes → List Bytes
  | 0, _ => []
  | n + 1, m => m.take BLOCK :: blocks n (m.drop BLOCK)

def pad (m : Bytes) : Bytes :=
  m ++ 0x80 :: List.replicate ((119 - m.length % BLOCK) % BLOCK) 0 ++ beBytes 8 (m.length * 8)

def hash (iv : σ) (m : Bytes) : σ := (blocks ((pad m).length / BLOCK) (pad m)).foldl compress iv

/-! ## Going along -/

/-- The state after the whole blocks there have been, and what has come of the next one. -/
structure Running (σ : Type) where
  h : σ
  bits : UInt64
  buf : Bytes

def feed : Nat → σ → Bytes → Bytes → σ × Bytes
  | 0, h, buf, _ => (h, buf)
  | n + 1, h, buf, data =>
    if data = [] then (h, buf)
    else
      let take := min data.length (BLOCK - buf.length)
      let buf := buf ++ data.take take
      if buf.length = BLOCK then feed n (compress h buf) [] (data.drop take)
      else feed n h buf (data.drop take)

def update (s : Running σ) (data : Bytes) : Running σ :=
  let r := feed compress data.length s.h s.buf data
  ⟨r.1, s.bits + UInt64.ofNat data.length * 8, r.2⟩

/-- `s` has been given the message `m` and nothing else. -/
structure Given (iv : σ) (m : Bytes) (h : σ) (buf : Bytes) : Prop where
  state : h = (blocks (m.length / BLOCK) m).foldl compress iv
  rest : buf = m.drop (m.length / BLOCK * BLOCK)

variable {compress} {iv h : σ} {m buf : Bytes}

theorem Given.length (hs : Given compress iv m h buf) : buf.length = m.length % BLOCK := by
  rw [hs.rest, List.length_drop]
  unfold BLOCK
  omega

theorem blocks_append (n : Nat) (a b : Bytes) (hn : n * BLOCK ≤ a.length) :
    blocks n (a ++ b) = blocks n a := by
  induction n generalizing a with
  | zero => rfl
  | succ n ih =>
    have hone : BLOCK ≤ a.length := by
      unfold BLOCK at hn ⊢
      omega
    rw [blocks, blocks, List.take_append_of_le_length hone, List.drop_append_of_le_length hone, ih]
    rw [List.length_drop]
    unfold BLOCK at hn ⊢
    omega

theorem blocks_succ (n : Nat) (m : Bytes) :
    blocks (n + 1) m = blocks n m ++ [(m.drop (n * BLOCK)).take BLOCK] := by
  induction n generalizing m with
  | zero => simp [blocks]
  | succ n ih =>
    rw [blocks, ih, blocks, List.drop_drop, List.cons_append, Nat.succ_mul, Nat.add_comm BLOCK]

theorem Given.more (hs : Given compress iv m h buf) {data : Bytes} (hdata : buf.length + data.length < BLOCK) :
    Given compress iv (m ++ data) h (buf ++ data) := by
  have hlen := hs.length
  have hdiv : (m ++ data).length / BLOCK = m.length / BLOCK := by
    rw [List.length_append]
    unfold BLOCK at hlen hdata ⊢
    omega
  have hle : m.length / BLOCK * BLOCK ≤ m.length := Nat.div_mul_le_self _ _
  refine ⟨?_, ?_⟩
  · rw [hdiv, blocks_append _ _ _ hle]
    exact hs.state
  · rw [hdiv, List.drop_append_of_le_length hle, ← hs.rest]

theorem Given.full (hs : Given compress iv m h buf) {data : Bytes} (hdata : buf.length + data.length = BLOCK) :
    Given compress iv (m ++ data) (compress h (buf ++ data)) [] := by
  have hlen := hs.length
  have hdiv : (m ++ data).length / BLOCK = m.length / BLOCK + 1 := by
    rw [List.length_append]
    unfold BLOCK at hlen hdata ⊢
    omega
  have hle : m.length / BLOCK * BLOCK ≤ m.length := Nat.div_mul_le_self _ _
  have hblock : ((m ++ data).drop (m.length / BLOCK * BLOCK)).take BLOCK = buf ++ data := by
    rw [List.drop_append_of_le_length hle, ← hs.rest, List.take_of_length_le]
    rw [List.length_append]
    omega
  refine ⟨?_, ?_⟩
  · rw [hdiv, blocks_succ, hblock, List.foldl_append, blocks_append _ _ _ hle, ← hs.state]
    rfl
  · rw [hdiv, List.drop_eq_nil_of_le]
    rw [List.length_append]
    unfold BLOCK at hlen hdata ⊢
    omega

theorem Given.feed (hs : Given compress iv m h buf) {n : Nat} {data : Bytes} (hn : data.length ≤ n) :
    Given compress iv (m ++ data) (feed compress n h buf data).1 (feed compress n h buf data).2 := by
  induction n generalizing m h buf data with
  | zero =>
    have hnil : data = [] := List.length_eq_zero_iff.mp (by omega)
    rw [hnil, List.append_nil]
    exact hs
  | succ n ih =>
    rw [Merkle.feed]
    split
    next hnil =>
      rw [hnil, List.append_nil]
      exact hs
    next hne =>
      have hpos := List.length_pos_iff.mpr hne
      have hroom := hs.length
      have hlt : m.length % BLOCK < BLOCK := Nat.mod_lt _ (by decide)
      have hsplit : m ++ data = m ++ data.take (min data.length (BLOCK - buf.length)) ++
          data.drop (min data.length (BLOCK - buf.length)) := by
        rw [List.append_assoc, List.take_append_drop]
      have htake : (data.take (min data.length (BLOCK - buf.length))).length =
          min data.length (BLOCK - buf.length) := by
        rw [List.length_take]
        omega
      have hrest : (data.drop (min data.length (BLOCK - buf.length))).length ≤ n := by
        rw [List.length_drop]
        omega
      rw [hsplit]
      dsimp only
      split
      next hfull =>
        rw [List.length_append] at hfull
        exact ih (hs.full hfull) hrest
      next hfull =>
        rw [List.length_append] at hfull
        exact ih (hs.more (by omega)) hrest

theorem Given.updates {s : Running σ} (hs : Given compress iv m s.h s.buf) (pieces : List Bytes) :
    Given compress iv (m ++ pieces.flatten) (pieces.foldl (update compress) s).h
      (pieces.foldl (update compress) s).buf := by
  induction pieces generalizing s m with
  | nil =>
    rw [List.flatten_nil, List.append_nil]
    exact hs
  | cons d ds ih =>
    rw [List.flatten_cons, ← List.append_assoc]
    exact ih (hs.feed le_rfl)

theorem updates_bits (s : Running σ) (pieces : List Bytes) :
    (pieces.foldl (update compress) s).bits = s.bits + UInt64.ofNat pieces.flatten.length * 8 := by
  induction pieces generalizing s with
  | nil => simp
  | cons d ds ih =>
    rw [List.foldl_cons, ih, List.flatten_cons, List.length_append, UInt64.ofNat_add]
    rw [update]
    dsimp only
    rw [UInt64.add_mul, UInt64.add_assoc]

theorem given_nil (iv : σ) : Given compress iv [] iv [] := ⟨rfl, rfl⟩

theorem Given.hash (hs : Given compress iv (pad m) h buf) : h = hash compress iv m := hs.state

/-! ## Padding as it goes -/

/-- Zeros, one update each, until there is room for the length and no more; `after` is what is done to the
state after each. -/
def zeros (compress : σ → Bytes → σ) (after : Running σ → Running σ) : Nat → Running σ → Running σ
  | 0, s => s
  | n + 1, s =>
    if s.buf.length = BLOCK - 8 then s else zeros compress after n (after (update compress s [0]))

theorem Given.zeros {after : Running σ → Running σ} (hafter : ∀ s, (after s).h = s.h ∧ (after s).buf = s.buf)
    {n : Nat} {s : Running σ} (hs : Given compress iv m s.h s.buf) (hn : (120 - m.length % BLOCK) % BLOCK ≤ n) :
    Given compress iv (m ++ List.replicate ((120 - m.length % BLOCK) % BLOCK) 0)
      (zeros compress after n s).h (zeros compress after n s).buf := by
  induction n generalizing s m with
  | zero =>
    rw [Nat.le_zero.mp hn, List.replicate_zero, List.append_nil]
    exact hs
  | succ n ih =>
    have hlen := hs.length
    rw [Merkle.zeros]
    split
    next hroom =>
      have hnone : (120 - m.length % BLOCK) % BLOCK = 0 := by
        unfold BLOCK at hlen hroom ⊢
        omega
      rw [hnone, List.replicate_zero, List.append_nil]
      exact hs
    next hroom =>
      have hone : (120 - m.length % BLOCK) % BLOCK = (120 - (m ++ [0]).length % BLOCK) % BLOCK + 1 := by
        rw [List.length_append, List.length_singleton]
        unfold BLOCK at hlen hroom ⊢
        omega
      have hgiven : Given compress iv (m ++ [0]) (after (update compress s [0])).h
          (after (update compress s [0])).buf := by
        rw [(hafter _).1, (hafter _).2]
        exact hs.feed le_rfl
      have hrest := ih hgiven (by omega)
      rw [List.append_assoc, List.singleton_append, ← List.replicate_succ, ← hone] at hrest
      exact hrest

theorem pad_eq (m : Bytes) :
    m ++ [0x80] ++ List.replicate ((120 - (m ++ [0x80]).length % BLOCK) % BLOCK) 0 ++ beBytes 8 (m.length * 8) =
      pad m := by
  have hcount : (120 - (m ++ [(0x80 : UInt8)]).length % BLOCK) % BLOCK = (119 - m.length % BLOCK) % BLOCK := by
    rw [List.length_append, List.length_singleton]
    unfold BLOCK
    omega
  rw [hcount, pad, List.append_assoc m, List.singleton_append]

section Padded

variable {after : Running σ → Running σ} (hafter : ∀ s, (after s).h = s.h ∧ (after s).buf = s.buf)
  {s t : Running σ} (hs : Given compress iv m s.h s.buf)
  (ht : t.h = (update compress s [0x80]).h ∧ t.buf = (update compress s [0x80]).buf)
include hafter hs ht

theorem Given.untilLength :
    Given compress iv (m ++ [0x80] ++ List.replicate ((120 - (m ++ [0x80]).length % BLOCK) % BLOCK) 0)
      (Merkle.zeros compress after 64 t).h (Merkle.zeros compress after 64 t).buf := by
  have hone : Given compress iv (m ++ [0x80]) t.h t.buf := by
    rw [ht.1, ht.2]
    exact hs.feed le_rfl
  exact hone.zeros hafter (Nat.le_of_lt (Nat.mod_lt _ (by decide)))

theorem Given.padded :
    (update compress (Merkle.zeros compress after 64 t) (beBytes 8 (m.length * 8))).h =
      Merkle.hash compress iv m := by
  have hall := @Given.feed _ _ _ _ _ _ (hs.untilLength hafter ht) _ (beBytes 8 (m.length * 8)) le_rfl
  rw [pad_eq] at hall
  exact hall.hash

theorem Given.closed :
    compress (Merkle.zeros compress after 64 t).h
      ((Merkle.zeros compress after 64 t).buf ++ beBytes 8 (m.length * 8)) = Merkle.hash compress iv m := by
  have huntil := hs.untilLength hafter ht
  have hroom := huntil.length
  have hall := @Given.full _ _ _ _ _ _ huntil (beBytes 8 (m.length * 8)) (by
    rw [hroom, beBytes_length]
    simp only [List.length_append, List.length_replicate, List.length_singleton]
    unfold BLOCK
    omega)
  rw [pad_eq] at hall
  exact hall.hash

end Padded

/-! ## Two ways to compress -/

theorem length_of_mem_blocks {n : Nat} {m b : Bytes} (hn : n * BLOCK ≤ m.length) (hb : b ∈ blocks n m) :
    b.length = BLOCK := by
  induction n generalizing m with
  | zero => cases hb
  | succ n ih =>
    rw [Nat.succ_mul] at hn
    obtain rfl | hb := List.mem_cons.mp hb
    · rw [List.length_take]
      omega
    · exact ih (by rw [List.length_drop]; omega) hb

theorem hash_congr {f g : σ → Bytes → σ} (h : ∀ s b, b.length = BLOCK → f s b = g s b) (iv : σ) (m : Bytes) :
    Merkle.hash f iv m = Merkle.hash g iv m := by
  unfold Merkle.hash
  exact List.foldl_ext _ _ _ fun s b hb => h s b (length_of_mem_blocks (Nat.div_mul_le_self _ _) hb)

end Zelr.Merkle
