import Zelr.Libc.Layout

/-!
# The calls, one by one

What asking for memory and giving it back do to a heap whose blocks fill the memory up to the break.
-/

namespace Zelr.Libc

open Zelr.Heap (HDR Blk endOf placed linkTo Apart Coarser Cut Held Tracks endOf_append placed_append le_endOf placed_bounds
  endOf_focus mem_placed_focus placed_marked owned_append owned_cons_free coarser_merge)

/-- The blocks `bs` are what the heap is made of. -/
structure Shape (sp : Space) (h : Heap) (bs : List Blk) : Prop where
  head : h.head = linkTo sp.base bs
  laid : Laid h.mem sp.base 0 bs
  ends : endOf sp.base bs = h.brk
  apart : bs.IsChain Apart
  roomy : ∀ e ∈ placed sp.base bs, ∀ n, e.2.owner = some n → n ≤ e.2.size
  low : h.brk ≤ sp.limit

def lastUsed (h : Heap) : Bool := h.head ≠ 0 ∧ (block h.mem (lastBlock h.mem h.brk h.head)).used

def GrowsWell (sp : Space) (granted : Bool) (n : Nat) (h : Heap) : Prop :=
  let want := roundUp (if n = 0 then 1 else n)
  n ≤ 2 ^ 64 - 1 - HDR - ALIGN → firstFit h.mem want h.brk h.head = none → (sbrk sp granted (chunkFor want) h).isSome →
    lastUsed h = false ∧ chunkFor want ≠ 0

section Calls

variable {sp : Space} {h : Heap} {bs xs ys : List Blk} {b : Blk} {m : Mem} {n want req : Nat} {granted : Bool}

/-! ## Rounding -/

theorem roundUp_of_le (hn : n ≤ 2 ^ 64 - 16) : roundUp n = (n + 15) / 16 * 16 := by
  have hALIGN : ALIGN = 16 := rfl
  rw [roundUp, hALIGN, word_of_lt (by omega)]

theorem le_roundUp (hn : n ≤ 2 ^ 64 - 16) : n ≤ roundUp n ∧ roundUp n ≤ n + 15 := by
  rw [roundUp_of_le hn]
  omega

theorem le_chunkFor (hwant : want + HDR < 2 ^ 64) (hne : chunkFor want ≠ 0) : want + HDR ≤ chunkFor want := by
  have hALIGN : ALIGN = 16 := rfl
  have hCHUNK : CHUNK = 65536 := rfl
  unfold chunkFor at hne ⊢
  rw [word_of_lt hwant] at hne ⊢
  dsimp only at hne ⊢
  generalize htake : (if want + HDR < CHUNK then CHUNK else want + HDR) = take at hne ⊢
  have hle : want + HDR ≤ take := by
    rw [← htake]
    split_ifs <;> omega
  have hlt : take < 2 ^ 64 := by
    rw [← htake]
    split_ifs <;> omega
  unfold roundUp word at hne ⊢
  rw [hALIGN] at hne ⊢
  omega

/-! ## Claiming -/

theorem Shape.lengths (hs : Shape sp h bs) : bs.length ≤ h.brk := by
  have := le_endOf sp.base bs
  rw [hs.ends, HDR] at this
  omega

theorem Shape.focus (hs : Shape sp h (xs ++ b :: ys)) :
    sp.base ≤ endOf sp.base xs ∧ endOf sp.base xs + HDR + b.size ≤ h.brk ∧ h.brk < 2 ^ 63 := by
  have hxs := le_endOf sp.base xs
  have hys := le_endOf (endOf sp.base xs + HDR + b.size) ys
  have hends := hs.ends
  have hlow := hs.low
  have hhigh := sp.high
  rw [endOf_focus] at hends
  omega

theorem held_outside {a x : Nat} (hx : Held a (xs ++ b :: ys) x) (hfree : b.free = true) :
    x < endOf a xs ∨ endOf a xs + HDR + b.size ≤ x := hx.not_free (mem_placed_focus a xs b ys) hfree

theorem claim_cut (req : Nat) (hs : Shape sp h (xs ++ b :: ys)) (hfree : b.free = true) (hfits : want ≤ b.size)
    (hreq : req ≤ want) :
    ∃ k rest, Cut sp.base xs b want req k rest ∧
      Shape sp { h with mem := claim h.mem (endOf sp.base xs) want } (xs ++ ⟨k, some req⟩ :: (rest ++ ys)) ∧
      ∀ x, Held sp.base (xs ++ b :: ys) x → claim h.mem (endOf sp.base xs) want x = h.mem x := by
  have hHDR : HDR = 24 := rfl
  have hALIGN : ALIGN = 16 := rfl
  obtain ⟨hlow, hend, hhigh⟩ := hs.focus
  have hpos := sp.pos
  obtain ⟨-, hb⟩ := laid_append.mp hs.laid
  set a := endOf sp.base xs with ha
  -- the rest of the shape follows from the layout
  have hshape : ∀ k rest, Cut sp.base xs b want req k rest →
      Laid (claim h.mem a want) sp.base 0 (xs ++ ⟨k, some req⟩ :: (rest ++ ys)) →
      Shape sp { h with mem := claim h.mem a want } (xs ++ ⟨k, some req⟩ :: (rest ++ ys)) := by
    intro k rest hcut hlaid
    refine ⟨?_, hlaid, hcut.endOf.trans hs.ends, hcut.apart hs.apart, ?_, hs.low⟩
    · rw [hs.head, linkTo, linkTo, if_neg (by simp), if_neg (by simp)]
    · intro e he c hc
      rcases hcut.placed he with he | rfl | ⟨hnone, -⟩
      · exact hs.roomy e he c hc
      · cases hc
        exact hreq.trans hcut.fits
      · rw [hnone] at hc
        cases hc
  by_cases hsmall : b.size < want + HDR + ALIGN
  · have hsplit : split h.mem a want = h.mem := by
      rw [split, hb.1, word_of_lt (by omega)]
      exact if_pos hsmall
    have hcut : Cut sp.base xs b want req b.size [] := ⟨hfree, rfl, hfits, .inl rfl⟩
    have hlaid : Laid (setUsed h.mem a true) a 0 (⟨b.size, some req⟩ :: ys) :=
      Laid.setUsed (c := ⟨b.size, some req⟩) hb rfl
    refine ⟨b.size, [], hcut, hshape _ _ hcut ?_, fun x hx => ?_⟩
    · rw [claim, hsplit]
      exact hs.laid.refocus hlaid fun x hx => setUsed_of_outside (.inl hx)
    · have := held_outside hx hfree
      rw [claim, hsplit]
      exact setUsed_of_outside (by omega)
  · obtain ⟨hrow, hframe⟩ := split_laid hb hfree (not_lt.mp hsmall) (by omega)
    have hcut : Cut sp.base xs b want req want [⟨b.size - want - HDR, none⟩] := by
      refine ⟨hfree, ?_, le_rfl, .inr ⟨⟨_, rfl⟩, rfl⟩⟩
      rw [endOf, endOf, endOf]
      dsimp only
      omega
    have hlaid : Laid (setUsed (split h.mem a want) a true) a 0
        (⟨want, some req⟩ :: ⟨b.size - want - HDR, none⟩ :: ys) := Laid.setUsed (c := ⟨want, some req⟩) hrow rfl
    refine ⟨want, _, hcut, hshape _ _ hcut ?_, fun x hx => ?_⟩
    · refine hs.laid.refocus hlaid fun x hx => ?_
      rw [claim, setUsed_of_outside (.inl hx)]
      exact hframe x (.inl hx)
    · have := held_outside hx hfree
      rw [claim, setUsed_of_outside (by omega)]
      exact hframe x this

/-! ## Growing -/

theorem fresh_of_outside {a take x : Nat} (hx : x < a ∨ a + HDR ≤ x) : fresh m a take x = m x := by
  rw [fresh, setNext_of_outside hx, setUsed_of_outside hx, setSize_of_outside hx]

theorem fresh_laid {a take : Nat} (htake : HDR ≤ take) (hlt : take < 2 ^ 64) :
    Laid (fresh m a take) a 0 [⟨take - HDR, none⟩] := by
  refine ⟨?_, trivial⟩
  rw [fresh, block_setNext (by omega), block_setUsed, minus_of_le htake hlt, block_setSize (by omega)]
  rfl

theorem grow_shape (hs : Shape sp h bs) (hwant : want + HDR < 2 ^ 64) (hroom : h.brk + chunkFor want ≤ sp.limit)
    (hlast : lastUsed h = false) (hne : chunkFor want ≠ 0) :
    ∃ xs b h', grow sp true want h = (endOf sp.base xs, h') ∧ Shape sp h' (xs ++ [b]) ∧ b.free = true ∧ want ≤ b.size ∧
      Heap.owned sp.base (xs ++ [b]) = Heap.owned sp.base bs ∧
      (∀ e ∈ placed sp.base bs, e.2.owner ≠ none → e ∈ placed sp.base (xs ++ [b])) ∧
      ∀ x, Held sp.base bs x → h'.mem x = h.mem x := by
  have hHDR : HDR = 24 := rfl
  have hpos := sp.pos
  have hhigh := sp.high
  have htake := le_chunkFor hwant hne
  have hends := hs.ends
  unfold grow sbrk
  dsimp only
  rw [if_pos ⟨rfl, hroom⟩]
  dsimp only
  generalize chunkFor want = take at htake hroom
  have hnew : Laid (fresh h.mem h.brk take) h.brk 0 [⟨take - HDR, none⟩] := fresh_laid (by omega) (by omega)
  rcases List.eq_nil_or_concat bs with rfl | ⟨xs, l, rfl⟩
  · have hbrk : h.brk = sp.base := hends.symm
    have hhead : h.head = 0 := hs.head
    rw [if_pos hhead]
    refine ⟨[], ⟨take - HDR, none⟩, _, congrArg (·, _) hbrk, ⟨hbrk, ?_, ?_, .singleton _, ?_, hroom⟩, rfl, ?_, rfl, ?_,
      ?_⟩
    · rw [← hbrk]
      exact hnew
    · change sp.base + HDR + (take - HDR) = h.brk + take
      omega
    · intro e he n hn
      cases List.mem_singleton.mp he
      cases hn
    · dsimp only
      omega
    · intro e he
      cases he
    · rintro x ⟨_, _, _, hmem, -⟩
      cases hmem
  · rw [List.concat_eq_append] at *
    have hhead : h.head = sp.base := by rw [hs.head, linkTo, if_neg (by simp)]
    have hlen := hs.lengths
    rw [List.length_append] at hlen
    have hbrk : endOf sp.base xs + HDR + l.size = h.brk := by
      rw [← hends, endOf_append]
      rfl
    have hbase := le_endOf sp.base xs
    set at_ := endOf sp.base xs with hat
    -- the last block is found, and is free
    have hfree : l.free = true := by
      have hfound : lastBlock h.mem h.brk sp.base = at_ := lastBlock_laid hs.laid hpos (by omega)
      have hl := (laid_append.mp hs.laid).2.1
      rw [lastUsed, hhead, hfound, hl] at hlast
      simpa [sp.pos.ne'] using hlast
    have hm1 : Laid (fresh h.mem h.brk take) sp.base 0 (xs ++ [l]) :=
      hs.laid.frame fun x _ hhi => fresh_of_outside (.inl (hends ▸ hhi))
    have hfound : lastBlock (fresh h.mem h.brk take) (h.brk + take) sp.base = at_ :=
      lastBlock_laid hm1 hpos (by omega)
    rw [if_neg (by omega), hhead, hfound]
    -- it is linked to the new one, and takes it in
    set m2 := setNext (fresh h.mem h.brk take) at_ h.brk with hm2
    have hl := (laid_append.mp hm1).2.1
    have hlinked : Laid m2 at_ 0 [l, ⟨take - HDR, none⟩] := by
      refine ⟨?_, ?_⟩
      · rw [hm2, block_setNext (by omega), hl, hbrk]
        rfl
      · rw [hbrk]
        exact hnew.frame fun x hlo _ => setNext_of_outside (.inr (by omega))
    obtain ⟨hjoined, hout⟩ := joinForward_laid (h.brk + take) hlinked (by omega)
      (by rw [List.length_singleton]; omega) (by
        rw [endOf, endOf, endOf]
        dsimp only
        omega)
    have hrow : joined l [⟨take - HDR, none⟩] = [⟨l.size + (HDR + (take - HDR)), none⟩] := by
      change [(⟨_, l.owner⟩ : Blk)] = _
      rw [owner_free hfree]
    rw [hrow] at hjoined
    have hunused : (block (joinForward (h.brk + take) m2 at_) at_).used = false := by rw [hjoined.1]; rfl
    rw [hunused, if_neg Bool.false_ne_true]
    obtain ⟨hxs, -, hnext⟩ := List.isChain_append.mp hs.apart
    refine ⟨xs, ⟨l.size + (HDR + (take - HDR)), none⟩, _, rfl, ⟨?_, ?_, ?_, ?_, ?_, hroom⟩, rfl, ?_, ?_, ?_, ?_⟩
    · rw [linkTo, if_neg (by simp)]
    · refine hs.laid.refocus hjoined fun x hx => ?_
      refine (hout x (.inl hx)).trans ?_
      rw [hm2, setNext_of_outside (.inl hx), fresh_of_outside (.inl (by omega))]
    · rw [endOf_append, ← hat, endOf, endOf]
      dsimp only
      omega
    · refine List.isChain_append.mpr ⟨hxs, .singleton _, ?_⟩
      rintro x hx y ⟨⟩ hboth
      exact hnext x hx l rfl ⟨hboth.1, hfree⟩
    · intro e he n hn
      rw [placed_append, List.mem_append] at he
      rcases he with he | he
      · exact hs.roomy e (by rw [placed_append]; exact List.mem_append_left _ he) n hn
      · cases List.mem_singleton.mp he
        cases hn
    · dsimp only
      omega
    · rw [owned_append, owned_append, owned_cons_free rfl, owned_cons_free hfree]
      rfl
    · intro e he hown
      rw [placed_append, List.mem_append] at he ⊢
      refine .inl (he.resolve_right fun hmem => ?_)
      cases List.mem_singleton.mp hmem
      exact hown (owner_free hfree)
    · intro x hx
      have hfar := held_outside hx hfree
      obtain ⟨f, c, k, hf, -, hlo, hhi⟩ := hx
      have hin := placed_bounds hf
      rw [hends] at hin
      dsimp only at hin
      refine (hout x (.inl (by omega))).trans ?_
      rw [hm2, setNext_of_outside (.inl (by omega)), fresh_of_outside (.inl (by omega))]

/-! ## Asking for memory -/

theorem product_lt {count size : Nat} (hfits : ¬ (count ≠ 0 ∧ size > (2 ^ 64 - 1) / count)) : count * size < 2 ^ 64 := by
  by_cases hzero : count = 0
  · rw [hzero, Nat.zero_mul]
    decide
  · have hle : size ≤ (2 ^ 64 - 1) / count := not_lt.mp fun h => hfits ⟨hzero, h⟩
    have := (Nat.le_div_iff_mul_le (Nat.pos_of_ne_zero hzero)).mp hle
    rw [Nat.mul_comm]
    omega

def wanted (n : Nat) : Nat := roundUp (if n = 0 then 1 else n)

theorem wanted_bounds (hn : n ≤ 2 ^ 64 - 1 - HDR - ALIGN) : n ≤ wanted n ∧ wanted n + HDR < 2 ^ 64 := by
  have hHDR : HDR = 24 := rfl
  have hALIGN : ALIGN = 16 := rfl
  have hround := le_roundUp (n := if n = 0 then 1 else n) (by split_ifs <;> omega)
  unfold wanted
  split_ifs at hround ⊢ <;> omega

/-- A request got a block: one that was there, or one that the heap grew by. -/
structure Given (sp : Space) (h : Heap) (bs : List Blk) (n : Nat) (r : Nat × Heap) (xs : List Blk) (b : Blk) (ys : List Blk)
    (k : Nat) (rest : List Blk) : Prop where
  cut : Cut sp.base xs b (wanted n) n k rest
  owned : Heap.owned sp.base (xs ++ b :: ys) = Heap.owned sp.base bs
  ptr : r.1 = endOf sp.base xs + HDR
  shape : Shape sp r.2 (xs ++ ⟨k, some n⟩ :: (rest ++ ys))
  keeps : ∀ e ∈ placed sp.base bs, e.2.owner ≠ none → e ∈ placed sp.base (xs ++ ⟨k, some n⟩ :: (rest ++ ys))
  frame : ∀ x, Held sp.base bs x → r.2.mem x = h.mem x

theorem malloc_shape (hs : Shape sp h bs) (hgrows : GrowsWell sp granted n h) :
    ((malloc sp granted n h).1 = 0 ∧ ∃ e, (malloc sp granted n h).2 = { h with errno := e }) ∨
      ∃ xs b ys k rest, Given sp h bs n (malloc sp granted n h) xs b ys k rest := by
  have hHDR : HDR = 24 := rfl
  have hALIGN : ALIGN = 16 := rfl
  have hpos := sp.pos
  have hbig : ((if n = 0 then 1 else n) > 2 ^ 64 - 1 - HDR - ALIGN) ↔ n > 2 ^ 64 - 1 - HDR - ALIGN := by
    split_ifs <;> omega
  unfold malloc
  dsimp only
  by_cases hn : n > 2 ^ 64 - 1 - HDR - ALIGN
  · rw [if_pos (hbig.mpr hn)]
    exact .inl ⟨rfl, _, rfl⟩
  rw [if_neg (fun h => hn (hbig.mp h)), ← wanted]
  obtain ⟨hle, hlt⟩ := wanted_bounds (not_lt.mp hn)
  rcases firstFit_laid (wanted n) hs.laid hpos hs.lengths with ⟨xs, b, ys, rfl, hfree, hsize, hfind⟩ | hfind
  · obtain ⟨k, rest, hcut, hshape, hframe⟩ := claim_cut n hs hfree hsize hle
    rw [hs.head, hfind]
    rw [← hs.head]
    exact .inr ⟨xs, b, ys, k, rest, hcut, rfl, rfl, hshape, fun e he hown => hcut.keeps he hown, hframe⟩
  · rw [← hs.head] at hfind
    rw [hfind]
    dsimp only
    by_cases hroom : granted = true ∧ h.brk + chunkFor (wanted n) ≤ sp.limit
    · obtain ⟨rfl, hroom⟩ := hroom
      have hsbrk : (sbrk sp true (chunkFor (wanted n)) h).isSome := by
        rw [sbrk, if_pos ⟨rfl, hroom⟩]
        rfl
      obtain ⟨hlast, hne⟩ := hgrows (not_lt.mp hn) hfind hsbrk
      obtain ⟨xs, b, h', hgrow, hshape, hfree, hsize, howned, hkeeps, hframe⟩ := grow_shape hs hlt hroom hlast hne
      obtain ⟨hbase, -, -⟩ := hshape.focus
      have hb := (laid_append.mp hshape.laid).2.1
      have hunfit : ¬ ((block h'.mem (endOf sp.base xs)).used = true ∨ (block h'.mem (endOf sp.base xs)).size < wanted n) := by
        rw [hb, hfree]
        exact not_or.mpr ⟨nofun, not_lt.mpr hsize⟩
      rw [hgrow]
      dsimp only
      rw [if_neg (by omega), if_neg hunfit]
      obtain ⟨k, rest, hcut, hshape', hframe'⟩ := claim_cut n hshape hfree hsize hle
      exact .inr ⟨xs, b, [], k, rest, hcut, howned, rfl, hshape', fun e he hown => hcut.keeps (hkeeps e he hown) hown,
        fun x hx => (hframe' x (hx.keeps hkeeps)).trans (hframe x hx)⟩
    · have hgrow : grow sp granted (wanted n) h = (0, { h with errno := ENOMEM }) := by
        rw [grow, sbrk, if_neg hroom]
      rw [hgrow]
      exact .inl ⟨rfl, _, rfl⟩

/-! ## Giving it back -/

theorem free_shape (hs : Shape sp h (xs ++ b :: ys)) (hown : b.owner = some n) :
    ∃ bs', Shape sp (free (endOf sp.base xs + HDR) h) bs' ∧
      Heap.owned sp.base bs' = Heap.owned sp.base xs ++ Heap.owned (endOf sp.base xs + HDR + b.size) ys ∧
      ∀ x, Held sp.base (xs ++ b :: ys) x → (free (endOf sp.base xs + HDR) h).mem x = h.mem x := by
  have hHDR : HDR = 24 := rfl
  have hpos := sp.pos
  obtain ⟨hlow, hend, hhigh⟩ := hs.focus
  have hlen := hs.lengths
  rw [List.length_append, List.length_cons] at hlen
  set at_ := endOf sp.base xs with hat
  have hb := (laid_append.mp hs.laid).2
  have hused : ¬ (block h.mem at_).used = false := by
    rw [hb.1]
    simp [Blk.free, hown]
  unfold free
  rw [if_neg (by omega)]
  dsimp only
  rw [Nat.add_sub_cancel, if_neg hused]
  -- it is marked, takes in what follows it, and the walk does the rest
  set m1 := setUsed h.mem at_ false with hm1
  have hmark : Laid m1 sp.base 0 (xs ++ ⟨b.size, none⟩ :: ys) :=
    hs.laid.refocus (Laid.setUsed (c := ⟨b.size, none⟩) hb rfl) fun x hx => setUsed_of_outside (.inl hx)
  have hwhole : endOf at_ (⟨b.size, none⟩ :: ys) = h.brk := by
    rw [← hs.ends, endOf_focus]
    rfl
  have hrow : Laid m1 at_ 0 (⟨b.size, none⟩ :: ys) := (laid_append.mp hmark).2
  obtain ⟨hjoin, hout⟩ := joinForward_laid h.brk hrow (by omega) (by omega) (by omega)
  obtain ⟨c, zs, hjoined, hc, hshort, -, hcoarse⟩ := joined_spec (b := ⟨b.size, none⟩) sp.base xs ys rfl
  rw [hjoined] at hjoin
  set m2 := joinForward h.brk m1 at_ with hm2
  have hlaid : Laid m2 sp.base 0 (xs ++ c :: zs) := hmark.refocus hjoin fun x hx => hout x (.inl hx)
  have hends : endOf sp.base (xs ++ c :: zs) = h.brk := by
    rw [hcoarse.ends, endOf_focus, ← hs.ends, endOf_focus]
  have hlen' : (xs ++ c :: zs).length ≤ h.brk := by
    rw [List.length_append, List.length_cons]
    omega
  have hhead : h.head = linkTo sp.base (xs ++ c :: zs) := by
    rw [hs.head, linkTo, linkTo, if_neg (by simp), if_neg (by simp)]
  obtain ⟨bs', hlaid', hcoarse', hchain, -, hnil, hout'⟩ := joinAll_laid hlaid hpos hlen' hlen' (by omega)
  rw [← hhead] at hlaid' hout'
  have hall := hcoarse.trans hcoarse'
  refine ⟨bs', ⟨?_, hlaid', hcoarse'.ends.trans hends, hchain, ?_, hs.low⟩, ?_, fun x hx => ?_⟩
  · have hne : bs' ≠ [] := fun h => by simpa using hnil.mpr h
    rw [linkTo, if_neg hne]
    exact hhead.trans (if_neg (by simp))
  · intro e he k hk
    have hne : e.2.owner ≠ none := by simp [hk]
    obtain ⟨d, hd, heq⟩ := hall.addrs e he
    rw [← heq hne] at hd
    rcases placed_marked hd with hd | ⟨-, hnone⟩
    · exact hs.roomy _ hd k hk
    · exact absurd hnone hne
  · rw [hall.owned, owned_append, owned_cons_free rfl]
  · have hheader := hx.outside _ (mem_placed_focus sp.base xs b ys)
    refine (hout' x fun f hf => ?_).trans ((hout x hheader).trans (setUsed_of_outside hheader))
    obtain ⟨d, hd, -⟩ := hcoarse.addrs f hf
    rcases placed_marked hd with hd | ⟨hf, -⟩
    · exact hx.outside (f.1, d) hd
    · rw [show f.1 = at_ from hf]
      exact hheader

end Calls

end Zelr.Libc
