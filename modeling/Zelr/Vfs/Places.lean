import Mathlib.Data.List.Basic
import Zelr.Base.Bytes

/-!
# What a path names

A place is the names on the way from the root.
-/

namespace Zelr.Vfs

def SLASH : UInt8 := 47
def DOT : UInt8 := 46

abbrev Place := List Bytes

structure Proper (part : Bytes) : Prop where
  ne_nil : part ≠ []
  plain : SLASH ∉ part
  ne_dot : part ≠ [DOT]
  ne_dots : part ≠ [DOT, DOT]

def parts (s : Bytes) : List Bytes := (s.splitOn SLASH).filter (· ≠ [])

def go (p : Place) (part : Bytes) : Place :=
  if part = [DOT] then p else if part = [DOT, DOT] then p.dropLast else p ++ [part]

/-- The place a path names, for one who is at `here`. -/
def named (here : Place) (s : Bytes) : Place := (parts s).foldl go (if s.head? = some SLASH then [] else here)

def trail (p : Place) : Bytes := p.flatMap (SLASH :: ·)

def render (p : Place) : Bytes := if p = [] then [SLASH] else trail p

/-! ## Components -/

variable {part : Bytes} {p : Place}

theorem mem_parts {s : Bytes} (h : part ∈ parts s) : part ≠ [] ∧ SLASH ∉ part := by
  obtain ⟨hmem, hne⟩ := List.mem_filter.mp h
  refine ⟨by simpa using hne, ?_⟩
  clear h hne
  induction s generalizing part with
  | nil =>
    rw [List.splitOn_nil, List.mem_singleton] at hmem
    rw [hmem]
    exact List.not_mem_nil
  | cons c s ih =>
    rw [List.splitOn_cons_eq_if_modifyHead] at hmem
    split at hmem
    · rcases List.mem_cons.mp hmem with rfl | hmem
      · exact List.not_mem_nil
      · exact ih hmem
    · rename_i hc
      obtain ⟨first, rest, hsplit⟩ := List.exists_cons_of_ne_nil (List.splitOn_ne_nil SLASH s)
      rw [hsplit, List.modifyHead_cons] at hmem
      rcases List.mem_cons.mp hmem with rfl | hmem
      · have hfirst : SLASH ∉ first := ih (by rw [hsplit]; exact List.mem_cons_self)
        refine List.not_mem_cons_of_ne_of_not_mem (fun h => hc ?_) hfirst
        rw [h, beq_self_eq_true]
      · exact ih (by rw [hsplit]; exact List.mem_cons_of_mem _ hmem)

theorem parts_append (a b : Bytes) : parts (a ++ SLASH :: b) = parts a ++ parts b := by
  rw [parts, List.splitOn_append_cons_self, List.filter_append]
  rfl

theorem parts_slash (s : Bytes) : parts (SLASH :: s) = parts s := parts_append [] s

theorem parts_name (hplain : SLASH ∉ part) : parts part = if part = [] then [] else [part] := by
  rw [parts, List.splitOn_eq_singleton hplain]
  split
  · rename_i h
    rw [h]
    rfl
  · rename_i h
    simp [h]

theorem parts_trail (h : ∀ part ∈ p, part ≠ [] ∧ SLASH ∉ part) : parts (trail p) = p := by
  induction p using List.reverseRecOn with
  | nil => rfl
  | append_singleton p part ih =>
    have htrail : trail (p ++ [part]) = trail p ++ SLASH :: part := by simp [trail]
    obtain ⟨hne, hplain⟩ := h part (by simp)
    rw [htrail, parts_append, ih fun q hq => h q (List.mem_append_left _ hq), parts_name hplain, if_neg hne]

theorem parts_render (h : ∀ part ∈ p, part ≠ [] ∧ SLASH ∉ part) : parts (render p) = p := by
  unfold render
  split
  · rename_i hnil
    rw [hnil]
    rfl
  · exact parts_trail h

theorem render_inj {q : Place} (hp : ∀ part ∈ p, Proper part) (hq : ∀ part ∈ q, Proper part)
    (h : render p = render q) : p = q := by
  rw [← parts_render fun part hpart => ⟨(hp part hpart).ne_nil, (hp part hpart).plain⟩, h]
  exact parts_render fun part hpart => ⟨(hq part hpart).ne_nil, (hq part hpart).plain⟩

/-! ## Walking -/

theorem go_proper (h : Proper part) : go p part = p ++ [part] := by
  rw [go, if_neg h.ne_dot, if_neg h.ne_dots]

theorem foldl_go_proper {q : Place} (h : ∀ part ∈ q, Proper part) : q.foldl go p = p ++ q := by
  induction q generalizing p with
  | nil => rw [List.foldl_nil, List.append_nil]
  | cons part q ih =>
    rw [List.foldl_cons, go_proper (h part List.mem_cons_self), ih fun x hx => h x (List.mem_cons_of_mem _ hx),
      List.append_assoc]
    rfl

theorem mem_go {x : Bytes} (h : x ∈ go p part) :
    x ∈ p ∨ x = part ∧ part ≠ [DOT] ∧ part ≠ [DOT, DOT] := by
  unfold go at h
  split at h
  · exact .inl h
  · split at h
    · exact .inl ((List.dropLast_sublist p).subset h)
    · rename_i hdot hdots
      rcases List.mem_append.mp h with h | h
      · exact .inl h
      · exact .inr ⟨List.mem_singleton.mp h, hdot, hdots⟩

theorem walk_proper {cs : List Bytes} (hp : ∀ part ∈ p, Proper part)
    (hcs : ∀ part ∈ cs, part ≠ [] ∧ SLASH ∉ part) : ∀ part ∈ cs.foldl go p, Proper part := by
  induction cs generalizing p with
  | nil => exact hp
  | cons c cs ih =>
    refine ih (fun x hx => ?_) fun x hx => hcs x (List.mem_cons_of_mem _ hx)
    rcases mem_go hx with hx | ⟨rfl, hdot, hdots⟩
    · exact hp x hx
    · obtain ⟨hne, hplain⟩ := hcs x List.mem_cons_self
      exact ⟨hne, hplain, hdot, hdots⟩

theorem named_proper {here : Place} (h : ∀ part ∈ here, Proper part) (s : Bytes) :
    ∀ part ∈ named here s, Proper part := by
  refine walk_proper ?_ fun part hpart => mem_parts hpart
  split
  · exact fun part hpart => absurd hpart List.not_mem_nil
  · exact h

theorem walk_map {f : Bytes → Bytes} (hdot : ∀ part, f part = [DOT] ↔ part = [DOT])
    (hdots : ∀ part, f part = [DOT, DOT] ↔ part = [DOT, DOT]) (p : Place) (cs : List Bytes) :
    (cs.map f).foldl go (p.map f) = (cs.foldl go p).map f := by
  induction cs generalizing p with
  | nil => rfl
  | cons c cs ih =>
    have hone : go (p.map f) (f c) = (go p c).map f := by
      unfold go
      by_cases hc : c = [DOT]
      · rw [if_pos ((hdot c).mpr hc), if_pos hc]
      · rw [if_neg (mt (hdot c).mp hc), if_neg hc]
        by_cases hcc : c = [DOT, DOT]
        · rw [if_pos ((hdots c).mpr hcc), if_pos hcc, List.map_dropLast]
        · rw [if_neg (mt (hdots c).mp hcc), if_neg hcc, List.map_append]
          rfl
    rw [List.map_cons, List.foldl_cons, List.foldl_cons, hone, ih]

/-! ## Lengths -/

theorem trail_append (p q : Place) : trail (p ++ q) = trail p ++ trail q := List.flatMap_append

theorem render_length (p : Place) : (render p).length = max 1 (trail p).length := by
  unfold render
  split
  · rename_i h
    rw [h]
    rfl
  · rename_i h
    obtain ⟨part, rest, rfl⟩ := List.exists_cons_of_ne_nil h
    simp [trail]

theorem trail_dropLast_le (p : Place) : (trail p.dropLast).length ≤ (trail p).length := by
  rcases List.eq_nil_or_concat p with rfl | ⟨q, part, rfl⟩
  · exact le_rfl
  · rw [List.concat_eq_append, List.dropLast_concat, trail_append, List.length_append]
    omega

theorem walk_length (p : Place) (cs : List Bytes) :
    (trail (cs.foldl go p)).length ≤ (trail p).length + (trail cs).length := by
  induction cs generalizing p with
  | nil => exact Nat.le_add_right _ _
  | cons c cs ih =>
    have hone : (trail (go p c)).length ≤ (trail p).length + (trail [c]).length := by
      unfold go
      split
      · exact Nat.le_add_right _ _
      · split
        · exact (trail_dropLast_le p).trans (Nat.le_add_right _ _)
        · rw [trail_append, List.length_append]
    have hsum : (trail (c :: cs)).length = (trail [c]).length + (trail cs).length := by
      rw [← List.length_append, ← trail_append]
      rfl
    have hrest := ih (go p c)
    rw [List.foldl_cons]
    omega

end Zelr.Vfs
