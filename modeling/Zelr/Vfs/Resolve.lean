import Zelr.Vfs.Places

/-!
# Paths

`vfs_resolve`. A string is its bytes without the zero at its end. The buffer for the joined path and the
one for a component drop what does not fit; the caller's buffer and the table of starts refuse it.
-/

namespace Zelr.Vfs

variable {part : Bytes} {o : Out} {p : Place}

def VFS_PATH_MAX : Nat := 128
def VFS_NAME_MAX : Nat := 64

/-- `sizeof(work)`. -/
def WORK_SIZE : Nat := VFS_PATH_MAX * 2

/-- The length of `starts`. -/
def DEPTH_MAX : Nat := 32

def work (cwd s : Bytes) : Bytes :=
  let base :=
    if s.head? = some SLASH then []
    else
      let b := cwd.take (WORK_SIZE - 2)
      if b = [] ∨ b.getLast? ≠ some SLASH then b ++ [SLASH] else b
  base ++ s.take (WORK_SIZE - 1 - base.length)

/-- The components the loop goes through; `part` is the one being read. -/
def components : Bytes → Bytes → List Bytes
  | part, [] => if part = [] then [] else [part]
  | part, c :: s =>
    if c = SLASH then if part = [] then components [] s else part :: components [] s
    else components (if part.length < VFS_NAME_MAX - 1 then part ++ [c] else part) s

/-- The path so far, and where in it each component starts, the last first. -/
structure Out where
  text : Bytes
  starts : List Nat

def place (cap : Nat) (o : Out) (part : Bytes) : Option Out :=
  if part = [DOT] then some o
  else if part = [DOT, DOT] then
    match o.starts with
    | [] => some o
    | start :: starts => some ⟨o.text.take (if start < 1 then 1 else start), starts⟩
  else if DEPTH_MAX ≤ o.starts.length then none
  else if 1 < o.text.length ∧ cap ≤ o.text.length + 1 then none
  else
    let text := if 1 < o.text.length then o.text ++ [SLASH] else o.text
    let start := text.length - if 1 < text.length then 1 else 0
    if cap ≤ text.length + part.length then none else some ⟨text ++ part, start :: o.starts⟩

def vfsResolve (cwd s : Bytes) (cap : Nat) : Option Bytes :=
  if cap < 2 then none
  else ((components [] (work cwd s)).foldlM (place cap) ⟨[SLASH], []⟩).map Out.text

/-! ## Components -/

def cut (part : Bytes) : Bytes := part.take (VFS_NAME_MAX - 1)

theorem cut_eq_nil : cut part = [] ↔ part = [] := by
  rw [cut, List.take_eq_nil_iff]
  simp [VFS_NAME_MAX]

theorem cut_eq_short {short : Bytes} (h : short.length < 63) : cut part = short ↔ part = short := by
  constructor
  · intro heq
    have hlen : min 63 part.length = short.length := by rw [← heq, cut, List.length_take]; rfl
    rw [← heq, cut, List.take_of_length_le (by change part.length ≤ 63; omega)]
  · rintro rfl
    exact List.take_of_length_le (by change part.length ≤ 63; omega)

theorem components_eq (full : Bytes) (hfull : SLASH ∉ full) (s : Bytes) :
    components (cut full) s = (parts (full ++ s)).map cut := by
  induction s generalizing full with
  | nil =>
    rw [components, List.append_nil, parts_name hfull]
    by_cases h : full = []
    · rw [if_pos h, if_pos (cut_eq_nil.mpr h)]
      rfl
    · rw [if_neg h, if_neg (mt cut_eq_nil.mp h)]
      rfl
  | cons c s ih =>
    rw [components]
    by_cases hc : c = SLASH
    · have hrest : components [] s = (parts s).map cut := ih [] List.not_mem_nil
      rw [if_pos hc, hc, parts_append, parts_name hfull, List.map_append, hrest]
      by_cases h : full = []
      · rw [if_pos h, if_pos (cut_eq_nil.mpr h)]
        rfl
      · rw [if_neg h, if_neg (mt cut_eq_nil.mp h)]
        rfl
    · have hmore : SLASH ∉ full ++ [c] := by
        intro h
        rcases List.mem_append.mp h with h | h
        · exact hfull h
        · exact hc (List.mem_singleton.mp h).symm
      have hcut : (if (cut full).length < VFS_NAME_MAX - 1 then cut full ++ [c] else cut full) = cut (full ++ [c]) := by
        unfold cut
        rw [List.length_take]
        split
        · rename_i hlt
          rw [List.take_of_length_le (by omega), List.take_of_length_le (by
            rw [List.length_append, List.length_singleton]
            omega)]
        · rename_i hge
          rw [List.take_append_of_le_length (by omega)]
      rw [if_neg hc, hcut, ih (full ++ [c]) hmore, List.append_assoc]
      rfl

theorem trail_components (part s : Bytes) :
    (trail (components part s)).length ≤ part.length + s.length + 1 := by
  induction s generalizing part with
  | nil =>
    unfold components
    split <;> simp [trail]
  | cons c s ih =>
    have hrest := ih []
    rw [List.length_nil] at hrest
    unfold components
    split
    · split
      · rw [List.length_cons]
        omega
      · have hcons : (trail (part :: components [] s)).length = part.length + 1 + (trail (components [] s)).length := by
          simp [trail]
          omega
        rw [hcons, List.length_cons]
        omega
    · have hnext := ih (if part.length < VFS_NAME_MAX - 1 then part ++ [c] else part)
      have hlen : (if part.length < VFS_NAME_MAX - 1 then part ++ [c] else part).length ≤ part.length + 1 := by
        split <;> simp
      rw [List.length_cons]
      omega

/-! ## The path so far is the path of a place -/

def starts (p : Place) : List Nat := (List.range p.length).reverse.map fun i => (render (p.take i)).length

def rep (p : Place) : Out := ⟨render p, starts p⟩

section Turns

variable {cap : Nat} {p : Place} {part : Bytes}

theorem starts_snoc (p : Place) (part : Bytes) : starts (p ++ [part]) = (render p).length :: starts p := by
  unfold starts
  rw [List.length_append, List.length_singleton, List.range_succ, List.reverse_append, List.reverse_singleton,
    List.singleton_append, List.map_cons, List.take_left]
  congr 1
  apply List.map_congr_left
  intro i hi
  rw [List.mem_reverse, List.mem_range] at hi
  rw [List.take_append_of_le_length hi.le]

@[simp] theorem starts_length (p : Place) : (starts p).length = p.length := by simp [starts]

theorem render_snoc (p : Place) (part : Bytes) :
    render (p ++ [part]) = (if p = [] then [SLASH] else render p ++ [SLASH]) ++ part := by
  rw [render, if_neg (by simp), trail_append]
  split
  · rename_i h
    rw [h]
    simp [trail]
  · rename_i h
    rw [render, if_neg h]
    simp [trail]

theorem one_lt_render (hp : ∀ part ∈ p, part ≠ []) : 1 < (render p).length ↔ p ≠ [] := by
  constructor
  · rintro h rfl
    exact absurd h (by decide)
  · intro h
    obtain ⟨part, rest, rfl⟩ := List.exists_cons_of_ne_nil h
    have hpart := List.length_pos_iff.mpr (hp part List.mem_cons_self)
    rw [render_length, trail, List.flatMap_cons, List.length_append, List.length_cons]
    omega

theorem place_push (hp : ∀ part ∈ p, part ≠ []) (hdot : part ≠ [DOT]) (hdots : part ≠ [DOT, DOT]) (hne : part ≠ []) :
    place cap (rep p) part =
      if p.length < DEPTH_MAX ∧ (render (p ++ [part])).length < cap then some (rep (p ++ [part])) else none := by
  have hpos := List.length_pos_iff.mpr hne
  have hone := one_lt_render hp
  have hsnoc := render_snoc p part
  have htext : (rep p).text = render p := rfl
  have hstarts : (rep p).starts = starts p := rfl
  unfold place
  simp only [htext, hstarts, starts_length, if_neg hdot, if_neg hdots]
  by_cases hdepth : DEPTH_MAX ≤ p.length
  · rw [if_pos hdepth, if_neg (by omega)]
  · rw [if_neg hdepth]
    by_cases hroot : p = []
    · subst hroot
      rw [if_pos rfl] at hsnoc
      have hrep : rep ([] ++ [part]) = ⟨[SLASH] ++ part, [1]⟩ := by
        rw [rep, hsnoc, starts_snoc]
        rfl
      have hlone : ¬ 1 < (render []).length := by
        rw [hone]
        simp
      rw [if_neg (fun h => hlone h.1), hsnoc, hrep, List.length_append, List.length_singleton]
      simp only [if_neg hlone]
      change (if cap ≤ 1 + part.length then none else some (⟨[SLASH] ++ part, [1]⟩ : Out)) = _
      by_cases hcap : cap ≤ 1 + part.length
      · rw [if_pos hcap, if_neg (by omega)]
      · rw [if_neg hcap, if_pos ⟨by simp [DEPTH_MAX], by omega⟩]
    · rw [if_neg hroot] at hsnoc
      have hlong := hone.mpr hroot
      have hlen : (render (p ++ [part])).length = (render p).length + 1 + part.length := by
        rw [hsnoc, List.length_append, List.length_append, List.length_singleton]
      have hrep : rep (p ++ [part]) = ⟨render p ++ [SLASH] ++ part, (render p).length :: starts p⟩ := by
        rw [rep, hsnoc, starts_snoc]
      by_cases hsep : cap ≤ (render p).length + 1
      · rw [if_pos ⟨hlong, hsep⟩, if_neg (by omega)]
      · have hmore : 1 < (render p).length + 1 := by omega
        rw [if_neg (fun h => hsep h.2), hrep, hlen]
        simp only [if_pos hlong, List.length_append, List.length_singleton, if_pos hmore, Nat.add_sub_cancel]
        by_cases hcap : cap ≤ (render p).length + 1 + part.length
        · rw [if_pos hcap, if_neg (by omega)]
        · rw [if_neg hcap, if_pos ⟨by omega, by omega⟩]

theorem place_pop (p : Place) : place cap (rep p) [DOT, DOT] = some (rep p.dropLast) := by
  unfold place
  rw [if_neg (by decide), if_pos rfl]
  rcases List.eq_nil_or_concat p with rfl | ⟨q, part, rfl⟩
  · rfl
  · have hpos : 1 ≤ (render q).length := by
      rw [render_length]
      omega
    rw [List.concat_eq_append, List.dropLast_concat]
    dsimp only [rep]
    rw [starts_snoc]
    dsimp only
    rw [if_neg (by omega), render_snoc]
    congr 2
    split
    · rename_i h
      rw [h]
      rfl
    · rw [List.append_assoc, List.take_left]

/-- What is in the caller's buffer and the table of starts. -/
structure Held (cap : Nat) (p : Place) : Prop where
  parts : ∀ part ∈ p, part ≠ []
  depth : p.length ≤ DEPTH_MAX
  room : (render p).length < cap

theorem Held.dropLast (h : Held cap p) : Held cap p.dropLast where
  parts := fun part hpart => h.parts part ((List.dropLast_sublist p).subset hpart)
  depth := by
    rw [List.length_dropLast]
    exact (Nat.sub_le _ _).trans h.depth
  room := by
    have hle := trail_dropLast_le p
    have hroom := h.room
    rw [render_length] at *
    omega

theorem Held.place (h : Held cap p) (hne : part ≠ []) (hplace : Vfs.place cap (rep p) part = some o) :
    o = rep (go p part) ∧ Held cap (go p part) := by
  unfold go
  by_cases hdot : part = [DOT]
  · rw [hdot, Vfs.place, if_pos rfl] at hplace
    cases hplace
    rw [if_pos hdot]
    exact ⟨rfl, h⟩
  · rw [if_neg hdot]
    by_cases hdots : part = [DOT, DOT]
    · rw [hdots, place_pop] at hplace
      cases hplace
      rw [if_pos hdots]
      exact ⟨rfl, h.dropLast⟩
    · rw [place_push h.parts hdot hdots hne] at hplace
      rw [if_neg hdots]
      obtain ⟨⟨hdepth, hroom⟩, ho⟩ := Option.ite_none_right_eq_some.mp hplace
      refine ⟨(Option.some.inj ho).symm, ⟨fun x hx => ?_, ?_, hroom⟩⟩
      · rcases List.mem_append.mp hx with hx | hx
        · exact h.parts x hx
        · rw [List.mem_singleton.mp hx]
          exact hne
      · rw [List.length_append, List.length_singleton]
        omega

theorem Held.walk {cs : List Bytes} (h : Held cap p) (hcs : ∀ c ∈ cs, c ≠ [])
    (hloop : cs.foldlM (Vfs.place cap) (rep p) = some o) : o = rep (cs.foldl go p) ∧ Held cap (cs.foldl go p) := by
  induction cs generalizing p with
  | nil =>
    cases hloop
    exact ⟨rfl, h⟩
  | cons c cs ih =>
    rw [List.foldlM_cons] at hloop
    obtain ⟨o', hplace, hloop⟩ := Option.bind_eq_some_iff.mp hloop
    obtain ⟨rfl, hheld⟩ := h.place (hcs c List.mem_cons_self) hplace
    exact ih hheld (fun x hx => hcs x (List.mem_cons_of_mem _ hx)) hloop

theorem Held.pushes {q : Place} (h : Held cap (p ++ q)) (hq : ∀ part ∈ q, Proper part) :
    q.foldlM (Vfs.place cap) (rep p) = some (rep (p ++ q)) := by
  induction q generalizing p with
  | nil =>
    rw [List.append_nil]
    rfl
  | cons part q ih =>
    have hpart := hq part List.mem_cons_self
    have hsplit : p ++ part :: q = (p ++ [part]) ++ q := by rw [List.append_assoc]; rfl
    have hroom := h.room
    have hdepth := h.depth
    rw [render_length, hsplit, trail_append, List.length_append] at hroom
    rw [List.length_append, List.length_cons] at hdepth
    rw [List.foldlM_cons, place_push (fun x hx => h.parts x (List.mem_append_left _ hx)) hpart.ne_dot hpart.ne_dots
      hpart.ne_nil, if_pos ⟨by omega, by rw [render_length]; omega⟩]
    change q.foldlM (Vfs.place cap) (rep (p ++ [part])) = _
    rw [hsplit]
    exact ih (hsplit ▸ h) fun x hx => hq x (List.mem_cons_of_mem _ hx)

end Turns

/-! ## Exactness -/

/-- A working directory as `vfs_chdir` leaves one. -/
structure Cwd where
  place : Place
  proper : ∀ part ∈ place, Proper part
  short : (render place).length < VFS_PATH_MAX

def Cwd.text (c : Cwd) : Bytes := render c.place

/-- The working directory and the input in one, whatever the length. -/
def joined (c : Cwd) (s : Bytes) : Bytes :=
  if s.head? = some SLASH then s else (if c.place = [] then [SLASH] else c.text ++ [SLASH]) ++ s

section Resolve

variable {c : Cwd} {s out : Bytes} {cap : Nat}

theorem render_last (hp : ∀ part ∈ p, Proper part) : (render p).getLast? = some SLASH ↔ p = [] := by
  rcases List.eq_nil_or_concat p with rfl | ⟨q, part, rfl⟩
  · simp [render]
  · have hpart := hp part (by simp)
    obtain ⟨front, b, hb⟩ := (List.eq_nil_or_concat part).resolve_left hpart.ne_nil
    rw [List.concat_eq_append] at *
    have hplain := hpart.plain
    rw [render_snoc, hb, ← List.append_assoc, List.getLast?_concat]
    constructor
    · intro h
      rw [hb, Option.some.inj h] at hplain
      simp at hplain
    · intro h
      simp at h

theorem work_eq (c : Cwd) (s : Bytes) : work c.text s = (joined c s).take (WORK_SIZE - 1) := by
  have hshort : c.text.length < 128 := c.short
  unfold work joined
  split
  · rw [List.nil_append, List.length_nil, Nat.sub_zero]
  · have htake : c.text.take (WORK_SIZE - 2) = c.text :=
      List.take_of_length_le (by unfold WORK_SIZE VFS_PATH_MAX; omega)
    have hne : c.text ≠ [] := by
      intro h
      have hlen := render_length c.place
      rw [show render c.place = [] from h, List.length_nil] at hlen
      omega
    have hbase : (if c.text = [] ∨ c.text.getLast? ≠ some SLASH then c.text ++ [SLASH] else c.text) =
        if c.place = [] then [SLASH] else c.text ++ [SLASH] := by
      have hlast : c.text.getLast? = some SLASH ↔ c.place = [] := render_last c.proper
      by_cases hroot : c.place = []
      · rw [if_pos hroot, if_neg (by rw [not_or, not_not]; exact ⟨hne, hlast.mpr hroot⟩), Cwd.text, hroot]
        rfl
      · rw [if_neg hroot, if_pos (.inr (mt hlast.mp hroot))]
    have hroom : (if c.place = [] then [SLASH] else c.text ++ [SLASH]).length ≤ WORK_SIZE - 1 := by
      unfold WORK_SIZE VFS_PATH_MAX
      split
      · decide
      · rw [List.length_append, List.length_singleton]
        omega
    dsimp only
    rw [htake, hbase, List.take_append, List.take_of_length_le hroom]

theorem named_joined (c : Cwd) (s : Bytes) : named c.place s = (parts (joined c s)).foldl go [] := by
  unfold named joined
  split
  · rfl
  · have hparts : parts ((if c.place = [] then [SLASH] else c.text ++ [SLASH]) ++ s) = c.place ++ parts s := by
      split
      · rename_i h
        rw [h, List.singleton_append, parts_slash]
        rfl
      · rw [List.append_assoc, List.singleton_append, parts_append, Cwd.text,
          parts_render fun part hpart => ⟨(c.proper part hpart).ne_nil, (c.proper part hpart).plain⟩]
    rw [hparts, List.foldl_append, foldl_go_proper c.proper]
    rfl

/-- The place the joined path names when it is cut at 255 bytes and the names that remain at 63. -/
def kept (c : Cwd) (s : Bytes) : Place := ((parts ((joined c s).take (WORK_SIZE - 1))).foldl go []).map cut

theorem walk_cut (w : Bytes) : (components [] w).foldl go [] = ((parts w).foldl go []).map cut := by
  have hcomponents : components [] w = (parts w).map cut := components_eq [] List.not_mem_nil w
  rw [hcomponents]
  exact walk_map (fun part => cut_eq_short (by decide)) (fun part => cut_eq_short (by decide)) [] (parts w)

theorem components_proper (w : Bytes) : ∀ part ∈ components [] w, part ≠ [] ∧ SLASH ∉ part := by
  have hcomponents : components [] w = (parts w).map cut := components_eq [] List.not_mem_nil w
  rw [hcomponents]
  intro part hpart
  obtain ⟨full, hfull, rfl⟩ := List.mem_map.mp hpart
  obtain ⟨hne, hplain⟩ := mem_parts hfull
  exact ⟨mt cut_eq_nil.mp hne, fun h => hplain ((List.take_sublist _ _).subset h)⟩

theorem kept_proper (c : Cwd) (s : Bytes) : ∀ part ∈ kept c s, Proper part := by
  rw [kept, ← walk_cut]
  exact walk_proper (fun part hpart => absurd hpart List.not_mem_nil) (components_proper _)

theorem kept_short (c : Cwd) (s : Bytes) : ∀ part ∈ kept c s, part.length ≤ 63 := by
  intro part hpart
  obtain ⟨full, -, rfl⟩ := List.mem_map.mp hpart
  rw [cut, List.length_take]
  exact Nat.min_le_left _ _

theorem joined_head (c : Cwd) (s : Bytes) : ∃ rest, joined c s = SLASH :: rest := by
  unfold joined
  split
  · rename_i h
    obtain ⟨rest, hrest⟩ := List.head?_eq_some_iff.mp h
    exact ⟨rest, hrest⟩
  · split
    · exact ⟨s, rfl⟩
    · rename_i h
      obtain ⟨part, rest, hrest⟩ := List.exists_cons_of_ne_nil h
      exact ⟨_, by rw [Cwd.text, render, if_neg h, hrest]; rfl⟩

theorem kept_length (c : Cwd) (s : Bytes) : (render (kept c s)).length ≤ WORK_SIZE - 1 := by
  obtain ⟨rest, hrest⟩ := joined_head c s
  have hwork : (joined c s).take (WORK_SIZE - 1) = SLASH :: rest.take (WORK_SIZE - 2) := by
    rw [hrest]
    rfl
  have hcomponents : components [] (SLASH :: rest.take (WORK_SIZE - 2)) = components [] (rest.take (WORK_SIZE - 2)) := by
    rw [components, if_pos rfl, if_pos rfl]
  have htrail := trail_components [] (rest.take (WORK_SIZE - 2))
  have hwalk := walk_length [] (components [] (rest.take (WORK_SIZE - 2)))
  rw [List.length_nil, List.length_take] at htrail
  rw [render_length, kept, ← walk_cut, hwork, hcomponents]
  have hzero : (trail []).length = 0 := rfl
  unfold WORK_SIZE VFS_PATH_MAX at *
  omega

theorem held_root (h : 2 ≤ cap) : Held cap [] where
  parts := fun part hpart => absurd hpart List.not_mem_nil
  depth := Nat.zero_le _
  room := by
    rw [render_length]
    exact h

theorem vfsResolve_some (h : vfsResolve c.text s cap = some out) : out = render (kept c s) ∧ Held cap (kept c s) := by
  unfold vfsResolve at h
  obtain ⟨hcap, h⟩ := Option.ite_none_left_eq_some.mp h
  obtain ⟨o, hloop, rfl⟩ := Option.map_eq_some_iff.mp h
  have hroot : (⟨[SLASH], []⟩ : Out) = rep [] := rfl
  rw [hroot] at hloop
  obtain ⟨rfl, hheld⟩ := (held_root (not_lt.mp hcap)).walk (fun part hpart => (components_proper _ part hpart).1) hloop
  rw [walk_cut, work_eq] at hheld ⊢
  exact ⟨rfl, hheld⟩

theorem resolve_render (c : Cwd) (h : Held cap p) (hp : ∀ part ∈ p, Proper part)
    (hshort : ∀ part ∈ p, part.length ≤ 63) (hlen : (render p).length ≤ WORK_SIZE - 1) :
    vfsResolve c.text (render p) cap = some (render p) := by
  have habs : (render p).head? = some SLASH := by
    unfold render
    split
    · rfl
    · rename_i hne
      obtain ⟨part, rest, rfl⟩ := List.exists_cons_of_ne_nil hne
      rfl
  have hcap : ¬ cap < 2 := by
    have hroom := h.room
    rw [render_length] at hroom
    omega
  have hwork : work c.text (render p) = render p := by
    rw [work_eq, joined, if_pos habs, List.take_of_length_le hlen]
  have hcomponents : components [] (render p) = p := by
    have heq : components [] (render p) = (parts (render p)).map cut := components_eq [] List.not_mem_nil _
    rw [heq, parts_render fun part hpart => ⟨(hp part hpart).ne_nil, (hp part hpart).plain⟩]
    exact (List.map_congr_left fun part hpart => List.take_of_length_le (hshort part hpart)).trans (List.map_id p)
  have hloop : p.foldlM (place cap) ⟨[SLASH], []⟩ = some (rep p) := Held.pushes (p := []) h hp
  unfold vfsResolve
  rw [if_neg hcap, hwork, hcomponents, hloop]
  rfl

end Resolve

/-- A path that is resolved is that of the place the input names exactly when the cuts leave that
place as it is; up to 255 bytes, when no name that remains has more than 63. -/
theorem resolve_exact (c : Cwd) (s : Bytes) (cap : Nat) (out : Bytes) (h : vfsResolve c.text s cap = some out) :
    ((out = render (named c.place s) ∧ ∀ c' : Cwd, vfsResolve c'.text out cap = some out) ↔
        kept c s = named c.place s) ∧
      ((joined c s).length ≤ WORK_SIZE - 1 →
        (kept c s = named c.place s ↔ ∀ part ∈ named c.place s, part.length ≤ 63)) ∧
      ∀ (c' : Cwd) (s' : Bytes), kept c s = named c.place s → kept c' s' = named c'.place s' →
        vfsResolve c'.text s' cap = some out → named c.place s = named c'.place s' := by
  obtain ⟨rfl, hheld⟩ := vfsResolve_some h
  have hproper := kept_proper c s
  have hnamed := named_proper c.proper s
  refine ⟨⟨fun heq => render_inj hproper hnamed heq.1, fun heq => ⟨by rw [heq], fun c' => ?_⟩⟩, fun hfits => ?_, ?_⟩
  · exact resolve_render c' hheld hproper (kept_short c s) (kept_length c s)
  · have hkept : kept c s = (named c.place s).map cut := by
      rw [kept, List.take_of_length_le hfits, named_joined]
    constructor
    · intro heq part hpart
      rw [← heq] at hpart
      exact kept_short c s part hpart
    · intro hshort
      rw [hkept]
      exact (List.map_congr_left fun part hpart => List.take_of_length_le (hshort part hpart)).trans (List.map_id _)
  · intro c' s' hc hc' h'
    obtain ⟨heq, -⟩ := vfsResolve_some h'
    rw [← hc, ← hc']
    exact render_inj hproper (kept_proper c' s') heq

def rootCwd : Cwd where
  place := []
  proper := fun part hpart => absurd hpart List.not_mem_nil
  short := by decide

/-- Up again, twice a slash, and where one is. -/
theorem resolve_exact_sample : ascii "/bin/sh" = render (named rootCwd.place (ascii "usr/../bin//./sh")) :=
  ((resolve_exact rootCwd (ascii "usr/../bin//./sh") 128 (ascii "/bin/sh") (by decide +kernel)).1.mpr
    (by decide +kernel)).1

/-- A name of sixty-four bytes is resolved to another one. -/
theorem long_name_cut :
    vfsResolve rootCwd.text (SLASH :: List.replicate 64 97) 128 = some (SLASH :: List.replicate 63 97) ∧
      vfsResolve rootCwd.text (SLASH :: List.replicate 63 97) 128 = some (SLASH :: List.replicate 63 97) ∧
      named rootCwd.place (SLASH :: List.replicate 64 97) ≠ named rootCwd.place (SLASH :: List.replicate 63 97) := by
  decide +kernel

/-! ## Where a task is -/

/-- `vfs_chdir`, which leaves this as the working directory; `isDir` is what `vfs_stat` says of a path other than the
root's. -/
def vfsChdir (isDir : Bytes → Bool) (cwd path : Bytes) : Bytes :=
  match vfsResolve cwd path VFS_PATH_MAX with
  | none => cwd
  | some abs => if abs = [SLASH] ∨ isDir abs = true then abs.take (VFS_PATH_MAX - 1) else cwd

/-- A place that a working directory may be at. -/
structure Reached (p : Place) : Prop where
  held : Held VFS_PATH_MAX p
  proper : ∀ part ∈ p, Proper part
  short : ∀ part ∈ p, part.length ≤ 63

def Reached.cwd {p : Place} (h : Reached p) : Cwd := ⟨p, h.proper, h.held.room⟩

theorem Reached.chdir (h : Reached p) (isDir : Bytes → Bool) (path : Bytes) :
    ∃ q, vfsChdir isDir (render p) path = render q ∧ Reached q := by
  unfold vfsChdir
  rcases hres : vfsResolve (render p) path VFS_PATH_MAX with _ | abs
  · exact ⟨p, rfl, h⟩
  · obtain ⟨rfl, hheld⟩ := vfsResolve_some (c := h.cwd) hres
    dsimp only
    split
    · refine ⟨_, List.take_of_length_le ?_, hheld, kept_proper _ _, kept_short _ _⟩
      exact Nat.le_sub_one_of_lt hheld.room
    · exact ⟨p, rfl, h⟩

theorem Reached.components (h : Reached p) {s : Bytes} (hne : s ≠ []) (hplain : SLASH ∉ s) (hs : s.length ≤ 2) :
    Vfs.components [] (work (render p) s) = p ++ [s] := by
  have hroom := h.held.room
  have hrel : s.head? ≠ some SLASH := fun hhead => hplain (List.mem_of_mem_head? hhead)
  have hparts : parts (joined h.cwd s) = p ++ [s] := by
    have hone : parts s = [s] := by rw [parts_name hplain, if_neg hne]
    have hway : parts (render p) = p := parts_render fun part hpart => ⟨(h.proper part hpart).ne_nil, (h.proper part hpart).plain⟩
    unfold joined
    rw [if_neg hrel]
    split
    · rename_i hroot
      rw [List.singleton_append, parts_slash, hone]
      exact (congrArg (· ++ [s]) hroot).symm
    · rw [List.append_assoc, List.singleton_append, parts_append, hone]
      exact congrArg (· ++ [s]) hway
  have hfits : (joined h.cwd s).length ≤ WORK_SIZE - 1 := by
    have hle : (joined h.cwd s).length ≤ (render p).length + 1 + s.length := by
      unfold joined
      rw [if_neg hrel]
      split
      · rw [List.length_append, List.length_singleton]
        omega
      · rw [List.length_append, List.length_append, List.length_singleton]
        exact le_rfl
    unfold WORK_SIZE VFS_PATH_MAX at *
    omega
  have hwork : work (render p) s = joined h.cwd s := (work_eq h.cwd s).trans (List.take_of_length_le hfits)
  have hcut : Vfs.components [] (joined h.cwd s) = (parts (joined h.cwd s)).map cut :=
    components_eq [] List.not_mem_nil _
  rw [hwork, hcut, hparts]
  refine (List.map_congr_left fun part hpart => List.take_of_length_le ?_).trans (List.map_id _)
  rcases List.mem_append.mp hpart with hpart | hpart
  · exact h.short part hpart
  · rw [List.mem_singleton.mp hpart]
    exact hs.trans (by decide)

/-- Wherever a task goes, its working directory is the path of a place, in room for it: it resolves to itself, a dot
leads to it, and two to the place above. -/
theorem cwd_stays (calls : List ((Bytes → Bool) × Bytes)) :
    ∃ p : Place, calls.foldl (fun cwd k => vfsChdir k.1 cwd k.2) [SLASH] = render p ∧
      (∀ part ∈ p, Proper part ∧ part.length ≤ 63) ∧ p.length ≤ DEPTH_MAX ∧ (render p).length < VFS_PATH_MAX ∧
      (∀ c : Cwd, vfsResolve c.text (render p) VFS_PATH_MAX = some (render p)) ∧
      vfsResolve (render p) [DOT] VFS_PATH_MAX = some (render p) ∧
      vfsResolve (render p) [DOT, DOT] VFS_PATH_MAX = some (render p.dropLast) := by
  have hrun : ∃ p : Place, calls.foldl (fun cwd k => vfsChdir k.1 cwd k.2) (render []) = render p ∧ Reached p := by
    have hstart : Reached [] := ⟨held_root (by decide), fun part hpart => absurd hpart List.not_mem_nil,
      fun part hpart => absurd hpart List.not_mem_nil⟩
    generalize ([] : Place) = p at hstart
    induction calls generalizing p with
    | nil => exact ⟨p, rfl, hstart⟩
    | cons k calls ih =>
      obtain ⟨q, hq, hreached⟩ := hstart.chdir k.1 k.2
      rw [List.foldl_cons, hq]
      exact ih q hreached
  obtain ⟨p, hp, h⟩ := hrun
  have hloop : p.foldlM (place VFS_PATH_MAX) ⟨[SLASH], []⟩ = some (rep p) := Held.pushes (p := []) h.held h.proper
  have hlen : (render p).length ≤ WORK_SIZE - 1 := h.held.room.le.trans (by decide)
  have hname : ∀ s o, s ≠ [] → SLASH ∉ s → s.length ≤ 2 → place VFS_PATH_MAX (rep p) s = some o →
      vfsResolve (render p) s VFS_PATH_MAX = some o.text := by
    intro s o hne hplain hs ho
    unfold vfsResolve
    rw [if_neg (by decide), h.components hne hplain hs, List.foldlM_append, hloop]
    simp [ho]
  refine ⟨p, hp, fun part hpart => ⟨h.proper part hpart, h.short part hpart⟩, h.held.depth, h.held.room,
    fun c => resolve_render c h.held h.proper h.short hlen, ?_, ?_⟩
  · exact hname [DOT] (rep p) (by decide) (by decide) (by decide) (if_pos rfl)
  · exact hname [DOT, DOT] (rep p.dropLast) (by decide) (by decide) (by decide) (place_pop p)

end Zelr.Vfs
