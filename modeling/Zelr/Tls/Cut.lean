import Zelr.Tls.Whole

/-!
# However a handshake is cut

Handshake messages do not line up with records.
-/

namespace Zelr.Tls

open Act

variable {d tail : Bytes} {α : Type} {left n : Nat} {K : Prims}

/-! ## Messages on the wire -/

/-- A message, with its header, as `hs_next` gives it back. -/
def Msg.of (m : UInt8 × Bytes) : Msg := ⟨m.1, m.2, framed m.1 m.2⟩

def wireOf (msgs : List (UInt8 × Bytes)) : Bytes := msgs.flatMap fun m => framed m.1 m.2

def wholeLen (m : UInt8 × Bytes) : Nat := 4 + m.2.length

def before : List (UInt8 × Bytes) → Nat → Nat
  | [], _ => 0
  | m :: msgs, off => if off < wholeLen m then off else before msgs (off - wholeLen m)

/-- Each record that begins inside these messages has room behind what is there of the message it goes on with. -/
def Fits (msgs : List (UInt8 × Bytes)) : Nat → List Bytes → Prop
  | _, [] => True
  | off, d :: pieces =>
    (off < (wireOf msgs).length → before msgs off + d.length ≤ HS_MAX) ∧ Fits msgs (off + d.length) pieces

theorem framed_length (m : UInt8 × Bytes) : (framed m.1 m.2).length = wholeLen m := by
  simp [framed, wholeLen]
  omega

theorem wireOf_cons (m : UInt8 × Bytes) (msgs : List (UInt8 × Bytes)) :
    wireOf (m :: msgs) = framed m.1 m.2 ++ wireOf msgs := List.flatMap_cons

variable {m : UInt8 × Bytes} {msgs : List (UInt8 × Bytes)} {pieces : List Bytes} {off : Nat} {avail more : Bytes}

theorem fits_first (hoff : off < wholeLen m) :
    Fits (m :: msgs) off (d :: pieces) ↔ off + d.length ≤ HS_MAX ∧ Fits (m :: msgs) (off + d.length) pieces := by
  have hinside : off < (wireOf (m :: msgs)).length := by
    rw [wireOf_cons, List.length_append, framed_length]
    omega
  simp only [Fits, before, if_pos hoff, hinside, true_implies]

theorem fits_later (hoff : wholeLen m ≤ off) : Fits (m :: msgs) off pieces ↔ Fits msgs (off - wholeLen m) pieces := by
  induction pieces generalizing off with
  | nil => exact Iff.rfl
  | cons d pieces ih =>
    have hless : off < (wireOf (m :: msgs)).length ↔ off - wholeLen m < (wireOf msgs).length := by
      rw [wireOf_cons, List.length_append, framed_length]
      omega
    have hrest : off + d.length - wholeLen m = off - wholeLen m + d.length := by omega
    simp only [Fits, before, if_neg (Nat.not_lt.mpr hoff), hless, ih (by omega : wholeLen m ≤ off + d.length), hrest]

theorem be24_framed (hlen : m.2.length < 2 ^ 24) (havail : 4 ≤ avail.length)
    (hstream : avail ++ tail = framed m.1 m.2 ++ more) : be24 avail 1 = m.2.length := by
  have hbyte : ∀ i, i < 4 → byteAt avail i = byteAt (framed m.1 m.2 ++ more) i := by
    intro i hi
    rw [← hstream, byteAt, byteAt, List.getD_append _ _ _ _ (by omega)]
  unfold be24 be16
  rw [hbyte 1 (by omega), hbyte 2 (by omega), hbyte 3 (by omega)]
  simp only [framed, beBytes, byteAt, List.cons_append, List.getD_cons_succ, List.getD_cons_zero]
  simp
  omega

theorem hsWhole_framed (hlen : m.2.length < 2 ^ 24) (havail : wholeLen m ≤ avail.length)
    (hstream : avail ++ tail = framed m.1 m.2 ++ more) : hsWhole avail = some (Msg.of m) := by
  have h24 := be24_framed hlen (by unfold wholeLen at havail; omega) hstream
  obtain ⟨rest, hrest⟩ : ∃ rest, avail = framed m.1 m.2 ++ rest := by
    refine ⟨avail.drop (wholeLen m), ?_⟩
    have htake := congrArg (List.take (wholeLen m)) hstream
    rw [List.take_append_of_le_length havail, List.take_append_of_le_length (framed_length m).ge, ← framed_length,
      List.take_length, framed_length] at htake
    rw [← htake, List.take_append_drop]
  unfold hsWhole
  dsimp only
  rw [h24, if_pos (by unfold wholeLen at havail; omega), hrest]
  have hframe : 4 + m.2.length = (framed m.1 m.2).length := (framed_length m).symm
  rw [hframe, List.take_left]
  simp [Msg.of, framed, byteAt]

theorem hsWhole_short (hlen : m.2.length < 2 ^ 24) (havail : avail.length < wholeLen m)
    (hstream : avail ++ tail = framed m.1 m.2 ++ more) : hsWhole avail = none := by
  unfold hsWhole
  dsimp only
  refine if_neg ?_
  rintro ⟨h4, hwhole⟩
  rw [be24_framed hlen h4 hstream] at hwhole
  unfold wholeLen at havail
  omega

/-! ## The records of a handshake -/

/-- A stream that begins with records of the handshake: the data of each of them. Changes of cipher may stand in
between. -/
inductive Records (K : Prims) (encrypted : Bool) : Reader → Bytes → List Bytes → Prop
  | rest (r : Reader) (s : Bytes) : Records K encrypted r s []
  | piece {r r' : Reader} {head body data s : Bytes} {pieces : List Bytes} : IsRecord head body →
    r.openAs K encrypted head body = some (REC_HANDSHAKE, data, r') → Records K encrypted r' s pieces →
    Records K encrypted r (head ++ body ++ s) (data :: pieces)
  | change {r r' : Reader} {head body data s : Bytes} {pieces : List Bytes} : IsRecord head body →
    r.openAs K encrypted head body = some (REC_CHANGE_CIPHER, data, r') → Records K encrypted r' s pieces →
    Records K encrypted r (head ++ body ++ s) pieces

def Reader.withHs (r : Reader) (hs : Bytes) (hsPos : Nat) : Reader := { r with hs, hsPos }

section Records

variable {K : Prims} {encrypted : Bool} {r r' : Reader} {head body data s hs : Bytes} {hsPos : Nat} {type : UInt8}

theorem openAs_withHs (hs : Bytes) (hsPos : Nat) : (r.withHs hs hsPos).openAs K encrypted head body =
    (r.openAs K encrypted head body).map fun x => (x.1, x.2.1, x.2.2.withHs hs hsPos) := by
  unfold Reader.openAs Reader.openRecord Reader.open12 Reader.open13 Reader.withHs
  dsimp only
  split_ifs <;> first | rfl | (split <;> first | rfl | (split_ifs <;> rfl))

theorem openAs_hs (h : r.openAs K encrypted head body = some (type, data, r')) : r' = r'.withHs r.hs r.hsPos := by
  have hsame := @openAs_withHs K encrypted r head body r.hs r.hsPos
  have hr : r.withHs r.hs r.hsPos = r := rfl
  rw [hr, h, Option.map_some] at hsame
  exact congrArg (fun x => x.2.2) (Option.some.inj hsame)

theorem Records.withHs (h : Records K encrypted r s pieces) (hs : Bytes) (hsPos : Nat) :
    Records K encrypted (r.withHs hs hsPos) s pieces := by
  induction h with
  | rest r s => exact .rest _ s
  | piece hrec hopen _ ih => exact .piece hrec (by rw [openAs_withHs, hopen]; rfl) ih
  | change hrec hopen _ ih => exact .change hrec (by rw [openAs_withHs, hopen]; rfl) ih

theorem open12_length {outer : UInt8} (h : r.open12 K outer body = some (type, data, r')) : data.length ≤ body.length := by
  unfold Reader.open12 at h
  dsimp only at h
  split at h
  · cases h
  · split at h
    · cases h
    · next hopen =>
      split at h
      · cases h
      · cases h
        rw [K.open_length hopen, List.length_take, List.length_drop]
        omega

theorem open13_length (h : r.open13 K head body = some (type, data, r')) : data.length ≤ body.length := by
  unfold Reader.open13 at h
  dsimp only at h
  split at h
  · cases h
  · split at h
    · cases h
    · next hopen =>
      split at h
      · cases h
      · cases h
        rw [List.length_take, K.open_length hopen, List.length_take]
        omega

theorem openAs_length (h : r.openAs K encrypted head body = some (type, data, r')) : data.length ≤ body.length := by
  have hclear : some (byteAt head 0, body, r) = some (type, data, r') → data.length ≤ body.length := by
    rintro ⟨⟩
    exact le_rfl
  have hnothing : ∀ r1, some (REC_CHANGE_CIPHER, [], r1) = some (type, data, r') → data.length ≤ body.length := by
    rintro r1 ⟨⟩
    exact Nat.zero_le _
  unfold Reader.openAs at h
  split at h
  · split at h
    · cases h
    · exact hclear h
  · unfold Reader.openRecord at h
    dsimp only at h
    split at h
    · split at h
      · split at h
        · cases h
        · exact hnothing _ h
      · exact hnothing _ h
    · split at h
      · split at h
        · cases h
        · exact hclear h
      · split at h
        · exact open12_length h
        · exact open13_length h

theorem Records.length_le (h : Records K encrypted r s pieces) : ∀ d ∈ pieces, d.length ≤ REC_MAX := by
  induction h with
  | rest r s => simp
  | piece hrec hopen _ ih =>
    rintro d (_ | ⟨_, hd⟩)
    · exact (openAs_length hopen).trans hrec.fits
    · exact ih d hd
  | change _ _ _ ih => exact ih

end Records

/-! ## One message -/

/-- What hs_next needs of its buffer: the message it stands before lies in it, and it in what was allocated. -/
structure Inside (z : Session) : Prop where
  pos : z.hsPos ≤ z.hs.length
  room : z.hs.length ≤ HS_MAX

/-- A session that will read these records, and does not wait in vain for any of them. -/
structure Reading (K : Prims) (encrypted : Bool) (z : Session) (pieces : List Bytes) : Prop where
  parked : Parked z
  prompt : .timeout ∉ z.net
  inside : Inside z
  records : Records K encrypted z.reader (pending z) pieces

def held (z : Session) : Bytes := z.hs.drop z.hsPos

def TOO_BIG : String := "the handshake is too big to hold"
def IMPOSSIBLE : String := "a handshake message claims an impossible size"

section Next

variable {K : Prims} {encrypted : Bool} {z z' : Session}

theorem refuse_error (why : String) (desc : Alert) : ((refuse K why desc : Act Session α) z).2.error = why := by
  obtain ⟨z1, hsent⟩ : ∃ z1, sendAlert K desc z = (some (), z1) := by
    unfold sendAlert
    rw [bind_get]
    split
    · exact ⟨z, rfl⟩
    · exact ⟨_, rfl⟩
  unfold refuse
  rw [bind_of_some hsent]
  rfl

theorem Reading.with_hs (h : Reading K encrypted z pieces) {hs : Bytes} {hsPos : Nat} (hpos : hsPos ≤ hs.length)
    (hroom : hs.length ≤ HS_MAX) : Reading K encrypted { z with hs, hsPos } pieces where
  parked := ⟨⟨h.parked.head, h.parked.room, h.parked.fits⟩, h.parked.short⟩
  prompt := h.prompt
  inside := ⟨hpos, hroom⟩
  records := h.records.withHs hs hsPos

theorem Gave.reading {head body s data : Bytes} {type : UInt8} {r' : Reader} (h : Gave z z' head s data r')
    (hhead : head.length = 5) (hopen : z.reader.openAs K encrypted head body = some (type, data, r'))
    (hinside : Inside z) (hrecords : Records K encrypted r' s pieces) :
    z'.hs = z.hs ∧ z'.hsPos = z.hsPos ∧ Reading K encrypted z' pieces := by
  have hsame := h.reader.trans (openAs_hs hopen)
  have hhs : z'.hs = z.hs := congrArg Reader.hs hsame
  have hpos : z'.hsPos = z.hsPos := congrArg Reader.hsPos hsame
  refine ⟨hhs, hpos, h.parked hhead, h.prompt, ⟨?_, ?_⟩, ?_⟩
  · rw [hhs, hpos]
    exact hinside.pos
  · rw [hhs]
    exact hinside.room
  · rw [h.reader, h.pending]
    exact hrecords

theorem hsFillLoop_spec (h : Reading K encrypted z (d :: pieces)) (hleft : netSize z.net < left) :
    (z.hs.length + d.length ≤ HS_MAX ∧ ∃ z', hsFillLoop K encrypted left z = (some (), z') ∧
      Reading K encrypted z' pieces ∧ z'.hs = z.hs ++ d ∧ z'.hsPos = z.hsPos ∧ netSize z'.net < netSize z.net) ∨
    (HS_MAX < z.hs.length + d.length ∧ ∃ z', hsFillLoop K encrypted left z = (none, z') ∧ z'.error = TOO_BIG) := by
  induction left generalizing z with
  | zero => omega
  | succ left ih =>
    obtain ⟨hparked, hprompt, hinside, hrecords⟩ := h
    generalize hr : z.reader = r at hrecords
    generalize hs : pending z = s at hrecords
    generalize hps : d :: pieces = ps at hrecords
    unfold hsFillLoop
    cases hrecords with
    | rest => cases hps
    | piece hrec hopen hlater =>
      cases hps
      have hread := @readRecord_openAs K z _ _ _ encrypted hparked hprompt hrec hs
      rw [← hr] at hopen
      rw [hopen] at hread
      obtain ⟨z1, hread, hgave⟩ := hread
      obtain ⟨hhs, hpos, hreading⟩ := hgave.reading hrec.five hopen hinside hlater
      rw [bind_of_some hread, bind_get]
      dsimp only
      rw [if_neg (by decide), if_neg (by decide), hhs]
      by_cases hbig : HS_MAX < z.hs.length + d.length
      · rw [if_pos hbig]
        exact .inr ⟨hbig, _, refuse_eq _ _ _, refuse_error _ _⟩
      · rw [if_neg hbig]
        refine .inl ⟨Nat.le_of_not_lt hbig, _, rfl, ?_, ?_, hpos, hgave.less⟩
        · have hlen : (z1.hs ++ z1.record.take d.length).length = z.hs.length + d.length := by
            rw [List.length_append, hgave.front, hhs]
          refine hreading.with_hs ?_ (by omega)
          have := hinside.pos
          rw [hpos]
          omega
        · dsimp only
          rw [hgave.front, hhs]
    | change hrec hopen hlater =>
      subst hps
      have hread := @readRecord_openAs K z _ _ _ encrypted hparked hprompt hrec hs
      rw [← hr] at hopen
      rw [hopen] at hread
      obtain ⟨z1, hread, hgave⟩ := hread
      obtain ⟨hhs, hpos, hreading⟩ := hgave.reading hrec.five hopen hinside hlater
      have hless := hgave.less
      rw [bind_of_some hread, bind_get]
      dsimp only
      rw [if_pos rfl]
      have hnext := ih hreading (by omega)
      rw [hhs, hpos] at hnext
      refine hnext.imp_left ?_
      rintro ⟨hfits, z', hfill, hread', hhs', hpos', hless'⟩
      exact ⟨hfits, z', hfill, hread', hhs', hpos', by omega⟩

theorem hsFill_spec (h : Reading K encrypted z (d :: pieces)) :
    (z.hs.length + d.length ≤ HS_MAX ∧ ∃ z', hsFill K encrypted z = (some (), z') ∧
      Reading K encrypted z' pieces ∧ z'.hs = z.hs ++ d ∧ z'.hsPos = z.hsPos ∧ netSize z'.net < netSize z.net) ∨
    (HS_MAX < z.hs.length + d.length ∧ ∃ z', hsFill K encrypted z = (none, z') ∧ z'.error = TOO_BIG) :=
  hsFillLoop_spec h (Nat.lt_succ_self _)

/-- How a call can go: the first message comes back, or it cannot be held. -/
inductive NextSays (K : Prims) (encrypted : Bool) (z : Session) (pieces : List Bytes) (m : UInt8 × Bytes)
    (more : Bytes) : Option Msg × Session → Prop
  | took {z' : Session} {pieces' : List Bytes} : Reading K encrypted z' pieces' →
    held z' ++ pieces'.flatten = more → m.2.length ≤ HS_MAX →
    (∀ msgs, Fits (m :: msgs) (held z).length pieces ↔ Fits msgs (held z').length pieces') →
    NextSays K encrypted z pieces m more (some (Msg.of m), z')
  | impossible {z' : Session} : HS_MAX < m.2.length → z'.error = IMPOSSIBLE →
    NextSays K encrypted z pieces m more (none, z')
  | tooBig {z' : Session} : (∀ msgs, ¬ Fits (m :: msgs) (held z).length pieces) → z'.error = TOO_BIG →
    NextSays K encrypted z pieces m more (none, z')

theorem hsNextLoop_says (h : Reading K encrypted z pieces) (hleft : netSize z.net < left)
    (hlen : m.2.length < 2 ^ 24) (hstream : held z ++ pieces.flatten = framed m.1 m.2 ++ more) :
    NextSays K encrypted z pieces m more (hsNextLoop K encrypted left z) := by
  induction left generalizing z pieces with
  | zero => omega
  | succ left ih =>
    unfold hsNextLoop
    rw [bind_get]
    have hheld : z.hs.drop z.hsPos = held z := rfl
    rw [hheld]
    by_cases himpossible : 4 ≤ (held z).length ∧ HS_MAX < be24 (held z) 1
    · rw [if_pos himpossible, refuse_eq]
      rw [be24_framed hlen himpossible.1 hstream] at himpossible
      exact .impossible himpossible.2 (refuse_error _ _)
    · rw [if_neg himpossible]
      by_cases hwhole : wholeLen m ≤ (held z).length
      · -- the message is there
        have h4 : 4 ≤ (held z).length := by
          unfold wholeLen at hwhole
          omega
        rw [be24_framed hlen h4 hstream] at himpossible
        rw [hsWhole_framed hlen hwhole hstream]
        dsimp only
        rw [bind_modify, note, bind_modify, pure_apply]
        have hframed : (Msg.of m).whole.length = wholeLen m := framed_length m
        have hrest : (held z).drop (wholeLen m) ++ pieces.flatten = more := by
          have hdrop := congrArg (List.drop (wholeLen m)) hstream
          rw [List.drop_append_of_le_length hwhole, ← framed_length, List.drop_left] at hdrop
          rw [← framed_length]
          exact hdrop
        have hlater : held { z with hsPos := z.hsPos + wholeLen m, log := z.log ++ [.got (Msg.of m).whole] } =
            (held z).drop (wholeLen m) := (List.drop_drop).symm
        rw [hframed]
        refine @NextSays.took K encrypted z pieces m more _ pieces ⟨?_, h.prompt, ⟨?_, h.inside.room⟩, ?_⟩ ?_ (by omega)
          fun msgs => ?_
        · exact ⟨⟨h.parked.head, h.parked.room, h.parked.fits⟩, h.parked.short⟩
        · have hsize : (held z).length = z.hs.length - z.hsPos := List.length_drop
          have := h.inside.pos
          dsimp only
          omega
        · exact h.records.withHs z.hs (z.hsPos + wholeLen m)
        · rw [hlater]
          exact hrest
        · rw [hlater, List.length_drop]
          exact fits_later hwhole
      · -- another record is read
        have hshort : (held z).length < wholeLen m := Nat.lt_of_not_le hwhole
        rw [hsWhole_short hlen hshort hstream]
        dsimp only
        rw [bind_modify]
        have hroom : (held z).length ≤ HS_MAX := by
          have hsize : (held z).length = z.hs.length - z.hsPos := List.length_drop
          have := h.inside.room
          omega
        have hmoved : Reading K encrypted { z with hs := z.hs.drop z.hsPos, hsPos := 0 } pieces :=
          h.with_hs (Nat.zero_le _) hroom
        rcases pieces with _ | ⟨d, pieces⟩
        · -- there is one, for the message is not over
          rw [List.flatten_nil, List.append_nil] at hstream
          rw [hstream, List.length_append, framed_length] at hshort
          omega
        · have hfits : ∀ msgs, Fits (m :: msgs) (held z).length (d :: pieces) ↔
              (held z).length + d.length ≤ HS_MAX ∧ Fits (m :: msgs) ((held z).length + d.length) pieces :=
            fun msgs => fits_first hshort
          rcases hsFill_spec hmoved with ⟨hfit, z1, hfill, hread1, hhs1, hpos1, hless1⟩ | ⟨hbig, z1, hfill, herror⟩
          · rw [bind_of_some hfill]
            have hheld1 : held z1 = held z ++ d := by
              rw [held, hhs1, hpos1]
              rfl
            have hlen1 : (held z1).length = (held z).length + d.length := by rw [hheld1, List.length_append]
            have hstream1 : held z1 ++ pieces.flatten = framed m.1 m.2 ++ more := by
              rw [hheld1, List.append_assoc, ← List.flatten_cons]
              exact hstream
            have hless : netSize z1.net < left := by
              have : netSize z1.net < netSize z.net := hless1
              omega
            have hsays := ih hread1 hless hstream1
            generalize hsNextLoop K encrypted left z1 = res at hsays ⊢
            cases hsays with
            | took hread' hmore hsmall hlater =>
              refine .took hread' hmore hsmall fun msgs => ?_
              rw [hfits, ← hlen1, hlater]
              exact and_iff_right (hlen1 ▸ hfit)
            | impossible hmax herror => exact .impossible hmax herror
            | tooBig hnot herror =>
              refine .tooBig (fun msgs hall => hnot msgs ?_) herror
              rw [hlen1]
              exact ((hfits msgs).mp hall).2
          · rw [bind_of_none hfill]
            refine .tooBig (fun msgs hall => ?_) herror
            have hroom' : (held z).length + d.length ≤ HS_MAX := ((hfits msgs).mp hall).1
            have hbig' : HS_MAX < (held z).length + d.length := hbig
            omega

/-! ## The buffer -/

/-- What was in the buffer is still there, and it is not over full. -/
structure Kept (h : Bytes) (p : Nat) (z : Session) : Prop where
  pos : z.hsPos = p
  front : h <+: z.hs
  room : z.hs.length ≤ HS_MAX

theorem kept_quiet (h : Bytes) (p : Nat) : Quiet K (Kept h p) where
  reading := fun _ _ _ _ _ _ _ _ _ _ _ h => ⟨h.pos, h.front, h.room⟩
  changed := fun _ _ _ _ h => ⟨h.pos, h.front, h.room⟩
  alert := sendAlert_keeps fun _ _ _ _ _ _ _ h => ⟨h.pos, h.front, h.room⟩

theorem hsFillLoop_kept (encrypted : Bool) (left : Nat) (h : Bytes) (p : Nat) :
    Preserves (Kept h p) (hsFillLoop K encrypted left) := by
  have hquiet := @kept_quiet K h p
  induction left with
  | zero => exact Preserves.bind Preserves.get fun _ => failWith_preserves hquiet.curt _
  | succ left ih =>
    refine Preserves.bind (readRecord_preserves hquiet _) fun r => ?_
    intro z hz
    rw [bind_get]
    rcases r with _ | ⟨type, len⟩
    · exact failWith_preserves hquiet.curt _ z hz
    · dsimp only
      split
      · exact ih z hz
      · split
        · exact refuse_preserves hquiet.curt _ _ z hz
        · split
          · exact refuse_preserves hquiet.curt _ _ z hz
          · refine ⟨hz.pos, hz.front.trans (List.prefix_append _ _), ?_⟩
            show (z.hs ++ z.record.take len).length ≤ HS_MAX
            rw [List.length_append, List.length_take]
            omega

theorem hsFill_kept (encrypted : Bool) (h : Bytes) (p : Nat) : Preserves (Kept h p) (hsFill K encrypted) :=
  fun z hz => hsFillLoop_kept encrypted _ h p z hz

theorem moved_inside (hz : Inside z) : Inside (hsFill K encrypted { z with hs := held z, hsPos := 0 }).2 ∧
    (held z) <+: (hsFill K encrypted { z with hs := held z, hsPos := 0 }).2.hs := by
  have hroom : (held z).length ≤ HS_MAX := by
    have hsize : (held z).length = z.hs.length - z.hsPos := List.length_drop
    have := hz.room
    omega
  have hkept := hsFill_kept (K := K) encrypted (held z) 0 { z with hs := held z, hsPos := 0 }
    ⟨rfl, List.prefix_refl _, hroom⟩
  refine ⟨⟨?_, hkept.room⟩, hkept.front⟩
  rw [hkept.pos]
  exact Nat.zero_le _

/-- The parts of the buffer that `hs_next` reads and writes, in turn: where each begins, and how long it is. -/
def hsTouches (K : Prims) (encrypted : Bool) : Nat → Session → List (Nat × Nat)
  | 0, _ => []
  | left + 1, z =>
    let avail := held z
    let header := if 4 ≤ avail.length then [(z.hsPos, 4)] else []
    if 4 ≤ avail.length ∧ HS_MAX < be24 avail 1 then header
    else
      match hsWhole avail with
      | some m => header ++ [(z.hsPos, m.whole.length)]
      | none =>
        let moved := if z.hsPos = 0 then [] else [(z.hsPos, avail.length), (0, avail.length)]
        let filled := hsFill K encrypted { z with hs := avail, hsPos := 0 }
        header ++ moved ++ (avail.length, filled.2.hs.length - avail.length) ::
          if filled.1 = none then [] else hsTouches K encrypted left filled.2

theorem hsWhole_length {w : Msg} (h : hsWhole avail = some w) : w.whole.length ≤ avail.length := by
  unfold hsWhole at h
  dsimp only at h
  split at h
  · cases h
    rw [List.length_take]
    exact min_le_right _ _
  · cases h

theorem hsTouches_inside (hz : Inside z) : ∀ x ∈ hsTouches K encrypted left z, x.1 + x.2 ≤ HS_MAX := by
  induction left generalizing z with
  | zero => simp [hsTouches]
  | succ left ih =>
    have hsize : (held z).length = z.hs.length - z.hsPos := List.length_drop
    have hpos := hz.pos
    have hroom := hz.room
    have hheader : ∀ x ∈ (if 4 ≤ (held z).length then [(z.hsPos, 4)] else []), x.1 + x.2 ≤ HS_MAX := by
      intro x hx
      split at hx
      · rw [List.mem_singleton] at hx
        rw [hx]
        omega
      · cases hx
    intro x hx
    unfold hsTouches at hx
    dsimp only at hx
    split at hx
    · exact hheader x hx
    · split at hx
      · next w hw =>
        have hlen := hsWhole_length hw
        rcases List.mem_append.mp hx with hx | hx
        · exact hheader x hx
        · rw [List.mem_singleton] at hx
          rw [hx]
          dsimp only
          omega
      · obtain ⟨hinside, hfront⟩ := @moved_inside K encrypted z hz
        have hlen := hfront.length_le
        have hroom' := hinside.room
        rcases List.mem_append.mp hx with hx | hx
        · rcases List.mem_append.mp hx with hx | hx
          · exact hheader x hx
          · split at hx
            · cases hx
            · simp only [List.mem_cons, List.not_mem_nil, or_false] at hx
              rcases hx with rfl | rfl
              · dsimp only
                omega
              · dsimp only
                omega
        · rcases List.mem_cons.mp hx with rfl | hx
          · dsimp only
            omega
          · split at hx
            · cases hx
            · exact ih hinside x hx

theorem refuse_inside (why : String) (desc : Alert) (hz : Inside z) :
    Inside ((refuse K why desc : Act Session α) z).2 := by
  have hkept := refuse_preserves (α := α) (kept_quiet (K := K) z.hs z.hsPos).curt why desc z
    ⟨rfl, List.prefix_refl _, hz.room⟩
  exact ⟨hkept.pos ▸ hz.pos.trans hkept.front.length_le, hkept.room⟩

theorem hsNextLoop_inside (hz : Inside z) : Inside (hsNextLoop K encrypted left z).2 := by
  induction left generalizing z with
  | zero => exact ⟨hz.pos, hz.room⟩
  | succ left ih =>
    unfold hsNextLoop
    rw [bind_get]
    split
    · exact refuse_inside _ _ hz
    · rcases hw : hsWhole (z.hs.drop z.hsPos) with _ | w
      · dsimp only
        rw [bind_modify, bind_apply]
        have hmoved := (@moved_inside K encrypted z hz).1
        unfold held at hmoved
        rcases hfill : hsFill K encrypted { z with hs := z.hs.drop z.hsPos, hsPos := 0 } with ⟨_ | _, z1⟩
        · rw [hfill] at hmoved
          exact hmoved
        · rw [hfill] at hmoved
          exact ih hmoved
      · have hlen := hsWhole_length hw
        have hsize : (z.hs.drop z.hsPos).length = z.hs.length - z.hsPos := List.length_drop
        have hpos := hz.pos
        refine ⟨?_, hz.room⟩
        show z.hsPos + w.whole.length ≤ z.hs.length
        omega

/-! ## All messages -/

/-- So many calls of `hs_next`, up to the first that fails: what they gave back, and the session after them. -/
def nextMany (K : Prims) (encrypted : Bool) : Nat → Session → List Msg × Session
  | 0, z => ([], z)
  | n + 1, z =>
    match hsNext K encrypted z with
    | (none, z') => ([], z')
    | (some w, z') =>
      let later := nextMany K encrypted n z'
      (w :: later.1, later.2)

theorem nextMany_inside (hz : Inside z) : Inside (nextMany K encrypted n z).2 := by
  induction n generalizing z with
  | zero => exact hz
  | succ n ih =>
    have hnext : Inside (hsNext K encrypted z).2 := hsNextLoop_inside hz
    unfold nextMany
    split
    · next heq =>
      rw [heq] at hnext
      exact hnext
    · next heq =>
      rw [heq] at hnext
      exact ih hnext

theorem fits_nil : Fits [] off pieces := by
  induction pieces generalizing off with
  | nil => trivial
  | cons d pieces ih => exact ⟨fun h => absurd h (Nat.not_lt_zero _), ih⟩

theorem nextMany_reads (h : Reading K encrypted z pieces) (hlens : ∀ m ∈ msgs, m.2.length < 2 ^ 24)
    (hstream : held z ++ pieces.flatten = wireOf msgs ++ more) :
    ((nextMany K encrypted msgs.length z).1 = msgs.map Msg.of ↔
      (∀ m ∈ msgs, m.2.length ≤ HS_MAX) ∧ Fits msgs (held z).length pieces) ∧
    (nextMany K encrypted msgs.length z).1 <+: msgs.map Msg.of ∧
    ((nextMany K encrypted msgs.length z).1 ≠ msgs.map Msg.of →
      (nextMany K encrypted msgs.length z).2.error = IMPOSSIBLE ∨
        (nextMany K encrypted msgs.length z).2.error = TOO_BIG) := by
  induction msgs generalizing z pieces with
  | nil => exact ⟨⟨fun _ => ⟨by simp, fits_nil⟩, fun _ => rfl⟩, List.prefix_refl _, fun hne => absurd rfl hne⟩
  | cons m msgs ih =>
    rw [wireOf_cons, List.append_assoc] at hstream
    have hsays := hsNextLoop_says h (Nat.lt_succ_self _) (hlens m (by simp)) hstream
    have hnext : hsNextLoop K encrypted (netSize z.net + 1) z = hsNext K encrypted z := rfl
    rw [hnext] at hsays
    rw [List.length_cons]
    unfold nextMany
    generalize hsNext K encrypted z = res at hsays ⊢
    cases hsays with
    | took hread hmore hsmall hfits =>
      obtain ⟨hall, hpre, herror⟩ := ih hread (fun m' hm' => hlens m' (by simp [hm'])) hmore
      dsimp only
      rw [List.map_cons]
      refine ⟨?_, List.cons_prefix_cons.mpr ⟨rfl, hpre⟩, fun hne => herror fun heq => hne (by rw [heq])⟩
      rw [List.cons_inj_right, hall, hfits, List.forall_mem_cons]
      tauto
    | impossible hmax herror =>
      refine ⟨⟨fun heq => (by cases heq), fun hok => ?_⟩, List.nil_prefix, fun _ => .inl herror⟩
      have := hok.1 m (by simp)
      omega
    | tooBig hnot herror =>
      exact ⟨⟨fun heq => (by cases heq), fun hok => absurd hok.2 (hnot msgs)⟩, List.nil_prefix, fun _ => .inr herror⟩

theorem fits_of_small (hpieces : ∀ d ∈ pieces, d.length ≤ REC_MAX)
    (hsmall : ∀ m ∈ msgs, wholeLen m + REC_MAX ≤ HS_MAX + 1) : Fits msgs off pieces := by
  have hbefore : ∀ off, off < (wireOf msgs).length → before msgs off + REC_MAX ≤ HS_MAX := by
    clear hpieces
    induction msgs with
    | nil => exact fun off hoff => absurd hoff (Nat.not_lt_zero _)
    | cons m msgs ih =>
      intro off hoff
      rw [wireOf_cons, List.length_append, framed_length] at hoff
      unfold before
      split
      · have := hsmall m (by simp)
        omega
      · exact ih (fun m' hm' => hsmall m' (by simp [hm'])) _ (by omega)
  induction pieces generalizing off with
  | nil => trivial
  | cons d pieces ih =>
    refine ⟨fun hoff => ?_, ih fun d' hd' => hpieces d' (by simp [hd'])⟩
    have := hbefore off hoff
    have := hpieces d (by simp)
    omega

/-- However the messages are cut into records, they come back one after another as long as each record has room behind
the part of its first message; otherwise a prefix of them does and then one is refused. -/
theorem hsNext_reassembles (K : Prims) (encrypted : Bool) (z : Session) (pieces : List Bytes)
    (msgs : List (UInt8 × Bytes)) (more : Bytes) (hreading : Reading K encrypted z pieces)
    (hlens : ∀ m ∈ msgs, m.2.length < 2 ^ 24) (hstream : held z ++ pieces.flatten = wireOf msgs ++ more) :
    let got := nextMany K encrypted msgs.length z
    (got.1 = msgs.map Msg.of ↔ (∀ m ∈ msgs, m.2.length ≤ HS_MAX) ∧ Fits msgs (held z).length pieces) ∧
      got.1 <+: msgs.map Msg.of ∧
      (got.1 ≠ msgs.map Msg.of → got.2.error = IMPOSSIBLE ∨ got.2.error = TOO_BIG) ∧
      ((∀ m ∈ msgs, wholeLen m + REC_MAX ≤ HS_MAX + 1) → got.1 = msgs.map Msg.of) ∧
      ∀ n left, ∀ x ∈ hsTouches K encrypted left (nextMany K encrypted n z).2, x.1 + x.2 ≤ HS_MAX := by
  obtain ⟨hall, hpre, herror⟩ := nextMany_reads hreading hlens hstream
  refine ⟨hall, hpre, herror, fun hsmall => hall.mpr ⟨fun m hm => ?_, ?_⟩, fun n left => ?_⟩
  · have := hsmall m hm
    unfold wholeLen REC_MAX at this
    omega
  · exact fits_of_small hreading.records.length_le hsmall
  · exact hsTouches_inside (nextMany_inside hreading.inside)

end Next

/-!
 ### The same bytes cut in two ways

With its last byte in a record of its own both messages come back; with that byte and the second
message in one record neither does.
-/

def cutAt : List Nat → Bytes → List Bytes
  | [], s => [s]
  | n :: ns, s => s.take n :: cutAt ns (s.drop n)

theorem cutAt_flatten (ns : List Nat) (s : Bytes) : (cutAt ns s).flatten = s := by
  induction ns generalizing s with
  | nil => simp [cutAt]
  | cons n ns ih => rw [cutAt, List.flatten_cons, ih, List.take_append_drop]

theorem recLen_header (type : UInt8) (hn : n < 2 ^ 16) : recLen (header type n) = n := by
  simp [recLen, header, beBytes, byteAt]
  omega

theorem isRecord_header (type : UInt8) (hpos : 0 < d.length) (hmax : d.length ≤ REC_MAX) :
    IsRecord (header type d.length) d where
  five := rfl
  size := (recLen_header type (by unfold REC_MAX at hmax; omega)).symm
  pos := hpos
  fits := hmax

theorem records_plain {r : Reader} (hv12 : r.v12 = false)
    (hpieces : ∀ d ∈ pieces, 0 < d.length ∧ d.length ≤ REC_MAX) :
    Records K false r (pieces.flatMap (plainRecord REC_HANDSHAKE)) pieces := by
  induction pieces with
  | nil => exact .rest _ _
  | cons d pieces ih =>
    obtain ⟨hpos, hmax⟩ := hpieces d (by simp)
    have hopen : r.openAs K false (header REC_HANDSHAKE d.length) d = some (REC_HANDSHAKE, d, r) := by
      have htype : byteAt (header REC_HANDSHAKE d.length) 0 = REC_HANDSHAKE := rfl
      unfold Reader.openAs
      rw [htype, if_pos ⟨hv12, rfl, by decide⟩, if_neg (by decide)]
    rw [List.flatMap_cons]
    exact .piece (isRecord_header _ hpos hmax) hopen (ih fun d' hd' => hpieces d' (by simp [hd']))

/-- A new session that these records are sent to in the clear. -/
def sampleRecords (pieces : List Bytes) : Session := { net := [.bytes (pieces.flatMap (plainRecord REC_HANDSHAKE))] }

theorem sampleRecords_reading (hpieces : ∀ d ∈ pieces, 0 < d.length ∧ d.length ≤ REC_MAX) :
    Reading K false (sampleRecords pieces) pieces where
  parked := parked_of_zero rfl rfl
  prompt := by simp [sampleRecords]
  inside := ⟨le_rfl, Nat.zero_le _⟩
  records := by
    rw [pending_of_zero rfl, sampleRecords, bytesOf, bytesOf, List.append_nil]
    exact records_plain rfl hpieces

theorem hsNext_reassembles_sample :
    (nextMany samplePrims false 2 (sampleRecords [[1], [0, 0], [2, 7, 7, 14], [0, 0, 0]])).1 =
      [⟨1, [7, 7], [1, 0, 0, 2, 7, 7]⟩, ⟨14, [], [14, 0, 0, 0]⟩] :=
  (hsNext_reassembles samplePrims false (sampleRecords [[1], [0, 0], [2, 7, 7, 14], [0, 0, 0]]) _
    [(1, [7, 7]), (14, [])] [] (sampleRecords_reading (by decide)) (by decide) rfl).2.2.2.1 (by decide)

def sampleLong : List (UInt8 × Bytes) := [(11, List.replicate 32764 0), (14, [])]

theorem sampleLong_length : (wireOf sampleLong).length = 32772 := by
  rw [sampleLong, wireOf_cons, wireOf_cons, List.length_append, List.length_append, framed_length, framed_length]
  simp only [wholeLen, List.length_replicate]
  rfl

theorem sampleLong_cut (hn : 16383 ≤ n) (hn' : n ≤ 16384) :
    (nextMany samplePrims false 2 (sampleRecords (cutAt [16384, n] (wireOf sampleLong)))).1 = sampleLong.map Msg.of ↔
      n = 16384 := by
  have hlen := sampleLong_length
  generalize hs : wireOf sampleLong = s at hlen ⊢
  have hcut : cutAt [16384, n] s = [s.take 16384, (s.drop 16384).take n, (s.drop 16384).drop n] := rfl
  have hread : Reading samplePrims false (sampleRecords (cutAt [16384, n] s)) (cutAt [16384, n] s) := by
    refine sampleRecords_reading fun d hd => ?_
    rw [hcut] at hd
    simp only [List.mem_cons, List.not_mem_nil, or_false] at hd
    rcases hd with rfl | rfl | rfl
    · rw [List.length_take]
      unfold REC_MAX
      omega
    · rw [List.length_take, List.length_drop]
      unfold REC_MAX
      omega
    · rw [List.length_drop, List.length_drop]
      unfold REC_MAX
      omega
  have hsmall : ∀ m ∈ sampleLong, m.2.length ≤ HS_MAX := by
    intro m hm
    simp only [sampleLong, List.mem_cons, List.not_mem_nil, or_false] at hm
    rcases hm with rfl | rfl
    · rw [List.length_replicate]
      decide
    · exact Nat.zero_le _
  have hstream : held (sampleRecords (cutAt [16384, n] s)) ++ (cutAt [16384, n] s).flatten = wireOf sampleLong ++ [] := by
    rw [cutAt_flatten, hs, List.append_nil]
    rfl
  have hmax : HS_MAX = 32768 := rfl
  have hlens : ∀ m ∈ sampleLong, m.2.length < 2 ^ 24 := fun m hm => (hsmall m hm).trans_lt (by decide)
  have hsays := (nextMany_reads hread hlens hstream).1
  have htwo : sampleLong.length = 2 := rfl
  have hheld : (held (sampleRecords (cutAt [16384, n] s))).length = 0 := rfl
  rw [htwo, hheld, hcut] at hsays
  rw [hcut, hsays, and_iff_right hsmall]
  have hfirst : wholeLen ((11 : UInt8), List.replicate 32764 (0 : UInt8)) = 32768 := by
    rw [wholeLen, List.length_replicate]
  simp only [Fits, before, sampleLong, hfirst, List.length_take, List.length_drop, hlen]
  rw [← sampleLong, hs, hlen, hmax]
  have hmin : min n (32772 - 16384) = n := by omega
  have hfour : wholeLen ((14 : UInt8), ([] : Bytes)) = 4 := rfl
  rw [hmin, hfour]
  constructor
  · rintro ⟨-, -, hlast, -⟩
    by_contra hne
    obtain rfl : n = 16383 := by omega
    revert hlast
    decide
  · rintro rfl
    decide

theorem cut_matters :
    (cutAt [16384, 16384] (wireOf sampleLong)).flatten = (cutAt [16384, 16383] (wireOf sampleLong)).flatten ∧
      (∀ m ∈ sampleLong, wholeLen m ≤ HS_MAX) ∧
      (nextMany samplePrims false 2 (sampleRecords (cutAt [16384, 16384] (wireOf sampleLong)))).1 =
        sampleLong.map Msg.of ∧
      (nextMany samplePrims false 2 (sampleRecords (cutAt [16384, 16383] (wireOf sampleLong)))).1 ≠
        sampleLong.map Msg.of := by
  refine ⟨by rw [cutAt_flatten, cutAt_flatten], fun m hm => ?_, (sampleLong_cut (by decide) (by decide)).mpr rfl, ?_⟩
  · simp only [sampleLong, List.mem_cons, List.not_mem_nil, or_false] at hm
    rcases hm with rfl | rfl
    · rw [wholeLen, List.length_replicate]
      decide
    · decide
  · rw [Ne, sampleLong_cut (by decide) (by decide)]
    decide

end Zelr.Tls
