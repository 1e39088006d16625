import Zelr.Base.Picks
import Zelr.Web.Cookies
import Zelr.Web.Links

/-!
# Which cookies go with a request

What RFC 6265 sends, and when `ck_header` sends it.
-/

namespace Zelr.Web

/-! ## What belongs to a request -/

def DomainMatch (host domain : Bytes) : Prop :=
  folded domain = folded host ∨ domain ≠ [] ∧ DOT :: folded domain <:+ folded host

instance (host domain : Bytes) : Decidable (DomainMatch host domain) := inferInstanceAs (Decidable (_ ∨ _))

def PathMatch (request cpath : Bytes) : Prop :=
  cpath = request ∨
    cpath <+: request ∧ (cpath.getLast? = some SLASH ∨ (request.drop cpath.length).head? = some SLASH)

instance (request cpath : Bytes) : Decidable (PathMatch request cpath) := inferInstanceAs (Decidable (_ ∨ _))

def barePath (path : Bytes) : Bytes := path.takeWhile (· ≠ QUESTION)

def requestPath (path : Bytes) : Bytes := if barePath path = [] then [SLASH] else barePath path

def Belongs (u : Url) (k : Cookie) : Prop :=
  k.used = true ∧ ¬ (k.secure = true ∧ u.secure = .insecure) ∧ DomainMatch u.host k.domain ∧ PathMatch (requestPath u.path) k.path

instance (u : Url) (k : Cookie) : Decidable (Belongs u k) := inferInstanceAs (Decidable (_ ∧ _))

/-- `a=1; b=2`. -/
def cookieText (ks : List Cookie) : Bytes :=
  (ascii "; ").intercalate (ks.map fun k => k.name ++ EQUALS :: k.value)

/-- The cookies that are to be sent, with their slots. -/
def belonging (u : Url) (jar : Jar) : List (Cookie × Nat) := jar.zipIdx.filter fun k => Belongs u k.1

/-- They fit in the buffer, with the zero behind them. -/
def FitsHeader (u : Url) (jar : Jar) (cap : Nat) : Prop := (cookieText (jar.filter fun k => Belongs u k)).length < cap

instance (u : Url) (jar : Jar) (cap : Nat) : Decidable (FitsHeader u jar cap) := inferInstanceAs (Decidable (_ < _))

/-! ## What is sent -/

def ckRoom (cap : Nat) (out : Bytes) (k : Cookie) : Bool := out.length + ckNeed k < cap

/-- The cookies that the loop writes out, with their slots. -/
def ckSent (u : Url) (jar : Jar) (cap : Nat) (forScript : Bool) : List (Cookie × Nat) :=
  Picks.picks (fun k => ckGoes u forScript k.1) (fun out k => ckRoom cap out k.1) (fun out k => ckWritten out k.1) [] jar.zipIdx

def PassedOver (u : Url) (k : Cookie) : Prop :=
  k.domain = [] ∨
    k.path = barePath u.path ∧ barePath u.path ≠ [] ∧ barePath u.path ≠ u.path ∧ (barePath u.path).getLast? ≠ some SLASH

def TakenFor (u : Url) (k : Cookie) : Prop :=
  ckGoes u false k = true ∧
    ((barePath u.path).length < k.path.length ∧ k.path <+: u.path ∨
      (k.path = [] ∨ k.path = [SLASH]) ∧ barePath u.path ≠ [] ∧ (barePath u.path).head? ≠ some SLASH)

def sentBefore (u : Url) (before : Jar) : Bytes := cookieText (before.filter fun k => Belongs u k)

/-- No cookie of the request is passed over, each has three characters to spare, and the first that is
taken for one and has no room has none of the request behind it. -/
structure SendsRight (u : Url) (jar : Jar) (cap : Nat) : Prop where
  seen : ∀ k ∈ jar, Belongs u k → ¬ PassedOver u k
  room : ∀ before k after, jar = before ++ k :: after → Belongs u k → (sentBefore u before).length + ckNeed k < cap
  stray : ∀ before k after, jar = before ++ k :: after → TakenFor u k → (∀ j ∈ before, ¬ TakenFor u j) →
    cap ≤ (sentBefore u before).length + ckNeed k ∧ ∀ j ∈ after, ¬ Belongs u j

/-! ## Domains -/

theorem ckDomainOk_iff {host domain : Bytes} : ckDomainOk host domain = true ↔ domain ≠ [] ∧ DomainMatch host domain := by
  unfold ckDomainOk
  simp only [Bool.and_eq_true, Bool.or_eq_true, decide_eq_true_eq]
  constructor
  · rintro ⟨⟨⟨hne, hlen⟩, hfold⟩, hedge⟩
    refine ⟨hne, ?_⟩
    by_cases heq : domain.length = host.length
    · rw [heq, Nat.sub_self, List.drop_zero] at hfold
      exact .inl hfold.symm
    · have hdot := hedge.resolve_left heq
      refine .inr ⟨hne, folded (host.take (host.length - domain.length - 1)), ?_⟩
      have hlt : host.length - domain.length - 1 < host.length := by omega
      rw [byteAt, List.getD_eq_getElem _ _ hlt] at hdot
      have hcut : host.drop (host.length - domain.length - 1) = DOT :: host.drop (host.length - domain.length) := by
        rw [List.drop_eq_getElem_cons hlt, hdot]
        congr 2
        omega
      rw [← hfold]
      change _ ++ folded (DOT :: host.drop (host.length - domain.length)) = _
      rw [← hcut]
      unfold folded
      rw [← List.map_append, List.take_append_drop]
  · rintro ⟨hne, heq | ⟨-, labels, hsuffix⟩⟩
    · have hlen : domain.length = host.length := by simpa [folded] using congrArg List.length heq
      refine ⟨⟨⟨hne, hlen.le⟩, ?_⟩, .inl hlen⟩
      rw [hlen, Nat.sub_self, List.drop_zero, heq]
    · obtain ⟨front, back, rfl, hfront, hback⟩ := List.map_eq_append_iff.mp hsuffix.symm
      obtain ⟨c, back, rfl, hc, hdomain⟩ := List.map_eq_cons_iff.mp hback
      obtain rfl : c = DOT := eq_of_wLower hc (by decide)
      have hlen : back.length = domain.length := by simpa [folded] using congrArg List.length hdomain
      have hat : (front ++ DOT :: back).length - domain.length = front.length + 1 := by
        rw [List.length_append, List.length_cons, hlen]
        omega
      refine ⟨⟨⟨hne, by rw [List.length_append, List.length_cons]; omega⟩, ?_⟩, .inr ?_⟩
      · rw [hat, List.drop_append, List.drop_of_length_le (by omega)]
        simpa [folded] using hdomain
      · rw [hat]
        simp [byteAt]

/-! ## Paths -/

section Paths

variable {path cpath : Bytes}

theorem ckPathOk_iff : ckPathOk path cpath = true ↔
    cpath = [] ∨ cpath = [SLASH] ∨
      cpath <+: path ∧ (cpath = path ∨ (path.drop cpath.length).head? = some SLASH ∨ cpath.getLast? = some SLASH) := by
  unfold ckPathOk
  simp only [Bool.or_eq_true, Bool.and_eq_true, decide_eq_true_eq, List.isPrefixOf_iff_prefix, or_assoc]
  refine or_congr_right (or_congr_right (and_congr_right fun hpre => or_congr_left ?_))
  exact ⟨fun hlen => hpre.eq_of_length hlen.symm, fun heq => heq ▸ rfl⟩

theorem query_head (path : Bytes) : ∃ query, path = barePath path ++ query ∧ (query = [] ∨ query.head? = some QUESTION) := by
  refine ⟨path.dropWhile (· ≠ QUESTION), List.takeWhile_append_dropWhile.symm, ?_⟩
  have hhead := List.head?_dropWhile_not (fun c => decide (c ≠ QUESTION)) path
  cases h : path.dropWhile (· ≠ QUESTION) with
  | nil => exact .inl rfl
  | cons c query =>
    rw [h] at hhead
    simp only [List.head?_cons, ne_eq, decide_not, Bool.not_eq_false', decide_eq_true_eq] at hhead
    exact .inr (by rw [hhead]; rfl)

theorem query_not_slash {query : Bytes} (h : query = [] ∨ query.head? = some QUESTION) : query.head? ≠ some SLASH := by
  rcases h with rfl | h
  · exact fun h => by cases h
  · rw [h]
    decide

theorem not_ckPathOk_iff (h : PathMatch (requestPath path) cpath) : ¬ ckPathOk path cpath = true ↔
    cpath = barePath path ∧ barePath path ≠ [] ∧ barePath path ≠ path ∧ (barePath path).getLast? ≠ some SLASH := by
  rw [ckPathOk_iff]
  obtain ⟨query, hpath, hquery⟩ := query_head path
  unfold requestPath at h
  by_cases hb : barePath path = []
  · rw [if_pos hb] at h
    refine iff_of_false (not_not_intro ?_) fun h => h.2.1 hb
    rcases h with rfl | ⟨hpre, -⟩
    · exact .inr (.inl rfl)
    · rcases List.prefix_cons_iff.mp hpre with rfl | ⟨t, rfl, ht⟩
      · exact .inl rfl
      · rw [List.prefix_nil.mp ht]
        exact .inr (.inl rfl)
  · rw [if_neg hb] at h
    generalize barePath path = b at *
    subst hpath
    by_cases hc : cpath = b
    · subst hc
      have hnext : ((cpath ++ query).drop cpath.length).head? ≠ some SLASH := by
        rw [List.drop_left]
        exact query_not_slash hquery
      constructor
      · intro hno
        exact ⟨rfl, hb, fun heq => hno (.inr (.inr ⟨List.prefix_append _ _, .inl heq⟩)),
          fun hlast => hno (.inr (.inr ⟨List.prefix_append _ _, .inr (.inr hlast)⟩))⟩
      · rintro ⟨-, -, hne, hlast⟩ (hnil | rfl | ⟨-, heq | hslash | hslash⟩)
        · exact hb hnil
        · exact hlast rfl
        · exact hne heq
        · exact hnext hslash
        · exact hlast hslash
    · obtain ⟨hpre, hend⟩ := h.resolve_left hc
      refine iff_of_false (not_not_intro (.inr (.inr ⟨hpre.trans (List.prefix_append _ _), .inr ?_⟩))) fun h => hc h.1
      rcases hend with hlast | hnext
      · exact .inr hlast
      · rw [List.drop_append_of_le_length hpre.length_le, List.head?_append, hnext]
        exact .inl rfl

theorem not_pathMatch_iff (h : ckPathOk path cpath = true) : ¬ PathMatch (requestPath path) cpath ↔
    (barePath path).length < cpath.length ∧ cpath <+: path ∨
      (cpath = [] ∨ cpath = [SLASH]) ∧ barePath path ≠ [] ∧ (barePath path).head? ≠ some SLASH := by
  rw [ckPathOk_iff] at h
  obtain ⟨query, hpath, hquery⟩ := query_head path
  unfold requestPath
  by_cases hb : barePath path = []
  · rw [if_pos hb, hb]
    rw [hb, List.nil_append] at hpath
    subst hpath
    constructor
    · intro hno
      have hnil : cpath ≠ [] := by
        rintro rfl
        exact hno (.inr ⟨List.nil_prefix, .inr rfl⟩)
      have hroot : cpath ≠ [SLASH] := fun hroot => hno (.inl hroot)
      exact .inl ⟨List.length_pos_iff.mpr hnil, ((h.resolve_left hnil).resolve_left hroot).1⟩
    · rintro (⟨hlen, hpre⟩ | ⟨-, hne, -⟩)
      · have hroot : cpath ≠ [SLASH] := by
          rintro rfl
          obtain ⟨t, rfl⟩ := hpre
          exact query_not_slash hquery rfl
        rintro (heq | ⟨hshort, -⟩)
        · exact hroot heq
        · rcases List.prefix_cons_iff.mp hshort with rfl | ⟨t, rfl, ht⟩
          · exact absurd hlen (lt_irrefl _)
          · rw [List.prefix_nil.mp ht] at hroot
            exact hroot rfl
      · exact absurd rfl hne
  · rw [if_neg hb]
    generalize barePath path = b at *
    subst hpath
    have hslash : b.head? = some SLASH → PathMatch b [SLASH] := by
      intro hhead
      obtain ⟨t, rfl⟩ := List.head?_eq_some_iff.mp hhead
      exact .inr ⟨⟨t, rfl⟩, .inl rfl⟩
    constructor
    · intro hno
      rcases h with rfl | rfl | ⟨hpre, hend⟩
      · exact .inr ⟨.inl rfl, hb, fun hhead => hno (.inr ⟨List.nil_prefix, .inr hhead⟩)⟩
      · exact .inr ⟨.inr rfl, hb, fun hhead => hno (hslash hhead)⟩
      · refine .inl ⟨?_, hpre⟩
        by_contra hlen
        have hshort : cpath <+: b := List.prefix_of_prefix_length_le hpre (List.prefix_append b query) (by omega)
        have hc : cpath ≠ b := fun heq => hno (.inl heq)
        have hlt : cpath.length < b.length := by
          have := mt hshort.eq_of_length hc
          omega
        rcases hend with heq | hnext | hlast
        · have := congrArg List.length heq
          rw [List.length_append] at this
          omega
        · rw [List.drop_append_of_le_length hshort.length_le, List.head?_append_of_ne_nil _ (by simpa using hlt)] at hnext
          exact hno (.inr ⟨hshort, .inr hnext⟩)
        · exact hno (.inr ⟨hshort, .inl hlast⟩)
    · rintro (⟨hlen, -⟩ | ⟨rfl | rfl, -, hhead⟩)
      · rintro (rfl | ⟨hshort, -⟩)
        · exact absurd hlen (lt_irrefl _)
        · exact absurd hshort.length_le (by omega)
      · rintro (heq | ⟨-, hlast | hnext⟩)
        · exact hb heq.symm
        · cases hlast
        · exact hhead hnext
      · rintro (rfl | ⟨⟨t, rfl⟩, -⟩)
        · exact hhead rfl
        · exact hhead rfl

end Paths

/-! ## Cookies -/

section

variable {u : Url} {k : Cookie} {jar : Jar} {cap : Nat}

theorem ckGoes_iff : ckGoes u false k = true ↔
    k.used = true ∧ ¬ (k.secure = true ∧ u.secure = .insecure) ∧ ckDomainOk u.host k.domain = true ∧ ckPathOk u.path k.path = true := by
  unfold ckGoes
  simp only [Bool.and_eq_true, Bool.false_and, Bool.not_false, and_true, Bool.not_eq_true', Bool.and_eq_false_iff,
    decide_eq_false_iff_not, not_and_or, Bool.not_eq_true, and_assoc]

theorem Belongs.goes_iff (h : Belongs u k) : ckGoes u false k = true ↔ ¬ PassedOver u k := by
  obtain ⟨hused, hsecure, hdomain, hpath⟩ := h
  rw [ckGoes_iff, ckDomainOk_iff, PassedOver, ← not_ckPathOk_iff hpath]
  simp only [hused, hsecure, hdomain, not_or, not_not, ne_eq, not_false_eq_true, true_and, and_true]

theorem taken_iff : TakenFor u k ↔ ckGoes u false k = true ∧ ¬ Belongs u k := by
  unfold TakenFor
  refine and_congr_right fun hgoes => ?_
  obtain ⟨hused, hsecure, hdomain, hpath⟩ := ckGoes_iff.mp hgoes
  rw [← not_pathMatch_iff hpath, not_iff_not]
  exact ⟨fun h => ⟨hused, hsecure, (ckDomainOk_iff.mp hdomain).2, h⟩, fun h => h.2.2.2⟩

/-! ## The text -/

theorem cookieText_cons (k : Cookie) (ks : List Cookie) (h : ks ≠ []) :
    cookieText (k :: ks) = k.name ++ EQUALS :: k.value ++ ascii "; " ++ cookieText ks := by
  obtain ⟨j, ks, rfl⟩ := List.exists_cons_of_ne_nil h
  simp [cookieText, List.intercalate]

theorem cookieText_ne_nil {ks : List Cookie} (h : ks ≠ []) : cookieText ks ≠ [] := by
  obtain ⟨k, ks, rfl⟩ := List.exists_cons_of_ne_nil h
  cases ks with
  | nil => simp [cookieText, List.intercalate]
  | cons j ks =>
    rw [cookieText_cons k _ (List.cons_ne_nil j ks)]
    simp

theorem cookieText_snoc (ks : List Cookie) (k : Cookie) : cookieText (ks ++ [k]) = ckWritten (cookieText ks) k := by
  induction ks with
  | nil => simp [cookieText, List.intercalate, ckWritten]
  | cons j ks ih =>
    rw [List.cons_append, cookieText_cons j _ (by simp), ih]
    unfold ckWritten
    rw [if_neg (cookieText_ne_nil (List.cons_ne_nil j ks))]
    by_cases hks : ks = []
    · subst hks
      simp [cookieText, List.intercalate]
      rfl
    · rw [if_neg (cookieText_ne_nil hks), cookieText_cons j ks hks]
      simp only [List.append_assoc]

theorem foldl_ckWritten (ks : List Cookie) : ks.foldl ckWritten [] = cookieText ks := by
  induction ks using List.reverseRecOn with
  | nil => rfl
  | append_singleton ks k ih => rw [List.foldl_append, ih, cookieText_snoc, List.foldl_cons, List.foldl_nil]

theorem ckLoop_picks (cap : Nat) (forScript : Bool) (out : Bytes) (jar : Jar) :
    ckLoop u cap forScript out jar = (Picks.picks (ckGoes u forScript) (ckRoom cap) ckWritten out jar).foldl ckWritten out := by
  induction jar generalizing out with
  | nil => rfl
  | cons k jar ih =>
    rw [ckLoop, Picks.picks]
    split
    · by_cases hroom : cap ≤ out.length + ckNeed k
      · have hno : ckRoom cap out k = false := by simp [ckRoom, hroom]
        rw [if_pos hroom, hno, if_neg Bool.false_ne_true, List.foldl_nil]
      · have hyes : ckRoom cap out k = true := by simpa [ckRoom] using hroom
        rw [if_neg hroom, if_pos hyes, List.foldl_cons, ih]
    · exact ih out

theorem ckCookiesFor_sent (u : Url) (jar : Jar) (cap : Nat) (forScript : Bool) :
    ckCookiesFor u jar cap forScript = cookieText ((ckSent u jar cap forScript).map Prod.fst) := by
  rw [ckCookiesFor, ckLoop_picks, foldl_ckWritten, ckSent]
  congr 1
  rw [Picks.picks_map Prod.fst, List.zipIdx_map_fst]

theorem belonging_fst (u : Url) (jar : Jar) : (belonging u jar).map Prod.fst = jar.filter fun k => Belongs u k := by
  have hslots := List.filter_map (p := fun k => decide (Belongs u k)) (f := Prod.fst) (l := jar.zipIdx)
  rw [List.zipIdx_map_fst] at hslots
  exact hslots.symm

/-! ## When it is right -/

theorem sendsRight_iff : SendsRight u jar cap ↔
    Picks.Right (ckGoes u false) (fun k => Belongs u k) (ckRoom cap) ckWritten [] jar := by
  have hroom : ∀ (before : Jar) (k : Cookie),
      ckRoom cap ((before.filter fun k => Belongs u k).foldl ckWritten []) k = true ↔
        (sentBefore u before).length + ckNeed k < cap := by
    intro before k
    rw [foldl_ckWritten, ckRoom, decide_eq_true_iff]
    rfl
  constructor
  · intro h
    refine ⟨fun before k after hjar hk => ?_, fun before k after hjar hk => ?_,
      fun before k after hjar hgoes hwrong hbefore => ?_⟩
    · have hk := of_decide_eq_true hk
      exact hk.goes_iff.mpr (h.seen k (by simp [hjar]) hk)
    · exact (hroom before k).mpr (h.room before k after hjar (of_decide_eq_true hk))
    · obtain ⟨hfull, hnone⟩ := h.stray before k after hjar (taken_iff.mpr ⟨hgoes, of_decide_eq_false hwrong⟩)
        fun j hj htaken => (taken_iff.mp htaken).2 (of_decide_eq_true (hbefore j hj (taken_iff.mp htaken).1))
      refine ⟨?_, fun j hj => decide_eq_false (hnone j hj)⟩
      rw [Bool.eq_false_iff, ne_eq, hroom]
      omega
  · intro h
    refine ⟨fun k hmem hk => ?_, fun before k after hjar hk => ?_, fun before k after hjar htaken hbefore => ?_⟩
    · obtain ⟨before, after, hjar⟩ := List.append_of_mem hmem
      exact hk.goes_iff.mp (h.gone before k after hjar (decide_eq_true hk))
    · exact (hroom before k).mp (h.fits before k after hjar (decide_eq_true hk))
    · obtain ⟨hgoes, hwrong⟩ := taken_iff.mp htaken
      have hfirst : ∀ j ∈ before, ckGoes u false j = true → decide (Belongs u j) = true := by
        intro j hj hgoes
        by_contra hno
        exact hbefore j hj (taken_iff.mpr ⟨hgoes, fun hj => hno (decide_eq_true hj)⟩)
      obtain ⟨hfull, hnone⟩ := h.stop before k after hjar hgoes (decide_eq_false hwrong) hfirst
      rw [Bool.eq_false_iff, ne_eq, hroom] at hfull
      exact ⟨by omega, fun j hj => of_decide_eq_false (hnone j hj)⟩

theorem sent_iff : ckSent u jar cap false = belonging u jar ↔ SendsRight u jar cap := by
  have hslots : Picks.Right (fun k => ckGoes u false k.1) (fun k => decide (Belongs u k.1)) (fun out k => ckRoom cap out k.1)
      (fun out k => ckWritten out k.1) [] jar.zipIdx ↔
        Picks.Right (ckGoes u false) (fun k => Belongs u k) (ckRoom cap) ckWritten [] (jar.zipIdx.map Prod.fst) :=
    @Picks.right_map_iff Cookie (Cookie × Nat) Bytes (ckGoes u false) (fun k => Belongs u k) (ckRoom cap) ckWritten Prod.fst [] _
  rw [List.zipIdx_map_fst] at hslots
  exact Picks.picks_eq_filter_iff.trans (hslots.trans sendsRight_iff.symm)

/-- Where they fit, the cookies of the request are what is sent exactly when none is misjudged and there is room to
spare. -/
theorem header_right_iff (u : Url) (jar : Jar) (cap : Nat) :
    (FitsHeader u jar cap →
        ckSent u jar cap false = belonging u jar ∧ ckHeader u jar cap = cookieText (jar.filter fun k => Belongs u k)) ↔
      (FitsHeader u jar cap → SendsRight u jar cap) := by
  refine imp_congr_right fun _ => ?_
  rw [← sent_iff]
  refine ⟨fun h => h.1, fun h => ⟨h, ?_⟩⟩
  rw [ckHeader, ckCookiesFor_sent, h, belonging_fst]

end

def sampleAsk (path : Bytes) : Url := { host := ascii "a.example", path, port := 443, secure := .secure }

def samplePathJar (path : Bytes) : Jar :=
  { name := ascii "sid", value := ascii "1", domain := ascii "a.example", path, secure := true, httponly := true, used := true } ::
    List.replicate (CK_MAX - 1) noCookie

/-- A cookie of `/foo` is sent with `/foo`, and is not sent when a query follows. -/
theorem query_loses_cookie :
    FitsHeader (sampleAsk (ascii "/foo?x=1")) (samplePathJar (ascii "/foo")) 4096 ∧
      ckHeader (sampleAsk (ascii "/foo")) (samplePathJar (ascii "/foo")) 4096 = ascii "sid=1" ∧
      ckHeader (sampleAsk (ascii "/foo?x=1")) (samplePathJar (ascii "/foo")) 4096 = [] ∧
      ckSent (sampleAsk (ascii "/foo?x=1")) (samplePathJar (ascii "/foo")) 4096 false ≠
        belonging (sampleAsk (ascii "/foo?x=1")) (samplePathJar (ascii "/foo")) := by
  decide

end Zelr.Web
