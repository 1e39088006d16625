import Zelr.Base.Views
import Zelr.Web.Cookies

/-!
# What a script cannot reach

An HttpOnly cookie is made, changed and removed by its server alone, and a page's script cannot tell what is in it.
-/

namespace Zelr.Web

def guarded (k : Cookie) : Option Cookie := if k.used ∧ k.httponly then some k else none

def veiled (k : Cookie) : Cookie :=
  if k.used then (if k.httponly then { k with value := [] } else k) else noCookie

/-- The same cookies, but for what the HttpOnly ones say. -/
def AlikeOutside (jar jar' : Jar) : Prop :=
  List.Forall₂ (fun k k' => k' = k ∨ k.used = true ∧ k.httponly = true ∧ ∃ value, k' = { k with value }) jar jar'

inductive CookieEvent
  /-- a script puts a text in `document.cookie` -/
  | write (page : Url) (text : Bytes)
  /-- a script looks at it -/
  | read (page : Url) (cap : Nat)
  /-- a server's `Set-Cookie` -/
  | answer (u : Url) (line : Bytes)

def CookieEvent.step (jar : Jar) : CookieEvent → Jar
  | .write page text => ckTakeLine page text true jar
  | .read _ _ => jar
  | .answer u line => ckTakeLine u line false jar

def CookieEvent.shown (jar : Jar) : CookieEvent → Option Bytes
  | .read page cap => some (ckCookiesFor page jar cap true)
  | _ => none

def texts : Jar → List CookieEvent → List Bytes := Views.outputs CookieEvent.step CookieEvent.shown

/-- Every HttpOnly cookie is left by every write of a script as it was, in its slot, and there is no new one. -/
def Confined (jar : Jar) (es : List CookieEvent) : Prop :=
  ∀ before page text after, es = before ++ .write page text :: after →
    ((before ++ [.write page text]).foldl CookieEvent.step jar).map guarded = (before.foldl CookieEvent.step jar).map guarded

/-! ## Writes of a script -/

section
variable {u : Url} {c : Cookie} {drop fromScript : Bool} {jar jar' : Jar} {k k' : Cookie}

theorem guarded_of_open (h : k.httponly = false) : guarded k = none := by
  rw [guarded, if_neg (by simp [h])]

theorem guarded_of_free (h : k.used = false) : guarded k = none := by
  rw [guarded, if_neg (by simp [h])]

theorem ckPut_guarded (hc : c.httponly = false) : (ckPut c drop true jar).map guarded = jar.map guarded := by
  unfold ckPut
  split
  · rename_i i hi
    split
    · rfl
    · rename_i hopen
      have hk : ∀ k ∈ jar[i]?, k.httponly = false := fun k hk =>
        Bool.eq_false_iff.mpr fun h => hopen ⟨rfl, k, hk, h⟩
      split
      · exact Views.map_modify fun k hmem => by rw [guarded_of_free rfl, guarded_of_open (hk k hmem)]
      · exact Views.map_modify fun k hmem => by
          rw [guarded_of_open (hk k hmem)]
          exact guarded_of_open hc
  · split
    · rename_i i hi
      split
      · rfl
      · have hfree : ∀ k ∈ jar[i]?, k.used = false := by
          intro k hmem
          obtain ⟨hlt, hfree, -⟩ := List.findIdx?_eq_some_iff_getElem.mp hi
          obtain ⟨-, rfl⟩ := List.getElem?_eq_some_iff.mp hmem
          simpa using hfree
        exact Views.map_set fun k hmem => by rw [guarded_of_open hc, guarded_of_free (hfree k hmem)]
    · rfl

theorem write_guarded (line : Bytes) : (ckTakeLine u line true jar).map guarded = jar.map guarded := by
  unfold ckTakeLine
  dsimp only
  split
  · rfl
  split
  · rfl
  · rename_i hallowed
    exact ckPut_guarded (Bool.eq_false_iff.mpr fun h => hallowed ⟨rfl, .inl h⟩)

/-! ## Jars that look alike -/

theorem veiled_httponly (k : Cookie) (hu : k.used = true) (hk : k.httponly = true) : veiled k = { k with value := [] } := by
  rw [veiled, if_pos hu, if_pos hk]

theorem veiled_free (hu : k.used = false) : veiled k = noCookie := by
  rw [veiled, hu, if_neg Bool.false_ne_true]

theorem veiled_used (k : Cookie) : (veiled k).used = k.used := by
  unfold veiled
  split
  · split <;> rfl
  · rename_i hu
    exact (Bool.eq_false_iff.mpr hu).symm

theorem veiled_cases (h : veiled k = veiled k') :
    k.used = false ∧ k'.used = false ∨ k' = k ∨ k.used = true ∧ k.httponly = true ∧ ∃ value, k' = { k with value } := by
  have hused : k.used = k'.used := by rw [← veiled_used k, h, veiled_used]
  by_cases hu : k.used = true
  · have hu' : k'.used = true := hused ▸ hu
    right
    unfold veiled at h
    rw [if_pos hu, if_pos hu'] at h
    split at h
    · rename_i hk
      split at h
      · exact .inr ⟨hu, hk, k'.value, congrArg (fun c => { c with value := k'.value }) h.symm⟩
      · rename_i hk'
        rw [← h] at hk'
        exact absurd hk hk'
    · rename_i hk
      split at h
      · rename_i hk'
        rw [h] at hk
        exact absurd hk' hk
      · exact .inl h.symm
  · have hfree := Bool.eq_false_iff.mpr hu
    exact .inl ⟨hfree, hused ▸ hfree⟩

theorem AlikeOutside.veiled (h : AlikeOutside jar jar') : jar.map veiled = jar'.map veiled := by
  induction h with
  | nil => rfl
  | @cons k k' jar jar' hk _ ih =>
    rw [List.map_cons, List.map_cons, ih]
    congr 1
    rcases hk with rfl | ⟨hu, hk, value, rfl⟩
    · rfl
    · rw [veiled_httponly k hu hk]
      exact (veiled_httponly { k with value } hu hk).symm

theorem httponly_alike {p : Cookie → Bool} {i : Nat} (hp : ∀ k, p k = true → k.used = true) (h : jar.map veiled = jar'.map veiled)
    (hi : jar.findIdx? p = some i) :
    (∃ k ∈ jar[i]?, k.httponly = true) ↔ ∃ k ∈ jar'[i]?, k.httponly = true := by
  obtain ⟨hlt, hk, -⟩ := List.findIdx?_eq_some_iff_getElem.mp hi
  have hslot := congrArg (·[i]?) h
  simp only [List.getElem?_map, List.getElem?_eq_getElem hlt, Option.map_some] at hslot
  obtain ⟨k', hk', hview⟩ := Option.map_eq_some_iff.mp hslot.symm
  have hsame : k'.httponly = jar[i].httponly := by
    rcases veiled_cases hview.symm with ⟨hu, -⟩ | heq | ⟨-, -, value, heq⟩
    · rw [hp _ hk] at hu
      cases hu
    · rw [heq]
    · rw [heq]
  simp [hk', List.getElem?_eq_getElem hlt, hsame]

theorem ckPut_veiled (h : jar.map veiled = jar'.map veiled) :
    (ckPut c drop fromScript jar).map veiled = (ckPut c drop fromScript jar').map veiled := by
  have hsame : jar.findIdx? (fun k => k.used && ckSame k c.name c.domain c.path) =
      jar'.findIdx? fun k => k.used && ckSame k c.name c.domain c.path := by
    refine Views.findIdx?_congr h fun k k' hk => ?_
    rcases veiled_cases hk with ⟨hu, hu'⟩ | rfl | ⟨-, -, value, rfl⟩
    · rw [hu, hu', Bool.false_and, Bool.false_and]
    · rfl
    · rfl
  have hfree : jar.findIdx? (fun k => !k.used) = jar'.findIdx? fun k => !k.used := by
    refine Views.findIdx?_congr h fun k k' hk => ?_
    rw [← veiled_used k, hk, veiled_used]
  unfold ckPut
  rw [← hsame, ← hfree]
  split
  · rename_i i hi
    have hhttp := httponly_alike (fun k hk => (Bool.and_eq_true_iff.mp hk).1) h hi
    simp only [← hhttp]
    split
    · exact h
    split
    · exact Views.map_modify_congr h fun k k' _ => (veiled_free rfl).trans (veiled_free rfl).symm
    · refine Views.map_modify_congr h fun k k' hk => ?_
      rcases veiled_cases hk with ⟨hu, hu'⟩ | rfl | ⟨-, -, value, rfl⟩
      · have hput : ∀ k : Cookie, k.used = false →
            veiled { k with value := c.value, secure := c.secure, httponly := c.httponly } = noCookie := fun k hu => veiled_free hu
        exact (hput k hu).trans (hput k' hu').symm
      · rfl
      · rfl
  · split
    · split
      · exact h
      · exact Views.map_set_congr h
    · exact h

theorem take_veiled (u : Url) (line : Bytes) (fromScript : Bool) (h : jar.map veiled = jar'.map veiled) :
    (ckTakeLine u line fromScript jar).map veiled = (ckTakeLine u line fromScript jar').map veiled := by
  unfold ckTakeLine
  dsimp only
  split
  · exact h
  split
  · exact h
  · exact ckPut_veiled h

theorem ckLoop_veiled (cap : Nat) (out : Bytes) (h : jar.map veiled = jar'.map veiled) :
    ckLoop u cap true out jar = ckLoop u cap true out jar' := by
  induction jar generalizing jar' out with
  | nil => rw [List.map_eq_nil_iff.mp h.symm]
  | cons k jar ih =>
    obtain ⟨k', jar', rfl, hk, hjar⟩ := List.map_eq_cons_iff.mp h.symm
    rcases veiled_cases hk.symm with ⟨hu, hu'⟩ | rfl | ⟨hu, hhttp, value, rfl⟩
    · have hno : ckGoes u true k = false := by simp [ckGoes, hu]
      have hno' : ckGoes u true k' = false := by simp [ckGoes, hu']
      rw [ckLoop, ckLoop, hno, hno', if_neg Bool.false_ne_true, if_neg Bool.false_ne_true, ih out hjar.symm]
    · rw [ckLoop, ckLoop, ih out hjar.symm, ih _ hjar.symm]
    · have hno : ckGoes u true k = false := by simp [ckGoes, hhttp]
      have hno' : ckGoes u true { k with value } = false := by simp [ckGoes, hhttp]
      rw [ckLoop, ckLoop, hno, hno', if_neg Bool.false_ne_true, if_neg Bool.false_ne_true, ih out hjar.symm]

end

/-! ## Whatever is done -/

theorem confined (jar : Jar) (es : List CookieEvent) : Confined jar es := by
  rintro before page text after -
  rw [List.foldl_append]
  exact write_guarded text

theorem texts_alike {jar jar' : Jar} (h : jar.map veiled = jar'.map veiled) (es : List CookieEvent) : texts jar es = texts jar' es := by
  refine Views.outputs_eq (fun jar jar' e h => ?_) (fun jar jar' e h => ?_) h es
  · cases e with
    | write page text => exact take_veiled page text true h
    | read page cap => exact h
    | answer u line => exact take_veiled u line false h
  · cases e with
    | read page cap => exact congrArg some (ckLoop_veiled cap [] h)
    | _ => rfl

/-- Whatever scripts and servers write and in whatever order, no script touches an HttpOnly cookie, and what such
cookies say makes no difference to anything a script is shown. -/
theorem httponly_out_of_reach {jar jar' : Jar} (h : AlikeOutside jar jar') (es : List CookieEvent) :
    Confined jar es ∧ texts jar es = texts jar' es :=
  ⟨confined jar es, texts_alike h.veiled es⟩

def samplePage : Url := { host := ascii "a.example", path := ascii "/", port := 443, secure := .secure }

/-- A jar with one cookie that no script sees. -/
def sampleJar (value : Bytes) : Jar :=
  { name := ascii "sid", value, domain := ascii "a.example", path := ascii "/", secure := true, httponly := true, used := true } ::
    List.replicate (CK_MAX - 1) noCookie

/-- A script writes, the server answers, and the script reads. -/
def sampleVisit : List CookieEvent :=
  [.write samplePage (ascii "sid=2"), .answer samplePage (ascii "id=4; HttpOnly"), .read samplePage 4096]

theorem httponly_out_of_reach_sample :
    Confined (sampleJar (ascii "1")) sampleVisit ∧
      texts (sampleJar (ascii "1")) sampleVisit = texts (sampleJar (ascii "3")) sampleVisit :=
  httponly_out_of_reach (.cons (.inr ⟨rfl, rfl, ascii "3", rfl⟩) (List.forall₂_same.mpr fun _ _ => .inl rfl)) _

end Zelr.Web
