import Zelr.Base.Runs
import Zelr.Web.Url

/-!
# Links stay where they may point

However long a chain of links or redirects is, it leads from the network to no file, and away from https only where
a link says so.
-/

namespace Zelr.Web

def isAlpha (c : UInt8) : Bool := 97 ≤ wLower c ∧ wLower c ≤ 122

def schemeChar (c : UInt8) : Bool := isAlpha c || isDigit c || c = 43 || c = 45 || c = DOT

/-- The reference begins with a scheme: a letter, then letters, digits and `+`, `-` and `.`, then a colon. -/
def HasScheme (s : Bytes) : Prop :=
  ∃ c name rest, s = c :: name ++ COLON :: rest ∧ isAlpha c = true ∧ ∀ c ∈ name, schemeChar c = true

structure Stays (ref : Bytes) (base out : Url) : Prop where
  network : out.secure ≠ .file
  encrypted : base.secure = .secure → out.secure = .insecure → ascii "http://" <+: folded (trimmed ref)
  here : ¬ HasScheme (trimmed ref) → ¬ ascii "//" <+: trimmed ref →
    out.host = base.host ∧ out.port = base.port ∧ out.secure = base.secure

/-! ## Schemes -/

theorem wLower_cases (c : UInt8) : wLower c = c ∨ 97 ≤ wLower c ∧ wLower c ≤ 122 := by
  unfold wLower
  split
  · rename_i h
    rw [UInt8.le_iff_toNat_le, UInt8.le_iff_toNat_le] at h
    right
    rw [UInt8.le_iff_toNat_le, UInt8.le_iff_toNat_le, UInt8.toNat_add]
    obtain ⟨hlow, hhigh⟩ := h
    change 65 ≤ c.toNat at hlow
    change c.toNat ≤ 90 at hhigh
    change 97 ≤ (c.toNat + 32) % 256 ∧ (c.toNat + 32) % 256 ≤ 122
    omega
  · exact .inl rfl

theorem eq_of_wLower {c d : UInt8} (h : wLower c = d) (hd : ¬ (97 ≤ d ∧ d ≤ 122)) : c = d := by
  rcases wLower_cases c with hc | hc
  · rw [← h, hc]
  · rw [h] at hc
    exact absurd hc hd

theorem hasScheme_of_folded {s : Bytes} (p : UInt8) (pre rest : Bytes) (hp : isAlpha p = true)
    (hpre : ∀ c ∈ pre, isAlpha c = true) (h : wStartsFold s (p :: pre ++ COLON :: rest) = true) :
    HasScheme s := by
  obtain ⟨t, ht⟩ := wStartsFold_iff.mp h
  have hlower : ∀ c d : UInt8, wLower d = wLower c → isAlpha c = true → isAlpha d = true := by
    intro c d hcd hc
    rw [isAlpha, hcd]
    exact hc
  have hsplit : folded s = folded (p :: pre) ++ wLower COLON :: (folded rest ++ t) := by
    rw [← ht]
    simp [folded]
  obtain ⟨name, tail, rfl, hname, htail⟩ := List.map_eq_append_iff.mp hsplit
  obtain ⟨c, name, rfl, hc, hname⟩ := List.map_eq_cons_iff.mp hname
  obtain ⟨d, tail, rfl, hd, -⟩ := List.map_eq_cons_iff.mp htail
  obtain rfl : d = COLON := eq_of_wLower hd (by decide)
  refine ⟨c, name, tail, rfl, hlower p c hc hp, fun x hx => ?_⟩
  obtain ⟨y, hy, hxy⟩ := List.mem_map.mp (hname ▸ List.mem_map_of_mem hx)
  rw [schemeChar, hlower y x hxy.symm (hpre y hy)]
  rfl

theorem hasScheme_http {s : Bytes} (h : wStartsFold s (ascii "http://") = true) : HasScheme s :=
  hasScheme_of_folded 104 (ascii "ttp") (ascii "//") (by decide) (by decide +kernel) h

theorem hasScheme_https {s : Bytes} (h : wStartsFold s (ascii "https://") = true) : HasScheme s :=
  hasScheme_of_folded 104 (ascii "ttps") (ascii "//") (by decide) (by decide +kernel) h

theorem folded_slashes : folded (ascii "//") = ascii "//" := by decide

theorem slashes_of_folded {s : Bytes} (h : wStartsFold s (ascii "//") = true) : ascii "//" <+: s := by
  obtain ⟨t, ht⟩ := wStartsFold_iff.mp h
  rw [folded_slashes] at ht
  obtain ⟨a, s, rfl, ha, hs⟩ := List.map_eq_cons_iff.mp ht.symm
  obtain ⟨b, s, rfl, hb, -⟩ := List.map_eq_cons_iff.mp hs
  obtain rfl : a = SLASH := eq_of_wLower ha (by decide)
  obtain rfl : b = SLASH := eq_of_wLower hb (by decide)
  exact ⟨s, rfl⟩

/-! ## One link -/

section
variable {s ref : Bytes} {base out : Url}

theorem trimmed_trimmed (ref : Bytes) : trimmed (trimmed ref) = trimmed ref :=
  List.dropWhile_idempotent _ _

theorem folded_apart {s pre pre' : Bytes} {i : Nat} (hi : i < pre.length) (hi' : i < pre'.length)
    (hne : (folded pre).getD i 0 ≠ (folded pre').getD i 0) (h : wStartsFold s pre = true) : wStartsFold s pre' = false := by
  rw [Bool.eq_false_iff]
  intro h'
  obtain ⟨t, ht⟩ := wStartsFold_iff.mp h
  obtain ⟨t', ht'⟩ := wStartsFold_iff.mp h'
  apply hne
  have hget : (folded pre ++ t).getD i 0 = (folded pre' ++ t').getD i 0 := by rw [ht, ht']
  rwa [List.getD_append _ _ _ _ (by simpa [folded] using hi), List.getD_append _ _ _ _ (by simpa [folded] using hi')] at hget

theorem urlParse_secure (hfile : wStartsFold (trimmed s) (ascii "file://") = false) (h : urlParse s = some out) :
    out.secure = if wStartsFold (trimmed s) (ascii "https://") = true then .secure
      else if wStartsFold (trimmed s) (ascii "http://") = true then .insecure else .secure := by
  unfold urlParse at h
  dsimp only at h
  rw [hfile, if_neg (by decide)] at h
  obtain ⟨-, h⟩ := Option.ite_none_left_eq_some.mp h
  rw [← Option.some.inj h]

theorem urlJoin_stays (hbase : base.secure ≠ .file) (h : urlJoin base ref = some out) : Stays ref base out := by
  unfold urlJoin at h
  dsimp only at h
  have hsame : ∀ path : Bytes, Stays ref base { base with path } := fun path =>
    ⟨hbase, fun hsecure hinsecure => absurd (hsecure.symm.trans hinsecure) (by decide), fun _ _ => ⟨rfl, rfl, rfl⟩⟩
  split at h
  · obtain rfl := Option.some.inj h
    exact hsame base.path
  split at h
  · -- an address of its own
    rename_i hweb
    have hfile : wStartsFold (trimmed (trimmed ref)) (ascii "file://") = false := by
      rw [trimmed_trimmed]
      rcases hweb with hweb | hweb
      · exact folded_apart (i := 0) (by decide) (by decide) (by decide) hweb
      · exact folded_apart (i := 0) (by decide) (by decide) (by decide) hweb
    have hsecure := urlParse_secure hfile h
    rw [trimmed_trimmed] at hsecure
    refine ⟨?_, fun _ hinsecure => ?_, fun hnone => ?_⟩
    · rw [hsecure]
      split
      · decide
      · split <;> decide
    · rcases hweb with hweb | hweb
      · exact wStartsFold_iff.mp hweb
      · rw [hsecure, if_pos hweb] at hinsecure
        cases hinsecure
    · exact absurd (hweb.elim hasScheme_http hasScheme_https) hnone
  split at h
  · cases h
  split at h
  · -- the scheme of the page it is on
    rename_i hslashes
    obtain ⟨parsed, -, rfl⟩ := Option.map_eq_some_iff.mp h
    refine ⟨hbase, fun hsecure hinsecure => absurd (hsecure.symm.trans hinsecure) (by decide), fun _ hnone => ?_⟩
    exact absurd (slashes_of_folded hslashes) hnone
  split at h
  · cases h
  split at h
  · obtain rfl := Option.some.inj h
    exact hsame _
  · obtain rfl := Option.some.inj h
    exact hsame _

end

/-! ## Link after link -/

/-- Wherever a chain of links from the network has led, the next one stays where it may point. -/
theorem links_stay {base u v : Url} {refs : List Bytes} {ref : Bytes} (hbase : base.secure ≠ .file)
    (hrun : Runs.run urlJoin base refs = some u) (hjoin : urlJoin u ref = some v) : u.secure ≠ .file ∧ Stays ref u v := by
  have hstep : ∀ (s : Url) (ref : Bytes) (s' : Url), s.secure ≠ .file → urlJoin s ref = some s' → s'.secure ≠ .file :=
    fun _ _ _ hs hstep => (urlJoin_stays hs hstep).network
  have hu : u.secure ≠ .file := Runs.inv_of_step hstep hbase hrun
  exact ⟨hu, urlJoin_stays hu hjoin⟩

def sampleHome : Url := { host := ascii "a.example", path := ascii "/x/y", port := 443, secure := .secure }

theorem links_stay_sample :
    Stays (ascii "z") { sampleHome with path := ascii "/p", host := ascii "b.example" }
      { sampleHome with path := ascii "/z", host := ascii "b.example" } :=
  (@links_stay sampleHome _ _ [ascii " //b.example/p"] _ (by decide) (by decide) (by decide)).2

end Zelr.Web
