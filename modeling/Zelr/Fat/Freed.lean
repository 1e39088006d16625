import Mathlib.Data.Fintype.Pigeonhole
import Zelr.Fat.Raw

/-!
# Freeing a chain on a disk that fails

The table of a volume as sectors, the one sector of it that is kept, and `free_chain` of `fat.c`, which holds its changes back.
Any read of the table can fail and any write; a write that fails may be on the disk all the same.
-/

namespace Zelr.Fat.Freed

/-! ## The table -/

abbrev Sector := Nat → UInt32

/-- A mounted volume: `fat_start` is a `u16` of the boot sector, `num_fats` a byte, and neither count is 0. -/
structure Volume where
  fatBits : Nat
  fatStart : Nat
  fatSectors : Nat
  numFats : Nat
  partSectors : Nat
  bits : fatBits = 16 ∨ fatBits = 32
  start : fatStart < 65536
  sectors : 0 < fatSectors ∧ fatSectors < 2 ^ 32
  copies : 0 < numFats ∧ numFats < 256

/-- Which reads and writes fail, and which of the failed writes are on the disk. -/
structure Luck where
  readFails : Nat → Bool
  writeFails : Nat → Bool
  kept : Nat → Bool

structure Io where
  disk : Nat → Sector
  fatCache : Sector
  fatCacheLba : Nat
  fatCacheValid : Bool
  fatCacheDirty : Bool
  fatDeferring : Bool
  fatDeferFailed : Bool
  fatReadFailures : Nat
  allocHint : Nat
  /-- how many reads there were, and writes -/
  reads : Nat
  writes : Nat

variable (V : Volume) (L : Luck)

def Volume.refuses (lba : Nat) : Prop := V.partSectors ≠ 0 ∧ lba ≥ V.partSectors

instance (lba : Nat) : Decidable (V.refuses lba) := inferInstanceAs (Decidable (_ ∧ _))

def volRead (s : Io) (lba : Nat) : Option Sector × Io :=
  if V.refuses lba then (none, s)
  else (if L.readFails s.reads then none else some (s.disk lba), { s with reads := s.reads + 1 })

def volWrite (s : Io) (lba : Nat) : Bool × Io :=
  if V.refuses lba then (false, s)
  else
    (!L.writeFails s.writes,
      { s with
        disk := if L.writeFails s.writes ∧ ¬L.kept s.writes then s.disk else Function.update s.disk lba s.fatCache
        writes := s.writes + 1 })

def Volume.copyAt (lba copy : Nat) : Nat := (lba + copy * V.fatSectors) % 2 ^ 32

def writeCopies : Nat → Nat → Io → Bool × Io
  | 0, _, s => (true, s)
  | n + 1, copy, s =>
    match volWrite V L s (V.copyAt s.fatCacheLba copy) with
    | (false, s) => (false, { s with fatCacheValid := false })
    | (true, s) => writeCopies n (copy + 1) s

def fatWriteback (s : Io) : Bool × Io :=
  if s.fatCacheDirty then writeCopies V L V.numFats 0 { s with fatCacheDirty := false } else (true, s)

def fatDefer (s : Io) : Io := { s with fatDeferring := true, fatDeferFailed := false }

def fatUndefer (s : Io) : Bool × Io :=
  match fatWriteback V L { s with fatDeferring := false } with
  | (true, s) => (!s.fatDeferFailed, s)
  | (false, s) => (false, { s with fatDeferFailed := true })

def giveWay (s : Io) : Io :=
  match fatWriteback V L s with
  | (true, s) => s
  | (false, s) => { s with fatDeferFailed := true }

def fatCacheLoad (s : Io) (lba : Nat) : Bool × Io :=
  if s.fatCacheValid ∧ s.fatCacheLba = lba then (true, s)
  else
    match volRead V L (giveWay V L s) lba with
    | (none, s) => (false, { s with fatCacheValid := false, fatReadFailures := s.fatReadFailures + 1 })
    | (some data, s) => (true, { s with fatCache := data, fatCacheLba := lba, fatCacheValid := true })

def Volume.width : Nat := V.fatBits / 8

def Volume.sector (cluster : Nat) : Nat := V.fatStart + cluster * V.width / 512

def Volume.slot (cluster : Nat) : Nat := cluster * V.width % 512 / V.width

def Volume.entry (x : UInt32) : Nat := if V.fatBits = 32 then (x &&& 0x0FFFFFFF).toNat else x.toNat

def Volume.entryWith (x value : UInt32) : UInt32 :=
  if V.fatBits = 32 then (x &&& 0xF0000000) ||| (value &&& 0x0FFFFFFF) else value &&& 0xFFFF

def fatGet (s : Io) (cluster : Nat) : Nat × Io :=
  match fatCacheLoad V L s (V.sector cluster) with
  | (false, s) => (Raw.eoc V.fatBits, s)
  | (true, s) => (V.entry (s.fatCache (V.slot cluster)), s)

def fatSet (s : Io) (cluster : Nat) (value : UInt32) : Bool × Io :=
  match fatCacheLoad V L s (V.sector cluster) with
  | (false, s) => (false, s)
  | (true, s) =>
    let s := { s with
      fatCache := Function.update s.fatCache (V.slot cluster) (V.entryWith (s.fatCache (V.slot cluster)) value)
      fatCacheDirty := true }
    if s.fatDeferring then (true, s) else fatWriteback V L s

/-! ## Freeing -/

def Volume.goes (cluster : Nat) : Prop := 2 ≤ cluster ∧ cluster < Raw.eocMin V.fatBits

instance (cluster : Nat) : Decidable (V.goes cluster) := inferInstanceAs (Decidable (_ ∧ _))

def freeOne (x : Nat × Io) : Nat × Io :=
  let r := fatGet V L x.2 x.1
  let s := (fatSet V L r.2 x.1 0).2
  (r.1, { s with allocHint := min x.1 s.allocHint })

def freeLoop : Nat → Nat × Io → Option Io
  | 0, _ => none
  | f + 1, x => if V.goes x.1 then freeLoop f (freeOne V L x) else some x.2

def freeChain (f cluster : Nat) (s : Io) : Option Io :=
  (freeLoop V L f (cluster, fatDefer s)).map fun s => (fatUndefer V L s).2

def Ends (cluster : Nat) (s : Io) : Prop := ∃ f, (freeChain V L f cluster s).isSome

/-! ## The chain on the table -/

variable {V L} {c lba : Nat}

def Volume.chain (V : Volume) (D : Nat → Sector) (cluster : Nat) : Nat → Nat
  | 0 => cluster
  | k + 1 => V.entry (D (V.sector (V.chain D cluster k)) (V.slot (V.chain D cluster k)))

/-- A chain leaves the clusters, or leaves the volume, or comes to stay within one sector of the table. -/
def Volume.Settles (V : Volume) (D : Nat → Sector) (cluster : Nat) : Prop :=
  ∃ k, ¬ V.goes (V.chain D cluster k) ∨ V.refuses (V.sector (V.chain D cluster k)) ∨
    ∀ j, k ≤ j → V.sector (V.chain D cluster j) = V.sector (V.chain D cluster k)

/-- Writing one sector of the table to every copy leaves another sector alone. -/
def Volume.Spares (V : Volume) (lba other : Nat) : Prop :=
  lba ≠ other → ∀ copy, copy < V.numFats → lba ≠ V.copyAt other copy

/-- No sector of the chain is where another one of it has a copy. -/
def Volume.Apart (V : Volume) (D : Nat → Sector) (cluster : Nat) : Prop :=
  ∀ i j, V.Spares (V.sector (V.chain D cluster i)) (V.sector (V.chain D cluster j))

/-- Outside `fat_defer` what is kept was read, and is what is on the disk. -/
structure Io.Clean (V : Volume) (s : Io) : Prop where
  dirty : s.fatCacheDirty = false
  cache : s.fatCacheValid = true → s.fatCache = s.disk s.fatCacheLba
  read : s.fatCacheValid = true → ¬ V.refuses s.fatCacheLba

theorem freeLoop_isSome (f : Nat) (x : Nat × Io) :
    (freeLoop V L f x).isSome ↔ ∃ k, k < f ∧ ¬ V.goes ((freeOne V L)^[k] x).1 := by
  induction f generalizing x with
  | zero => simp [freeLoop]
  | succ f ih =>
    rw [freeLoop]
    split
    · rename_i hgoes
      rw [ih]
      constructor
      · rintro ⟨k, hk, hstop⟩
        exact ⟨k + 1, by omega, hstop⟩
      · rintro ⟨_ | k, hk, hstop⟩
        · exact absurd hgoes hstop
        · exact ⟨k, by omega, hstop⟩
    · rename_i hstop
      exact iff_of_true rfl ⟨0, Nat.succ_pos f, hstop⟩

theorem ends_iff (cluster : Nat) (s : Io) :
    Ends V L cluster s ↔ ∃ k, ¬ V.goes ((freeOne V L)^[k] (cluster, fatDefer s)).1 := by
  unfold Ends freeChain
  simp only [Option.isSome_map, freeLoop_isSome]
  exact ⟨fun ⟨_, k, _, hstop⟩ => ⟨k, hstop⟩, fun ⟨k, hstop⟩ => ⟨k + 1, k, Nat.lt_succ_self k, hstop⟩⟩

theorem entry_freed (x : UInt32) : V.entry (V.entryWith x 0) = 0 := by
  unfold Volume.entry Volume.entryWith
  split
  · rw [UInt32.zero_and, UInt32.or_zero, UInt32.and_assoc, show (0xF0000000 : UInt32) &&& 0x0FFFFFFF = 0 by decide,
      UInt32.and_zero]
    rfl
  · rfl

theorem sector_lt (h : V.goes c) : V.sector c < 2 ^ 22 := by
  have hstart := V.start
  obtain ⟨-, hlt⟩ := h
  unfold Volume.sector Volume.width
  rcases V.bits with hbits | hbits <;> rw [hbits] at hlt ⊢ <;> simp [Raw.eocMin] at hlt <;> omega

theorem copyAt_zero (h : lba < 2 ^ 32) : V.copyAt lba 0 = lba := by
  rw [Volume.copyAt, Nat.zero_mul, Nat.add_zero, Nat.mod_eq_of_lt h]

theorem cluster_eq {c d : Nat} (hsector : V.sector c = V.sector d) (hslot : V.slot c = V.slot d) : c = d := by
  unfold Volume.sector Volume.slot Volume.width at *
  rcases V.bits with h | h <;> rw [h] at hsector hslot <;> omega

/-! ## What giving way does to the disk -/

variable {s s' : Io}

/-- Nothing but the copies of the sector that is kept is written over, with what is kept. -/
structure Written (V : Volume) (s s' : Io) : Prop where
  cache : s'.fatCache = s.fatCache
  lba : s'.fatCacheLba = s.fatCacheLba
  deferring : s'.fatDeferring = s.fatDeferring
  reads : s'.reads = s.reads
  disk : ∀ l, s'.disk l = s.disk l ∨
    s'.disk l = s.fatCache ∧ ∃ copy, copy < V.numFats ∧ l = V.copyAt s.fatCacheLba copy

theorem writeCopies_written (n copy : Nat) (s : Io) (hn : copy + n ≤ V.numFats) : Written V s (writeCopies V L n copy s).2 := by
  induction n generalizing copy s with
  | zero => exact ⟨rfl, rfl, rfl, rfl, fun _ => .inl rfl⟩
  | succ n ih =>
    have hone : Written V s (volWrite V L s (V.copyAt s.fatCacheLba copy)).2 := by
      unfold volWrite
      split
      · exact ⟨rfl, rfl, rfl, rfl, fun _ => .inl rfl⟩
      · refine ⟨rfl, rfl, rfl, rfl, fun l => ?_⟩
        dsimp only
        split
        · exact .inl rfl
        · by_cases hl : l = V.copyAt s.fatCacheLba copy
          · subst hl
            exact .inr ⟨Function.update_self .., copy, by omega, rfl⟩
          · exact .inl (Function.update_of_ne hl ..)
    unfold writeCopies
    split
    · rename_i t heq
      rw [heq] at hone
      exact ⟨hone.cache, hone.lba, hone.deferring, hone.reads, hone.disk⟩
    · rename_i t heq
      rw [heq] at hone
      have hrest := ih (copy + 1) t (by omega)
      refine ⟨hrest.cache.trans hone.cache, hrest.lba.trans hone.lba, hrest.deferring.trans hone.deferring,
        hrest.reads.trans hone.reads, fun l => ?_⟩
      rcases hrest.disk l with h | ⟨h, hcopy⟩
      · rw [h]
        exact hone.disk l
      · rw [hone.cache] at h
        rw [hone.lba] at hcopy
        exact .inr ⟨h, hcopy⟩

theorem giveWay_clean (h : s.fatCacheDirty = false) : giveWay V L s = s := by
  unfold giveWay fatWriteback
  rw [h]
  rfl

theorem giveWay_dirty (h : s.fatCacheDirty = true) :
    (giveWay V L s).disk = (writeCopies V L V.numFats 0 { s with fatCacheDirty := false }).2.disk ∧
      Written V s (giveWay V L s) := by
  have hwritten := writeCopies_written (V := V) (L := L) V.numFats 0 { s with fatCacheDirty := false } (by omega)
  unfold giveWay fatWriteback
  rw [if_pos h]
  split
  · rename_i t heq
    rw [heq] at hwritten ⊢
    exact ⟨rfl, hwritten.cache, hwritten.lba, hwritten.deferring, hwritten.reads, hwritten.disk⟩
  · rename_i t heq
    rw [heq] at hwritten ⊢
    exact ⟨rfl, hwritten.cache, hwritten.lba, hwritten.deferring, hwritten.reads, hwritten.disk⟩

/-! ## One turn -/

/-- A sector that is kept, either all along or read in place of another. -/
inductive Loaded (V : Volume) (L : Luck) (s s' : Io) (lba : Nat) : Prop
  | before (valid : s.fatCacheValid = true) (place : s.fatCacheLba = lba) (same : s' = s)
  | read (other : ¬ (s.fatCacheValid = true ∧ s.fatCacheLba = lba)) (here : ¬ V.refuses lba)
      (valid : s'.fatCacheValid = true) (place : s'.fatCacheLba = lba) (cache : s'.fatCache = (giveWay V L s).disk lba)
      (disk : s'.disk = (giveWay V L s).disk) (deferring : s'.fatDeferring = (giveWay V L s).fatDeferring)

theorem fatCacheLoad_true (h : fatCacheLoad V L s lba = (true, s')) : Loaded V L s s' lba := by
  unfold fatCacheLoad volRead at h
  split at h
  · rename_i hcached
    exact .before hcached.1 hcached.2 (Prod.mk.inj h).2.symm
  · rename_i hother
    split at h
    · cases h
    · rename_i data t heq
      split at heq
      · cases heq
      · rename_i hhere
        obtain ⟨hdata, rfl⟩ := Prod.mk.inj heq
        obtain rfl := (Prod.mk.inj h).2
        split at hdata
        · cases hdata
        · exact .read hother hhere rfl rfl (Option.some.inj hdata).symm rfl rfl

theorem giveWay_deferring (s : Io) : (giveWay V L s).fatDeferring = s.fatDeferring := by
  cases h : s.fatCacheDirty with
  | false => rw [giveWay_clean h]
  | true => exact (giveWay_dirty h).2.deferring

theorem Loaded.lba_eq (h : Loaded V L s s' lba) : s'.fatCacheValid = true ∧ s'.fatCacheLba = lba ∧
    s'.fatDeferring = s.fatDeferring := by
  cases h with
  | before hvalid hlba hsame =>
    subst hsame
    exact ⟨hvalid, hlba, rfl⟩
  | read _ _ hvalid hlba _ _ hdeferring => exact ⟨hvalid, hlba, hdeferring.trans (giveWay_deferring s)⟩

/-- The sector after a turn: the cluster's entry is free in what is kept, and nothing else is changed. -/
def freed (V : Volume) (s : Io) (c : Nat) : Io :=
  { s with
    fatCache := Function.update s.fatCache (V.slot c) (V.entryWith (s.fatCache (V.slot c)) 0)
    fatCacheDirty := true
    allocHint := min c s.allocHint }

theorem freeOne_loaded (h : fatCacheLoad V L s (V.sector c) = (true, s')) (hdeferring : s.fatDeferring = true) :
    freeOne V L (c, s) = (V.entry (s'.fatCache (V.slot c)), freed V s' c) := by
  obtain ⟨hvalid, hlba, hdefer⟩ := (fatCacheLoad_true h).lba_eq
  have hagain : fatCacheLoad V L s' (V.sector c) = (true, s') := by
    unfold fatCacheLoad
    rw [if_pos ⟨hvalid, hlba⟩]
  unfold freeOne fatGet fatSet
  simp only [h, hagain]
  rw [if_pos (hdefer.trans hdeferring)]
  rfl

theorem freeOne_failed (h : fatCacheLoad V L s (V.sector c) = (false, s')) : ¬ V.goes (freeOne V L (c, s)).1 := by
  unfold freeOne fatGet
  simp only [h]
  unfold Volume.goes Raw.eoc Raw.eocMin
  split <;> omega

theorem freeOne_goes (hgoes : V.goes (freeOne V L (c, s)).1) (hdeferring : s.fatDeferring = true) :
    ∃ s', Loaded V L s s' (V.sector c) ∧ freeOne V L (c, s) = (V.entry (s'.fatCache (V.slot c)), freed V s' c) := by
  rcases hload : fatCacheLoad V L s (V.sector c) with ⟨ok, s'⟩
  cases ok with
  | false => exact absurd hgoes (freeOne_failed hload)
  | true => exact ⟨s', fatCacheLoad_true hload, freeOne_loaded hload hdeferring⟩

/-! ## What is freed stays free -/

variable {D : Nat → Sector} {S T : Nat → Prop}

/-- Between two turns: what is kept and not yet written is of a sector the run has been in. -/
structure Kept (V : Volume) (T : Nat → Prop) (s : Io) : Prop where
  deferring : s.fatDeferring = true
  dirty : s.fatCacheDirty = true → s.fatCacheValid = true ∧ T s.fatCacheLba ∧ s.fatCacheLba < 2 ^ 32
  clean : s.fatCacheDirty = false → s.fatCacheValid = true → s.fatCache = s.disk s.fatCacheLba
  read : s.fatCacheValid = true → ¬ V.refuses s.fatCacheLba

theorem Kept.giveWay_disk (h : Kept V T s) {l : Nat} (hl : ∀ l', T l' → V.Spares l l') :
    (giveWay V L s).disk l = s.disk l ∨
      s.fatCacheDirty = true ∧ l = s.fatCacheLba ∧ (giveWay V L s).disk l = s.fatCache := by
  cases hdirty : s.fatCacheDirty with
  | false => exact .inl (by rw [giveWay_clean hdirty])
  | true =>
    rcases (giveWay_dirty hdirty).2.disk l with hsame | ⟨hcache, copy, hcopy, hlba⟩
    · exact .inl hsame
    · by_cases heq : l = s.fatCacheLba
      · exact .inr ⟨rfl, heq, hcache⟩
      · exact absurd hlba (hl _ (h.dirty hdirty).2.1 heq copy hcopy)

theorem Kept.loaded (h : Kept V T s) (hload : Loaded V L s s' lba) : s'.fatDeferring = true ∧ ¬ V.refuses lba := by
  refine ⟨hload.lba_eq.2.2.trans h.deferring, ?_⟩
  cases hload with
  | before hvalid hsame _ => exact hsame ▸ h.read hvalid
  | read _ hhere _ _ _ _ _ => exact hhere

theorem Kept.freeOne (h : Kept V T s) (hgoes : V.goes c) (hc : S (V.sector c)) (hload : Loaded V L s s' (V.sector c)) :
    Kept V S (freed V s' c) := by
  obtain ⟨hdeferring, hhere⟩ := h.loaded hload
  obtain ⟨hvalid, hlba, -⟩ := hload.lba_eq
  have hsmall := sector_lt hgoes
  exact ⟨hdeferring, fun _ => ⟨hvalid, hlba ▸ hc, by change s'.fatCacheLba < _; omega⟩, nofun, fun _ => hlba ▸ hhere⟩

def Unchanged (V : Volume) (x d : UInt32) : Prop := V.entry x = V.entry d ∨ V.entry x = 0

/-- On some sectors every entry is as it was, or free. -/
structure Held (V : Volume) (D : Nat → Sector) (S : Nat → Prop) (s : Io) : Prop extends Kept V S s where
  disk : ∀ l, S l → ∀ t, Unchanged V (s.disk l t) (D l t)
  cache : s.fatCacheValid = true → S s.fatCacheLba → ∀ t, Unchanged V (s.fatCache t) (D s.fatCacheLba t)

def Volume.Disjoint (V : Volume) (S : Nat → Prop) : Prop := ∀ l l', S l → S l' → V.Spares l l'

theorem Held.loaded (h : Held V D S s) (hapart : V.Disjoint S) (hlba : S lba) (hload : Loaded V L s s' lba) :
    (∀ l, S l → ∀ t, Unchanged V (s'.disk l t) (D l t)) ∧ ∀ t, Unchanged V (s'.fatCache t) (D lba t) := by
  cases hload with
  | before hvalid hsame heq =>
    subst heq hsame
    exact ⟨h.disk, h.cache hvalid hlba⟩
  | read _ _ _ _ hcache hdisk _ =>
    have hall : ∀ l, S l → ∀ t, Unchanged V (s'.disk l t) (D l t) := by
      intro l hl t
      rw [hdisk]
      rcases h.giveWay_disk (L := L) (hapart l · hl) with hsame | ⟨hdirty, rfl, hwrote⟩
      · rw [hsame]
        exact h.disk l hl t
      · rw [hwrote]
        exact h.cache (h.dirty hdirty).1 hl t
    refine ⟨hall, fun t => ?_⟩
    have := hall lba hlba t
    rwa [hdisk, ← hcache] at this

theorem Held.freeOne (h : Held V D S s) (hapart : V.Disjoint S) (hgoes : V.goes c) (hc : S (V.sector c))
    (hload : Loaded V L s s' (V.sector c)) : Held V D S (freed V s' c) := by
  obtain ⟨hdisk, hcache⟩ := h.loaded hapart hc hload
  obtain ⟨-, hlba, -⟩ := hload.lba_eq
  refine ⟨h.toKept.freeOne hgoes hc hload, hdisk, fun _ _ t => ?_⟩
  change Unchanged V (Function.update s'.fatCache _ _ t) (D s'.fatCacheLba t)
  rw [hlba]
  by_cases ht : t = V.slot c
  · subst ht
    rw [Function.update_self]
    exact .inr (entry_freed _)
  · rw [Function.update_of_ne ht]
    exact hcache t

def Io.view (V : Volume) (s : Io) (c : Nat) : UInt32 :=
  if s.fatCacheValid = true ∧ s.fatCacheLba = V.sector c then s.fatCache (V.slot c) else s.disk (V.sector c) (V.slot c)

def Luck.Writes (L : Luck) : Prop := ∀ n, L.writeFails n = false

theorem giveWay_writes (h : Kept V T s) (hwrites : L.Writes) (hdirty : s.fatCacheDirty = true) :
    (giveWay V L s).disk s.fatCacheLba = s.fatCache := by
  obtain ⟨n, hn⟩ := Nat.exists_eq_add_one_of_ne_zero V.copies.1.ne'
  obtain ⟨hvalid, -, hsmall⟩ := h.dirty hdirty
  have hhere := h.read hvalid
  rw [(giveWay_dirty hdirty).1, hn, writeCopies]
  simp only [copyAt_zero hsmall, volWrite]
  rw [if_neg hhere]
  simp only [hwrites _, Bool.not_false, Bool.false_eq_true, false_and, if_false]
  have hrest := writeCopies_written (V := V) (L := L) n (0 + 1)
    { s with
      fatCacheDirty := false
      disk := Function.update s.disk s.fatCacheLba s.fatCache
      writes := s.writes + 1 } (by omega)
  rcases hrest.disk s.fatCacheLba with hsame | hcache
  · rw [hsame]
    exact Function.update_self ..
  · exact hcache.1

theorem Kept.read_view (h : Kept V T s) (hc : ∀ l, T l → V.Spares (V.sector c) l) (hload : Loaded V L s s' (V.sector c)) :
    s'.fatCache (V.slot c) = s.view V c := by
  unfold Io.view
  cases hload with
  | before hvalid hplace hsame =>
    rw [if_pos ⟨hvalid, hplace⟩, hsame]
  | read hother _ _ _ hcache _ _ =>
    rw [if_neg hother, hcache]
    rcases h.giveWay_disk (L := L) hc with hsame | ⟨hdirty, hlba, -⟩
    · rw [hsame]
    · exact absurd ⟨(h.dirty hdirty).1, hlba.symm⟩ hother

theorem freed_self (s : Io) (c : Nat) (h : s.fatCacheValid = true ∧ s.fatCacheLba = V.sector c) :
    V.entry ((freed V s c).view V c) = 0 := by
  have hview : (freed V s c).view V c = V.entryWith (s.fatCache (V.slot c)) 0 := by
    unfold Io.view freed
    dsimp only
    rw [if_pos h, Function.update_self]
  rw [hview]
  exact entry_freed _

theorem Kept.view_free (h : Kept V T s) (hload : Loaded V L s s' (V.sector c))
    (hkeep : (s.fatCacheValid = true ∧ s.fatCacheLba = V.sector c) ∨ L.Writes) {d : Nat} (hd : ∀ l, T l → V.Spares (V.sector d) l)
    (hfree : V.entry (s.view V d) = 0) : V.entry ((freed V s' c).view V d) = 0 := by
  obtain ⟨hvalid, hlba, -⟩ := hload.lba_eq
  by_cases hcd : d = c
  · rw [hcd]
    exact freed_self s' c ⟨hvalid, hlba⟩
  · have hview : (freed V s' c).view V d = s'.view V d := by
      unfold Io.view freed
      dsimp only
      split
      · rename_i hhere
        rw [Function.update_of_ne fun hslot => hcd (cluster_eq (hhere.2.symm.trans hlba) hslot)]
      · rfl
    rw [hview]
    cases hload with
    | before _ _ hsame => rwa [hsame]
    | read hother _ _ _ hcache hdisk _ =>
      have hwrites := hkeep.resolve_left hother
      have hafter : s'.view V d = (giveWay V L s).disk (V.sector d) (V.slot d) := by
        unfold Io.view
        split
        · rename_i hhere
          rw [hcache, ← hhere.2, hlba]
        · rw [hdisk]
      have hbefore : (giveWay V L s).disk (V.sector d) (V.slot d) = s.view V d := by
        unfold Io.view
        split
        · rename_i hhere
          rw [← hhere.2]
          cases hdirty : s.fatCacheDirty with
          | false => rw [giveWay_clean hdirty, h.clean hdirty hhere.1]
          | true => rw [giveWay_writes h hwrites hdirty]
        · rename_i hnot
          rcases h.giveWay_disk (L := L) hd with hsame | ⟨hdirty, hplace, -⟩
          · rw [hsame]
          · exact absurd ⟨(h.dirty hdirty).1, hplace.symm⟩ hnot
      rw [hafter, hbefore]
      exact hfree

/-! ## Runs -/

def Volume.On (V : Volume) (D : Nat → Sector) (c lba : Nat) : Prop := ∃ i, lba = V.sector (V.chain D c i)

theorem Io.Clean.kept (h : s.Clean V) : Kept V T (fatDefer s) where
  deferring := rfl
  dirty := fun hdirty => absurd (h.dirty.symm.trans hdirty) nofun
  clean := fun _ => h.cache
  read := h.read

theorem Io.Clean.held (h : s.Clean V) (c : Nat) : Held V s.disk (V.On s.disk c) (fatDefer s) where
  toKept := h.kept
  disk := fun _ _ _ => .inl rfl
  cache := fun hvalid _ t => .inl (congrArg V.entry (congrFun (h.cache hvalid) t))

theorem Apart.disjoint (h : V.Apart D c) : V.Disjoint (V.On D c) := by
  rintro l l' ⟨i, rfl⟩ ⟨j, rfl⟩
  exact h i j

def Volume.Stays (V : Volume) (D : Nat → Sector) (c n : Nat) : Prop :=
  ∀ j, n ≤ j → V.sector (V.chain D c j) = V.sector (V.chain D c n)

/-- Where a run that never ends is: it follows the chain, and what it frees stays free once it stays in one sector. -/
structure Following (V : Volume) (D : Nat → Sector) (c k : Nat) (x : Nat × Io) : Prop where
  place : x.1 = V.chain D c k
  held : Held V D (V.On D c) x.2
  kept : 0 < k → x.2.fatCacheValid = true ∧ x.2.fatCacheLba = V.sector (V.chain D c (k - 1))
  free : ∀ n, V.Stays D c n → ∀ i, n ≤ i → i < k → V.entry (x.2.view V (V.chain D c i)) = 0

theorem Following.step {k : Nat} {x : Nat × Io} (h : Following V D c k x) (hapart : V.Apart D c)
    (hgoes : V.goes x.1) (hnext : V.goes (freeOne V L x).1) :
    ¬ V.refuses (V.sector (V.chain D c k)) ∧ (freeOne V L x).1 = V.entry (x.2.view V (V.chain D c k)) ∧
      Following V D c (k + 1) (freeOne V L x) := by
  have hdisjoint := Apart.disjoint hapart
  obtain ⟨d, t⟩ := x
  obtain ⟨rfl, hheld, hkept, hfree⟩ := h
  obtain ⟨t', hload, hone⟩ := freeOne_goes hnext hheld.deferring
  have hon : V.On D c (V.sector (V.chain D c k)) := ⟨k, rfl⟩
  have hhere := (hheld.toKept.loaded hload).2
  have hcache := (hheld.loaded hdisjoint hon hload).2
  obtain ⟨hvalid, hlba, -⟩ := hload.lba_eq
  rw [hone] at hnext ⊢
  refine ⟨hhere, by rw [hheld.read_view (hdisjoint _ · hon) hload], ?_, hheld.freeOne hdisjoint hgoes hon hload,
    fun _ => ⟨hvalid, hlba⟩, fun n hstay i hi hik => ?_⟩
  · rcases hcache (V.slot (V.chain D c k)) with hsame | hzero
    · exact hsame
    · exact absurd (hzero ▸ hnext).1 (show ¬ 2 ≤ 0 by decide)
  · rcases Nat.eq_or_lt_of_le (Nat.lt_succ_iff.mp hik) with rfl | hik
    · exact freed_self t' _ ⟨hvalid, hlba⟩
    · refine hheld.view_free hload (.inl ?_) (hdisjoint _ · ⟨i, rfl⟩) (hfree n hstay i hi hik)
      obtain ⟨hvalid', hlba'⟩ := hkept (by omega)
      exact ⟨hvalid', by rw [hlba', hstay (k - 1) (by omega), hstay k (by omega)]⟩

theorem following (hclean : s.Clean V) (hapart : V.Apart s.disk c)
    (hgoes : ∀ k, V.goes ((freeOne V L)^[k] (c, fatDefer s)).1) (k : Nat) :
    Following V s.disk c k ((freeOne V L)^[k] (c, fatDefer s)) := by
  induction k with
  | zero => exact ⟨rfl, hclean.held c, nofun, nofun⟩
  | succ k ih =>
    have hnext := hgoes (k + 1)
    rw [Function.iterate_succ_apply'] at hnext ⊢
    exact (ih.step hapart (hgoes k) hnext).2.2

theorem not_stays (hclean : s.Clean V) (hapart : V.Apart s.disk c) (hgoes : ∀ k, V.goes ((freeOne V L)^[k] (c, fatDefer s)).1)
    (n : Nat) : ¬ V.Stays s.disk c n := by
  intro hstay
  have hfollow := following hclean hapart hgoes
  have hlt : ∀ k, V.chain s.disk c (n + k) < Raw.eocMin V.fatBits := fun k => by
    rw [← (hfollow (n + k)).place]
    exact (hgoes (n + k)).2
  obtain ⟨i, j, hne, heq⟩ := Finite.exists_ne_map_eq_of_infinite fun k => (⟨V.chain s.disk c (n + k), hlt k⟩ : Fin (Raw.eocMin V.fatBits))
  have heq' : V.chain s.disk c (n + i) = V.chain s.disk c (n + j) := congrArg Fin.val heq
  have hstop : ∀ i j, i < j → V.chain s.disk c (n + i) ≠ V.chain s.disk c (n + j) := fun i j hij heq => by
    have hat := hfollow (n + j)
    have hfree := hat.free n hstay (n + i) (by omega) (by omega)
    have hnext := hgoes (n + j + 1)
    rw [Function.iterate_succ_apply'] at hnext
    obtain ⟨-, hentry, -⟩ := hat.step hapart (hgoes (n + j)) hnext
    rw [hentry, ← heq, hfree] at hnext
    exact absurd hnext.1 (by decide)
  rcases Nat.lt_or_gt_of_ne hne with hij | hji
  · exact hstop i j hij heq'
  · exact hstop j i hji heq'.symm

theorem ends_of_settles (hclean : s.Clean V) (hapart : V.Apart s.disk c) (hsettles : V.Settles s.disk c) : Ends V L c s := by
  obtain ⟨n, hstop | hrefused | hstay⟩ := hsettles
  · refine (ends_iff c s).mpr (by_contra fun hforever => hstop ?_)
    push Not at hforever
    rw [← (following hclean hapart hforever n).place]
    exact hforever n
  · refine (ends_iff c s).mpr (by_contra fun hforever => ?_)
    push Not at hforever
    have hnext := hforever (n + 1)
    rw [Function.iterate_succ_apply'] at hnext
    exact ((following hclean hapart hforever n).step hapart (hforever n) hnext).1 hrefused
  · refine (ends_iff c s).mpr (by_contra fun hforever => ?_)
    push Not at hforever
    exact not_stays hclean hapart hforever n hstay

/-! ## Every write done -/

/-- What a bounded sequence comes back to again and again, and in the end never goes below. -/
theorem exists_lowest {f : Nat → Nat} {B : Nat} (hf : ∀ k, f k < B) :
    ∃ m N, (∀ k, N ≤ k → m ≤ f k) ∧ ∀ n, ∃ k, n < k ∧ f k = m := by
  obtain ⟨m, ⟨N, hN⟩, hnot⟩ : ∃ m, (∃ N, ∀ k, N ≤ k → m ≤ f k) ∧ ¬ ∃ N, ∀ k, N ≤ k → m + 1 ≤ f k := by
    by_contra hall
    push Not at hall
    have hevery : ∀ m, ∃ N, ∀ k, N ≤ k → m ≤ f k := fun m => by
      induction m with
      | zero => exact ⟨0, fun _ _ => Nat.zero_le _⟩
      | succ m ih => exact hall m ih
    obtain ⟨N, hN⟩ := hevery B
    exact absurd (hN N le_rfl) (Nat.not_le.mpr (hf N))
  refine ⟨m, N, hN, fun n => ?_⟩
  by_contra hnone
  push Not at hnone
  refine hnot ⟨N + n + 1, fun k hk => ?_⟩
  have := hN k (by omega)
  have := hnone k (by omega)
  omega

/-- The copies of a sector, as far as they fall into the table's range, all lie on the same side of it. -/
theorem copies_one_way (V : Volume) :
    (∀ a b, a < b → b < 2 ^ 22 → V.Spares a b) ∨ ∀ a b, a < b → b < 2 ^ 22 → V.Spares b a := by
  by_contra hboth
  simp only [not_or, Volume.Spares, Volume.copyAt] at hboth
  push Not at hboth
  obtain ⟨⟨a, b, hab, hb, -, k, hk, hdown⟩, a', b', hab', hb', -, k', hk', hup⟩ := hboth
  have hcopies := V.copies.2
  obtain ⟨n, hn⟩ : ∃ n, b + k * V.fatSectors = a + 2 ^ 32 * n := ⟨_, by rw [hdown]; exact (Nat.mod_add_div ..).symm⟩
  obtain ⟨n', hn'⟩ : ∃ n, a' + k' * V.fatSectors = b' + 2 ^ 32 * n := ⟨_, by rw [hup]; exact (Nat.mod_add_div ..).symm⟩
  have hpos : 0 < k := by
    rcases Nat.eq_zero_or_pos k with rfl | hpos
    · rw [Nat.zero_mul, Nat.add_zero] at hn
      omega
    · exact hpos
  -- `k'` times the one step back is `k` times the other step ahead, but for whole rounds
  have hround : k' * (b - a) + k * (b' - a') + 2 ^ 32 * (k * n') = 2 ^ 32 * (k' * n) := by
    obtain ⟨p, rfl⟩ := Nat.exists_eq_add_of_lt hab
    obtain ⟨q, rfl⟩ := Nat.exists_eq_add_of_lt hab'
    have hp : p + 1 + k * V.fatSectors = 2 ^ 32 * n := by omega
    have hq : k' * V.fatSectors = q + 1 + 2 ^ 32 * n' := by omega
    rw [show a + p + 1 - a = p + 1 by omega, show a' + q + 1 - a' = q + 1 by omega]
    calc k' * (p + 1) + k * (q + 1) + 2 ^ 32 * (k * n')
        = k' * (p + 1) + k * (q + 1 + 2 ^ 32 * n') := by ring
      _ = k' * (p + 1 + k * V.fatSectors) := by rw [← hq]; ring
      _ = 2 ^ 32 * (k' * n) := by rw [hp]; ring
  have hsmall : k' * (b - a) ≤ 255 * 2 ^ 22 := Nat.mul_le_mul (by omega) (by omega)
  have hsmall' : k * (b' - a') ≤ 255 * 2 ^ 22 := Nat.mul_le_mul (by omega) (by omega)
  have hsome : 1 ≤ k * (b' - a') := Nat.mul_pos hpos (by omega)
  omega

/-- A run that goes on for ever: each turn frees the cluster it is at in the sector it is in, and keeps that sector. -/
structure Forever (V : Volume) (L : Luck) (x : Nat → Nat × Io) : Prop where
  goes : ∀ k, V.goes (x k).1
  turn : ∀ k, ∃ s', Loaded V L (x k).2 s' (V.sector (x k).1) ∧
    x (k + 1) = (V.entry (s'.fatCache (V.slot (x k).1)), freed V s' (x k).1)
  kept : ∀ k, Kept V (· = V.sector (x k).1) (x (k + 1)).2

theorem forever (hclean : s.Clean V) (hgoes : ∀ k, V.goes ((freeOne V L)^[k] (c, fatDefer s)).1) :
    Forever V L fun k => (freeOne V L)^[k] (c, fatDefer s) := by
  have hnext : ∀ k, Kept V (fun _ => True) ((freeOne V L)^[k] (c, fatDefer s)).2 → ∃ s',
      Loaded V L ((freeOne V L)^[k] (c, fatDefer s)).2 s' (V.sector ((freeOne V L)^[k] (c, fatDefer s)).1) ∧
      (freeOne V L)^[k + 1] (c, fatDefer s) = (V.entry (s'.fatCache (V.slot ((freeOne V L)^[k] (c, fatDefer s)).1)),
        freed V s' ((freeOne V L)^[k] (c, fatDefer s)).1) := fun k hkept => by
    have hgo := hgoes (k + 1)
    rw [Function.iterate_succ_apply'] at hgo ⊢
    exact freeOne_goes hgo hkept.deferring
  have hkept : ∀ k, Kept V (fun _ => True) ((freeOne V L)^[k] (c, fatDefer s)).2 := fun k => by
    induction k with
    | zero => exact hclean.kept
    | succ k ih =>
      obtain ⟨s', hload, hone⟩ := hnext k ih
      rw [hone]
      exact ih.freeOne (hgoes k) trivial hload
  refine ⟨hgoes, fun k => hnext k (hkept k), fun k => ?_⟩
  obtain ⟨s', hload, hone⟩ := hnext k (hkept k)
  rw [hone]
  exact (hkept k).freeOne (hgoes k) rfl hload

namespace Forever

variable {x : Nat → Nat × Io} {m N : Nat} (h : Forever V L x) (hspares : ∀ k, N ≤ k → V.Spares m (V.sector (x k).1))
include h

theorem freed_here (k : Nat) : V.entry ((x (k + 1)).2.view V (x k).1) = 0 := by
  obtain ⟨s', hload, hone⟩ := h.turn k
  obtain ⟨hvalid, hlba, -⟩ := hload.lba_eq
  rw [hone]
  exact freed_self s' _ ⟨hvalid, hlba⟩

include hspares

/-- The entries of a sector that no other sector's copy is written over: what is free stays free. -/
theorem stays_free (hwrites : L.Writes) {d k : Nat} (hd : V.sector d = m) (hk : N < k) (hfree : V.entry ((x k).2.view V d) = 0)
    (r : Nat) : V.entry ((x (k + r)).2.view V d) = 0 := by
  induction r with
  | zero => exact hfree
  | succ r ih =>
    obtain ⟨s', hload, hone⟩ := h.turn (k + r)
    have hkept := h.kept (k + r - 1)
    rw [show k + r - 1 + 1 = k + r by omega] at hkept
    rw [← Nat.add_assoc, hone]
    refine hkept.view_free hload (.inr hwrites) ?_ ih
    rintro _ rfl
    exact hd ▸ hspares _ (by omega)

theorem next_eq {k : Nat} (hk : N < k) (hm : V.sector (x k).1 = m) : (x (k + 1)).1 = V.entry ((x k).2.view V (x k).1) := by
  obtain ⟨s', hload, hone⟩ := h.turn k
  have hkept := h.kept (k - 1)
  rw [show k - 1 + 1 = k by omega] at hkept
  rw [hone, hkept.read_view ?_ hload]
  rintro _ rfl
  exact hm ▸ hspares _ (by omega)

theorem not_often (hwrites : L.Writes) (hoften : ∀ n, ∃ k, n < k ∧ V.sector (x k).1 = m) : False := by
  obtain ⟨φ, hmono, hφ⟩ := Nat.exists_strictMono_subsequence (P := fun k => N < k ∧ V.sector (x k).1 = m) fun n => by
    obtain ⟨k, hk, hm⟩ := hoften (n + N)
    exact ⟨k, by omega, by omega, hm⟩
  obtain ⟨i, j, hne, heq⟩ := Finite.exists_ne_map_eq_of_infinite fun k =>
    (⟨(x (φ k)).1, (h.goes (φ k)).2⟩ : Fin (Raw.eocMin V.fatBits))
  have hstop : ∀ i j, i < j → (x (φ i)).1 ≠ (x (φ j)).1 := fun i j hij heq => by
    obtain ⟨hi, hm⟩ := hφ i
    obtain ⟨r, hr⟩ := Nat.exists_eq_add_of_lt (hmono hij)
    have hfree := h.stays_free hspares hwrites hm (by omega) (h.freed_here (φ i)) r
    have hnext := h.goes (φ j + 1)
    rw [h.next_eq hspares (hφ j).1 (hφ j).2, ← heq, show φ j = φ i + 1 + r by omega, hfree] at hnext
    exact absurd hnext.1 (by decide)
  rcases Nat.lt_or_gt_of_ne hne with hij | hji
  · exact hstop i j hij (congrArg Fin.val heq)
  · exact hstop j i hji (congrArg Fin.val heq).symm

end Forever

theorem ends_of_writes (hclean : s.Clean V) (hwrites : L.Writes) : Ends V L c s := by
  refine (ends_iff c s).mpr (by_contra fun hforever => ?_)
  push Not at hforever
  have hrun := forever hclean hforever
  generalize (fun k => (freeOne V L)^[k] (c, fatDefer s)) = x at hrun
  have hlt : ∀ k, V.sector (x k).1 < 2 ^ 22 := fun k => sector_lt (hrun.goes k)
  rcases copies_one_way V with hdown | hup
  · obtain ⟨m, N, hlow, hoften⟩ := exists_lowest hlt
    refine hrun.not_often (N := N) (fun k hk => ?_) hwrites hoften
    rcases Nat.eq_or_lt_of_le (hlow k hk) with heq | hless
    · exact fun hne => absurd heq hne
    · exact hdown _ _ hless (hlt k)
  · -- the highest sector, by how far it is from the bound
    obtain ⟨m, N, hlow, hoften⟩ := exists_lowest (f := fun k => 2 ^ 22 - V.sector (x k).1) (B := 2 ^ 22 + 1) fun k => by omega
    refine hrun.not_often (m := 2 ^ 22 - m) (N := N) (fun k hk => ?_) hwrites fun n => ?_
    · have hle : m ≤ 2 ^ 22 - V.sector (x k).1 := hlow k hk
      have hk := hlt k
      obtain ⟨k', -, hm⟩ := hoften 0
      have hk' := hlt k'
      rcases Nat.eq_or_lt_of_le (show V.sector (x k).1 ≤ 2 ^ 22 - m by omega) with heq | hless
      · exact fun hne => absurd heq.symm hne
      · exact hup _ _ hless (by omega)
    · obtain ⟨k, hk, hm⟩ := hoften n
      have := hlt k
      exact ⟨k, hk, by omega⟩

/-! ## Every change lost -/

def lost : Luck := ⟨fun _ => false, fun _ => true, fun _ => false⟩

theorem giveWay_lost (s : Io) : (giveWay V lost s).disk = s.disk := by
  cases hdirty : s.fatCacheDirty with
  | false => rw [giveWay_clean hdirty]
  | true =>
    rw [(giveWay_dirty hdirty).1]
    cases V.numFats with
    | zero => rfl
    | succ n =>
      unfold writeCopies volWrite
      split <;> rename_i heq <;> split at heq <;> cases heq <;> rfl

theorem load_lost (s : Io) (h : ¬ V.refuses lba) : ∃ s', fatCacheLoad V lost s lba = (true, s') := by
  unfold fatCacheLoad volRead
  split
  · exact ⟨s, rfl⟩
  · exact ⟨_, rfl⟩

theorem chain_stays {i k : Nat} (hik : i < k) (heq : V.chain D c i = V.chain D c k)
    (hstay : ∀ m, i ≤ m → m < k → V.sector (V.chain D c m) = lba) (m : Nat) (hm : i ≤ m) : V.sector (V.chain D c m) = lba := by
  have hround : ∀ r, V.chain D c (i + r) = V.chain D c (k + r) := fun r => by
    induction r with
    | zero => exact heq
    | succ r ih => rw [← Nat.add_assoc, ← Nat.add_assoc, Volume.chain, Volume.chain, ih]
  induction m using Nat.strong_induction_on with
  | _ m ih =>
    rcases Nat.lt_or_ge m k with hlt | hge
    · exact hstay m hm hlt
    · obtain ⟨r, rfl⟩ := Nat.exists_eq_add_of_le hge
      rw [← hround r]
      exact ih (i + r) (by omega) (by omega)

/-- Where a run is that loses every change: the table is as it was, but for what it freed since it last read a sector. -/
structure Lagging (V : Volume) (D : Nat → Sector) (c k : Nat) (x : Nat × Io) : Prop where
  place : x.1 = V.chain D c k
  deferring : x.2.fatDeferring = true
  disk : x.2.disk = D
  kept : x.2.fatCacheValid = true → ∃ n, n ≤ k ∧ (∀ i, n ≤ i → i < k → V.sector (V.chain D c i) = x.2.fatCacheLba) ∧
    ∀ t, x.2.fatCache t = D x.2.fatCacheLba t ∨ ∃ i, n ≤ i ∧ i < k ∧ t = V.slot (V.chain D c i)

theorem Lagging.step {k : Nat} {x : Nat × Io} (h : Lagging V D c k x) (hnever : ¬ V.Settles D c) :
    Lagging V D c (k + 1) (freeOne V lost x) := by
  obtain ⟨d, t⟩ := x
  obtain ⟨rfl, hdeferring, hsame, hkept⟩ := h
  dsimp only at hdeferring hsame hkept
  subst hsame
  have hhere : ¬ V.refuses (V.sector (V.chain t.disk c k)) := fun h => hnever ⟨k, .inr (.inl h)⟩
  obtain ⟨t', hload⟩ := load_lost t hhere
  have hloaded := fatCacheLoad_true hload
  obtain ⟨hvalid, hlba, hdefer⟩ := hloaded.lba_eq
  -- What a turn reads is kept since some turn of this stay in the sector, or has just been read.
  obtain ⟨n, hn, hstay, hcache⟩ : ∃ n, n ≤ k ∧ (∀ i, n ≤ i → i < k → V.sector (V.chain t.disk c i) = V.sector (V.chain t.disk c k)) ∧
      ∀ l, t'.fatCache l = t.disk (V.sector (V.chain t.disk c k)) l ∨ ∃ i, n ≤ i ∧ i < k ∧ l = V.slot (V.chain t.disk c i) := by
    cases hloaded with
    | before hvalid' hplace hsame =>
      subst hsame
      rw [← hplace]
      exact hkept hvalid'
    | read _ _ _ _ hcache _ _ => exact ⟨k, le_refl k, fun i hi hik => by omega, fun l => .inl (by rw [hcache, giveWay_lost])⟩
  have hdisk : t'.disk = t.disk := by
    cases hloaded with
    | before _ _ hsame => rw [hsame]
    | read _ _ _ _ _ hdisk _ => rw [hdisk, giveWay_lost]
  have hentry : t'.fatCache (V.slot (V.chain t.disk c k)) =
      t.disk (V.sector (V.chain t.disk c k)) (V.slot (V.chain t.disk c k)) := by
    rcases hcache (V.slot (V.chain t.disk c k)) with hsame | ⟨i, hi, hik, hslot⟩
    · exact hsame
    · have heq := cluster_eq (hstay i hi hik) hslot.symm
      refine absurd ⟨i, .inr (.inr fun j hj => ?_)⟩ hnever
      rw [heq]
      exact chain_stays hik heq (fun m hm hmk => hstay m (by omega) hmk) j hj
  rw [freeOne_loaded hload hdeferring]
  refine ⟨congrArg V.entry hentry, hdefer.trans hdeferring, hdisk, fun _ => ⟨n, by omega, fun i hi hik => ?_, fun l => ?_⟩⟩
  · change _ = t'.fatCacheLba
    rw [hlba]
    rcases Nat.eq_or_lt_of_le (Nat.lt_succ_iff.mp hik) with rfl | hik
    · rfl
    · exact hstay i hi hik
  · change Function.update t'.fatCache _ _ l = t.disk t'.fatCacheLba l ∨ _
    rw [hlba]
    by_cases hl : l = V.slot (V.chain t.disk c k)
    · exact .inr ⟨k, hn, Nat.lt_succ_self k, hl⟩
    · rw [Function.update_of_ne hl]
      rcases hcache l with hsame | ⟨i, hi, hik, hslot⟩
      · exact .inl hsame
      · exact .inr ⟨i, hi, by omega, hslot⟩

theorem lagging (hclean : s.Clean V) (hnever : ¬ V.Settles s.disk c) (k : Nat) :
    Lagging V s.disk c k ((freeOne V lost)^[k] (c, fatDefer s)) := by
  induction k with
  | zero =>
    refine ⟨rfl, rfl, rfl, fun hvalid => ⟨0, le_refl 0, nofun, fun t => .inl ?_⟩⟩
    exact congrFun (hclean.cache hvalid) t
  | succ k ih =>
    rw [Function.iterate_succ_apply']
    exact ih.step hnever

theorem never_ends (hclean : s.Clean V) (hnever : ¬ V.Settles s.disk c) : ¬ Ends V lost c s := by
  rw [ends_iff]
  rintro ⟨k, hstop⟩
  rw [(lagging hclean hnever k).place] at hstop
  exact hnever ⟨k, .inl hstop⟩

theorem apart_of_inside (h : ∀ i, V.sector (V.chain D c i) < V.fatStart + V.fatSectors)
    (hall : V.fatStart + V.numFats * V.fatSectors ≤ 2 ^ 32) : V.Apart D c := by
  intro i j hne copy hcopy heq
  have hi := h i
  have hj := h j
  have hstart : V.fatStart ≤ V.sector (V.chain D c j) := Nat.le_add_right _ _
  have hle : (copy + 1) * V.fatSectors ≤ V.numFats * V.fatSectors := Nat.mul_le_mul_right _ hcopy
  rw [Nat.add_mul, Nat.one_mul] at hle
  rw [Volume.copyAt, Nat.mod_eq_of_lt (by omega)] at heq
  rcases Nat.eq_zero_or_pos copy with rfl | hpos
  · exact hne (by omega)
  · have := Nat.le_mul_of_pos_left V.fatSectors hpos
    omega

/-- Freeing a chain ends, whatever fails, just if the chain ends, or leaves the volume, or comes to stay in one sector of
the table, as long as no copy falls on another of its sectors. Where no write fails it always ends. -/
theorem freeChain_ends (hclean : s.Clean V) :
    (V.Settles s.disk c → V.Apart s.disk c → ∀ L, Ends V L c s) ∧ ((∀ L, Ends V L c s) → V.Settles s.disk c) ∧
      ∀ L : Luck, L.Writes → Ends V L c s :=
  ⟨fun hsettles hapart _ => ends_of_settles hclean hapart hsettles,
    fun hends => by_contra fun hnever => never_ends hclean hnever (hends lost), fun _ => ends_of_writes hclean⟩

/-- A small volume of long entries, with two copies of its table. -/
def small : Volume := ⟨32, 32, 600, 2, 0, .inr rfl, by decide, by decide, by decide⟩

/-- A table with one entry in each of its first two sectors, each of them the other's. -/
def crossed : Io where
  disk := fun lba slot => if lba = 32 ∧ slot = 2 then 128 else if lba = 33 ∧ slot = 0 then 2 else 0
  fatCache := fun _ => 0
  fatCacheLba := 0
  fatCacheValid := false
  fatCacheDirty := false
  fatDeferring := false
  fatDeferFailed := false
  fatReadFailures := 0
  allocHint := 2
  reads := 0
  writes := 0

theorem crossed_clean : crossed.Clean small := ⟨rfl, nofun, nofun⟩

theorem crossed_chain (k : Nat) : small.chain crossed.disk 2 k = if k % 2 = 0 then 2 else 128 := by
  induction k with
  | zero => rfl
  | succ k ih =>
    rw [Volume.chain, ih]
    rcases Nat.mod_two_eq_zero_or_one k with h | h
    · rw [h, if_pos rfl, if_neg (by omega)]
      decide
    · rw [h, if_neg (by decide), if_pos (by omega)]
      decide

/-- Two clusters in two sectors of the table, each the other's next, and every write fails. -/
theorem crossed_never_ends : ¬ Ends small lost 2 crossed := by
  refine never_ends crossed_clean ?_
  rintro ⟨k, hstop | hrefused | hstay⟩
  · rw [crossed_chain] at hstop
    split at hstop <;> exact hstop (by decide)
  · exact absurd hrefused.1 (by decide)
  · have := hstay (k + 1) (Nat.le_succ k)
    rw [crossed_chain, crossed_chain] at this
    rcases Nat.mod_two_eq_zero_or_one k with h | h
    · rw [if_neg (show ¬ (k + 1) % 2 = 0 by omega), if_pos h] at this
      exact absurd this (by decide)
    · rw [if_pos (show (k + 1) % 2 = 0 by omega), if_neg (by omega)] at this
      exact absurd this (by decide)

/-- The same two entries in one sector. -/
def turned : Io := { crossed with disk := fun lba slot => if lba = 32 ∧ slot = 2 then 3 else if lba = 32 ∧ slot = 3 then 2 else 0 }

theorem turned_clean : turned.Clean small := ⟨rfl, fun h => absurd h (by decide), fun h => absurd h (by decide)⟩

theorem turned_chain (k : Nat) : small.chain turned.disk 2 k = 2 ∨ small.chain turned.disk 2 k = 3 := by
  induction k with
  | zero => exact .inl rfl
  | succ k ih =>
    rw [Volume.chain]
    rcases ih with h | h <;> rw [h]
    · exact .inr (by decide)
    · exact .inl (by decide)

theorem turned_sector (k : Nat) : small.sector (small.chain turned.disk 2 k) = 32 := by
  rcases turned_chain k with h | h <;> rw [h] <;> rfl

/-- Where the writes are done the first table is freed all the same, and whatever fails a cycle in one sector is. -/
theorem crossed_ends : Ends small ⟨fun _ => false, fun _ => false, fun _ => false⟩ 2 crossed ∧ ∀ L, Ends small L 2 turned := by
  refine ⟨(freeChain_ends crossed_clean).2.2 _ fun _ => rfl, ?_⟩
  refine (freeChain_ends turned_clean).1 ⟨0, .inr (.inr fun j _ => ?_)⟩ (apart_of_inside (fun i => ?_) (by decide))
  · rw [turned_sector, turned_sector]
  · rw [turned_sector]
    decide

end Zelr.Fat.Freed
