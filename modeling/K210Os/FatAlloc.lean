import K210Os.FatClusters
import Mathlib.Data.Finset.Card
import Mathlib.Order.Interval.Finset.Nat

/-!
# Allocation of clusters

`alloc_clus` marks the first zero entry of the FAT region and zeroes the cluster of
that number. With the two reserved entries in use that is a free cluster of the data
region whenever there is one.
-/

namespace K210Os

/-- The reserved entries are in use, and entries have 28 bits. -/
structure SoundFat (fat : Fat32) (d : Disk) : Prop where
  reserved : ∀ k < 2, fatEntry fat d k ≠ 0
  entry_lt : ∀ k ≤ fat.dataClusCnt + 1, fatEntry fat d k < 2 ^ 28

def freeClusters (fat : Fat32) (d : Disk) : Finset ℕ :=
  (Finset.Icc 2 (fat.dataClusCnt + 1)).filter fun c => fatEntry fat d c = 0

/-- The sectors that belong to the clusters of `own`: theirs and those of their FAT
entries. -/
def ownSectors (fat : Fat32) (own : Set ℕ) : Set ℕ :=
  {s | ∃ c ∈ own, s = fatSec fat c ∨ s ∈ clusSecs fat c}

/-- From `d` to `d'` cluster `c` was allocated. -/
structure Allocated (fat : Fat32) (c : ℕ) (d d' : Disk) : Prop where
  free : c ∈ freeClusters fat d
  entry : ∀ k < 128 * fat.fatSz,
    fatEntry fat d' k = if k = c then fat32Feoc else fatEntry fat d k
  byte : ∀ x ∈ DataClus fat, ∀ k < 512 * fat.secPerClus,
    clusByte fat d' x k = if x = c then 0 else clusByte fat d x k
  logged : Logged (ownSectors fat {c}) {c} d d'

variable {fat : Fat32} {d d' : Disk} {c p n i : ℕ}

theorem mem_freeClusters : c ∈ freeClusters fat d ↔ c ∈ DataClus fat ∧ fatEntry fat d c = 0 := by
  simp [freeClusters, DataClus]

theorem ownSectors_mono {own own' : Set ℕ} (h : own ⊆ own') :
    ownSectors fat own ⊆ ownSectors fat own' := by
  rintro s ⟨c, hc, hs⟩
  exact ⟨c, h hc, hs⟩

theorem fatEntry_sector (fat : Fat32) (d : Disk) (i j : ℕ) :
    load32 (bread d (fat.rsvdSecCnt + i)) (4 * j) = fatEntry fat d (128 * i + j) := by
  rw [load32_bread, fatEntry, fatAddr]
  congr 1
  omega

attribute [local simp] allocClusLoop

/-- The scan takes the first zero entry. -/
theorem allocClusLoop_eq (hg : Geometry fat) (hp : p < 128 * fat.fatSz)
    (hzero : fatEntry fat d p = 0) (hmin : ∀ k < p, fatEntry fat d k ≠ 0)
    (hn : n + i = fat.fatSz) (hi : 128 * i ≤ p) :
    allocClusLoop fat d n i = (p % 2 ^ 32, zeroClus fat (bwrite d (fatSec fat p)
      (store32 (bread d (fatSec fat p)) (4 * (p % 128)) fat32Feoc)) (p % 2 ^ 32)) := by
  induction n generalizing i with
  | zero => omega
  | succ n ih =>
      have hregions := hg.regions
      have hinside := hg.inside
      have hsmall := hg.small
      have hsec : (fat.rsvdSecCnt + i) % 2 ^ 32 = fat.rsvdSecCnt + i :=
        Nat.mod_eq_of_lt (by omega)
      rw [allocClusLoop]
      simp only [hsec, hg.sector, Nat.reduceDiv]
      rcases Nat.lt_or_ge p (128 * (i + 1)) with hhere | hlater
      · have hfound : zeroEntry (bread d (fat.rsvdSecCnt + i)) 128 = some (p - 128 * i) := by
          rw [zeroEntry, List.find?_range_eq_some]
          refine ⟨?_, by simp; omega, fun j hj => ?_⟩
          · rw [fatEntry_sector, show 128 * i + (p - 128 * i) = p by omega, hzero]
            rfl
          · rw [fatEntry_sector]
            simpa using hmin _ (by omega)
        have hsector : fat.rsvdSecCnt + i = fatSec fat p := by
          rw [fatSec]
          omega
        rw [hsector] at hfound
        simp only [hsector, hfound, show p - 128 * i = p % 128 by omega,
          show i * 128 + p % 128 = p by omega]
      · have hnone : zeroEntry (bread d (fat.rsvdSecCnt + i)) 128 = none := by
          rw [zeroEntry, List.find?_range_eq_none]
          intro j hj
          rw [fatEntry_sector]
          simpa using hmin _ (by omega)
        simp only [hnone]
        exact ih (by omega) (by omega)

theorem allocClusLoop_none (hg : Geometry fat) (h : ∀ k < 128 * fat.fatSz, fatEntry fat d k ≠ 0)
    (hn : n + i = fat.fatSz) : allocClusLoop fat d n i = (1, d) := by
  induction n generalizing i with
  | zero => rfl
  | succ n ih =>
      have hregions := hg.regions
      have hinside := hg.inside
      have hsmall := hg.small
      have hsec : (fat.rsvdSecCnt + i) % 2 ^ 32 = fat.rsvdSecCnt + i :=
        Nat.mod_eq_of_lt (by omega)
      have hnone : zeroEntry (bread d (fat.rsvdSecCnt + i)) 128 = none := by
        rw [zeroEntry, List.find?_range_eq_none]
        intro j hj
        rw [fatEntry_sector]
        simpa using h _ (by omega)
      rw [allocClusLoop]
      simp only [hsec, hg.sector, Nat.reduceDiv, hnone]
      exact ih (by omega)

/-- The first zero entry of the FAT region, if there is one. -/
theorem exists_first_zero (fat : Fat32) (d : Disk) :
    (∀ k < 128 * fat.fatSz, fatEntry fat d k ≠ 0) ∨
      ∃ p < 128 * fat.fatSz, fatEntry fat d p = 0 ∧ ∀ k < p, fatEntry fat d k ≠ 0 := by
  by_cases h : ∃ p, p < 128 * fat.fatSz ∧ fatEntry fat d p = 0
  · refine .inr ⟨Nat.find h, (Nat.find_spec h).1, (Nat.find_spec h).2, fun k hk hzero => ?_⟩
    exact Nat.find_min h hk ⟨by have := (Nat.find_spec h).1; omega, hzero⟩
  · exact .inl fun k hk hzero => h ⟨k, hk, hzero⟩

/-- With a free cluster, `alloc_clus` allocates one. -/
theorem allocClus_of_free (hg : Geometry fat) (hreserved : ∀ k < 2, fatEntry fat d k ≠ 0)
    (hfree : (freeClusters fat d).Nonempty) :
    ∃ c d', allocClus fat d = (c, d') ∧ Allocated fat c d d' := by
  obtain ⟨q, hq⟩ := hfree
  obtain ⟨⟨hq2, hqle⟩, hqzero⟩ := mem_freeClusters.mp hq
  have hnumbers := hg.numbers
  have hqlt := lt_of_le_dataClusCnt hg hqle
  obtain hall | ⟨p, hp, hzero, hmin⟩ := exists_first_zero fat d
  · exact absurd hqzero (hall q hqlt)
  have hpq : p ≤ q := Nat.le_of_not_lt fun hlt => hmin q hlt hqzero
  have hp2 : 2 ≤ p := Nat.le_of_not_lt fun hlt => hreserved p hlt hzero
  have hpc : p ∈ DataClus fat := ⟨hp2, by omega⟩
  have hmark := entryWrite_bwrite fat d p fat32Feoc
  have hclear := zeroClus_write hg hpc (d := bwrite d (fatSec fat p)
    (store32 (bread d (fatSec fat p)) (4 * (p % 128)) fat32Feoc))
  generalize hd₁ : bwrite d (fatSec fat p)
    (store32 (bread d (fatSec fat p)) (4 * (p % 128)) fat32Feoc) = d₁ at hmark hclear
  generalize hd₂ : zeroClus fat d₁ p = d₂ at hclear
  have hloop := allocClusLoop_eq hg hp hzero hmin (Nat.add_zero fat.fatSz) (Nat.zero_le p)
  rw [Nat.mod_eq_of_lt (by omega), hd₁, hd₂] at hloop
  refine ⟨p, { d₂ with taken := p :: d₂.taken }, ?_, ?_⟩
  · rw [allocClus, hloop]
  refine ⟨mem_freeClusters.mpr ⟨hpc, hzero⟩, fun k hk => ?_, fun x hx k hk => ?_, ?_⟩
  · have hsame : fatEntry fat d₂ k = fatEntry fat d₁ k := hclear.fatEntry hg hk
    exact hsame.trans (hmark.fatEntry (by decide))
  · have hbyte : clusByte fat d₂ x k = _ := hclear.clusByte hpc hx (by omega) hk
    change clusByte fat d₂ x k = _
    rw [hbyte, hmark.clusByte hg hp]
    simp [hk]
  · have hlog : Logged (ownSectors fat {p}) ∅ d d₂ :=
      (hmark.logged.mono (by rintro s rfl; exact ⟨p, rfl, .inl rfl⟩) fun _ h => h).trans
        (hclear.logged.mono (fun s hs => ⟨p, rfl, .inr hs⟩) fun _ h => h)
    obtain ⟨hw, ts, hts, hnone⟩ := hlog
    refine ⟨hw, p :: ts, ?_, fun x hx => ?_⟩
    · simp [hts]
    · rcases List.mem_cons.mp hx with rfl | hx
      · rfl
      · exact absurd (hnone x hx) (Set.notMem_empty x)

theorem Allocated.sound (h : Allocated fat c d d') (hg : Geometry fat) (hs : SoundFat fat d) :
    SoundFat fat d' := by
  have hentries := hg.entries
  refine ⟨fun k hk => ?_, fun k hk => ?_⟩
  · rw [h.entry k (by omega)]
    split
    · decide
    · exact hs.reserved k hk
  · rw [h.entry k (lt_of_le_dataClusCnt hg hk)]
    split
    · decide
    · exact hs.entry_lt k hk

theorem Allocated.freeClusters (h : Allocated fat c d d') (hg : Geometry fat) :
    freeClusters fat d' = (freeClusters fat d).erase c := by
  ext x
  rw [Finset.mem_erase, mem_freeClusters, mem_freeClusters]
  refine ⟨fun ⟨hx, hzero⟩ => ?_, fun ⟨hne, hx, hzero⟩ => ⟨hx, ?_⟩⟩
  · rw [h.entry x (lt_of_le_dataClusCnt hg hx.2)] at hzero
    split at hzero
    · exact absurd hzero (by decide)
    next hne => exact ⟨hne, hx, hzero⟩
  · rw [h.entry x (lt_of_le_dataClusCnt hg hx.2), if_neg hne, hzero]

end K210Os
