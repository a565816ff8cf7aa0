import K210Os.FatMount
import K210Os.LinkedChain
import Mathlib.Order.Interval.Finset.Nat

/-!
# Truncating on a damaged FAT

`etrunc` follows the links of the FAT and clears each entry behind it. Nothing is assumed
of the FAT: a chain may be cyclic, run into another one, or leave the volume. A round that
goes on has cleared an entry that was not zero, and of these there are finitely many.
-/

namespace K210Os

open LinkedChain

/-- The values of a FAT entry that `etrunc` follows. -/
def IsLink (c : ℕ) : Prop := 2 ≤ c ∧ c < fat32Eoc

instance (c : ℕ) : Decidable (IsLink c) := inferInstanceAs (Decidable (2 ≤ c ∧ c < fat32Eoc))

/-- The last cluster that `read_fat` and `write_fat` take to be in range. -/
def lastClus (fat : Fat32) : ℕ := (fat.dataClusCnt + 1) % 2 ^ 32

/-- The clusters in range that are reached from `first` along the links. -/
def LinkedClus (fat : Fat32) (d : Disk) (first : ℕ) : Set ℕ :=
  {c | Reached (readFat fat d) (fun v => ¬ IsLink v) first c ∧ c ≤ lastClus fat}

/-- From `d` to `d'` the entries of the clusters of `freed` became 0, and no other byte of
the disk changed. -/
structure Freed (fat : Fat32) (freed : Set ℕ) (d d' : Disk) : Prop where
  zero : ∀ c ∈ freed, fatEntry fat d' c = 0
  data : ∀ a, (∀ c ∈ freed, a < fatAddr fat c ∨ fatAddr fat c + 4 ≤ a) → d'.data a = d.data a

/-- How many entries in range are not zero. -/
def pending (fat : Fat32) (d : Disk) : ℕ :=
  ((Finset.Icc 2 (lastClus fat)).filter fun c => fatEntry fat d c ≠ 0).card

/-- What the two access functions to the FAT need of a volume: `fat32_init` tests the one
and reads the other from a field of 16 bits. -/
structure FatReadable (fat : Fat32) : Prop where
  sector : fat.bytsPerSec = 512
  reserved : fat.rsvdSecCnt < 2 ^ 16

theorem fat32Init_readable {disk : Disk} {ent : ℕ → Dirent} {v : Volume} {cache : EntryCache}
    (hinit : fat32Init disk ent = some (v, cache)) : FatReadable v.fat := by
  have hv := (fat32Init_derived hinit).1
  constructor
  · show v.bpb.bytsPerSec = 512
    rw [hv.bpb]
    exact hv.sector
  · show v.bpb.rsvdSecCnt < 2 ^ 16
    rw [hv.bpb]
    exact (readBpb_narrow _).rsvdSecCnt

section
variable {fat : Fat32} {d d' d'' : Disk} {a c x : ℕ}

/-! ## One entry -/

theorem FatReadable.fatSecOfClus_eq (h : FatReadable fat) (hc : c < fat32Eoc) :
    fatSecOfClus fat c 1 = fatSec fat c := by
  have hreserved := h.reserved
  rw [fat32Eoc] at hc
  rw [fatSecOfClus, h.sector, Nat.mod_eq_of_lt (a := c * 4) (by omega), Nat.sub_self, Nat.mul_zero,
    Nat.add_zero, show c * 4 / 512 = c / 128 by omega, ← fatSec]
  exact Nat.mod_eq_of_lt (by rw [fatSec]; omega)

theorem FatReadable.fatOffsetOfClus_eq (h : FatReadable fat) (c : ℕ) :
    fatOffsetOfClus fat c = 4 * (c % 128) := by
  rw [fatOffsetOfClus, h.sector]
  omega

theorem FatReadable.readFat_eq (h : FatReadable fat) (hc : c < fat32Eoc) (hin : c ≤ lastClus fat) :
    readFat fat d c = fatEntry fat d c := by
  rw [lastClus] at hin
  rw [readFat, if_neg (by omega), if_neg (by omega), h.fatSecOfClus_eq hc, h.fatOffsetOfClus_eq,
    load32_bread, ← fatAddr_eq, fatEntry]

theorem readFat_outside (hc : c < fat32Eoc) (hout : lastClus fat < c) : readFat fat d c = 0 := by
  rw [lastClus] at hout
  rw [readFat, if_neg (by omega), if_pos hout]

theorem readFat_mark (hc : fat32Eoc ≤ c) : readFat fat d c = c := by
  rw [readFat, if_pos hc]

theorem freeClus_outside (hout : lastClus fat < c) : freeClus fat d c = d := by
  rw [lastClus] at hout
  rw [freeClus, writeFat, if_pos hout]

theorem FatReadable.freeClus_write (h : FatReadable fat) (hc : c < fat32Eoc)
    (hin : c ≤ lastClus fat) : EntryWrite fat c 0 d (freeClus fat d c) := by
  rw [lastClus] at hin
  rw [freeClus, writeFat, if_neg (by omega)]
  simp only [h.fatSecOfClus_eq hc, h.fatOffsetOfClus_eq]
  exact entryWrite_bwrite fat d c 0

/-- A cleared entry stops a walk, and the others are read as before. -/
theorem FatReadable.readFat_freeClus (h : FatReadable fat) (hc : c < fat32Eoc)
    (hin : c ≤ lastClus fat) (x : ℕ) :
    readFat fat (freeClus fat d c) x = if x = c then 0 else readFat fat d x := by
  have hentry := (h.freeClus_write (d := d) hc hin).fatEntry (x := x) (by omega)
  rcases Nat.lt_or_ge x fat32Eoc with hx | hx
  · rcases Nat.lt_or_ge (lastClus fat) x with hout | hle
    · rw [readFat_outside hx hout, readFat_outside hx hout, ite_self]
    · rw [h.readFat_eq hx hle, h.readFat_eq hx hle, hentry]
  · rw [readFat_mark hx, readFat_mark hx, if_neg (by omega)]

theorem pending_lt (hw : EntryWrite fat c 0 d d') (hlo : 2 ≤ c) (hin : c ≤ lastClus fat)
    (hne : fatEntry fat d c ≠ 0) : pending fat d' < pending fat d := by
  have hentry : ∀ x, fatEntry fat d' x = if x = c then 0 else fatEntry fat d x := fun x =>
    hw.fatEntry (by omega)
  apply Finset.card_lt_card
  rw [Finset.ssubset_iff_of_subset]
  · refine ⟨c, ?_, ?_⟩
    · simp only [Finset.mem_filter, Finset.mem_Icc]
      exact ⟨⟨hlo, hin⟩, hne⟩
    · simp [hentry]
  · intro x hx
    simp only [Finset.mem_filter, hentry] at hx ⊢
    obtain ⟨hmem, hx⟩ := hx
    split at hx
    · exact absurd rfl hx
    · exact ⟨hmem, hx⟩

theorem pending_le (fat : Fat32) (d : Disk) : pending fat d ≤ fat.dataClusCnt := by
  have hcard : pending fat d ≤ (Finset.Icc 2 (lastClus fat)).card := Finset.card_filter_le _ _
  have hmod := Nat.mod_le (fat.dataClusCnt + 1) (2 ^ 32)
  rw [Nat.card_Icc, lastClus] at hcard
  omega

/-! ## The loop -/

theorem Freed.refl {freed : Set ℕ} (hempty : ∀ c, c ∉ freed) (d : Disk) : Freed fat freed d d :=
  ⟨fun c hc => absurd hc (hempty c), fun _ _ => rfl⟩

/-- No entry of another cluster changed. -/
theorem Freed.other {freed : Set ℕ} (h : Freed fat freed d d') (hc : c ∉ freed) :
    fatEntry fat d' c = fatEntry fat d c := by
  apply LittleEndian.load_congr
  intro a hlo hhi
  apply h.data
  intro x hx
  have hne : x ≠ c := fun heq => hc (heq ▸ hx)
  simp only [fatAddr] at hlo hhi ⊢
  omega

/-- One entry cleared, and then others. -/
theorem Freed.head {freed : Set ℕ} (hw : EntryWrite fat c 0 d d') (h : Freed fat freed d' d'') :
    Freed fat {x | x = c ∨ x ∈ freed} d d'' := by
  constructor
  case zero =>
    intro x hx
    by_cases hin : x ∈ freed
    · exact h.zero x hin
    · obtain rfl := hx.resolve_right hin
      rw [h.other hin, hw.fatEntry (by omega), if_pos rfl]
  case data =>
    intro a hout
    rw [h.data a fun x hx => hout x (.inr hx), hw.data]
    exact LittleEndian.store_outside (hout c (.inl rfl))

theorem linked_empty (ha : ¬ IsLink a) (c : ℕ) : c ∉ LinkedClus fat d a := fun hc =>
  hc.1.head ha

/-- What is met from a link on, after the entry of the link reads as 0. -/
theorem reached_readFat (hlink : IsLink a) (hend : readFat fat d' a = 0)
    (hkeep : ∀ y, y ≠ a → readFat fat d' y = readFat fat d y) :
    Reached (readFat fat d) (fun v => ¬ IsLink v) a x ↔
      x = a ∨ Reached (readFat fat d') (fun v => ¬ IsLink v) (readFat fat d a) x :=
  reached_cut (not_not.mpr hlink) (by rw [hend]; decide) hkeep

/-- The loop of `etrunc` ends, and clears what is reached from where it begins. -/
theorem FatReadable.etruncLoop_frees (h : FatReadable fat) (fuel : ℕ) (d : Disk) (a : ℕ)
    (hpos : 0 < fuel) (hfuel : IsLink a → pending fat d + 1 < fuel) :
    ∃ d', etruncLoop fat fuel d a = some d' ∧ Freed fat (LinkedClus fat d a) d d' := by
  induction fuel generalizing d a with
  | zero => omega
  | succ fuel ih =>
      by_cases hlink : IsLink a
      · rw [etruncLoop, if_pos (show a ≥ 2 ∧ a < fat32Eoc from hlink)]
        have hroom := hfuel hlink
        rcases Nat.lt_or_ge (lastClus fat) a with hout | hin
        · -- a link that leaves the volume reads as 0
          have hnext : readFat fat d a = 0 := readFat_outside hlink.2 hout
          simp only [hnext, freeClus_outside hout]
          obtain ⟨d', hrun, hfreed⟩ := ih d 0 (by omega) fun hzero => absurd hzero (by decide)
          refine ⟨d', hrun, ?_⟩
          have hnone : ∀ c, c ∉ LinkedClus fat d a := by
            rintro c ⟨hreach, hc⟩
            rw [reached_readFat hlink hnext fun _ _ => rfl, hnext] at hreach
            rcases hreach with rfl | hreach
            · omega
            · exact hreach.head (by decide)
          exact ⟨fun c hc => absurd hc (hnone c), fun k _ => hfreed.data k
            fun c hc => absurd hc (linked_empty (by decide) c)⟩
        · have hw := h.freeClus_write (d := d) hlink.2 hin
          have hread := h.readFat_freeClus (d := d) hlink.2 hin
          obtain ⟨d', hrun, hfreed⟩ := ih (freeClus fat d a) (readFat fat d a) (by omega) fun hnext => by
            rw [h.readFat_eq hlink.2 hin] at hnext
            have := pending_lt hw hlink.1 hin (by have := hnext.1; omega)
            omega
          refine ⟨d', hrun, ?_⟩
          have hset : LinkedClus fat d a =
              {x | x = a ∨ x ∈ LinkedClus fat (freeClus fat d a) (readFat fat d a)} := by
            ext x
            show Reached _ _ a x ∧ _ ↔ x = a ∨ Reached _ _ _ x ∧ _
            rw [reached_readFat hlink (hread a |>.trans (if_pos rfl)) fun y hy => by
              rw [hread, if_neg hy]]
            constructor
            · rintro ⟨rfl | hreach, hx⟩
              · exact .inl rfl
              · exact .inr ⟨hreach, hx⟩
            · rintro (rfl | ⟨hreach, hx⟩)
              · exact ⟨.inl rfl, hin⟩
              · exact ⟨.inr hreach, hx⟩
          rw [hset]
          exact hfreed.head hw
      · rw [etruncLoop, if_neg (show ¬ (a ≥ 2 ∧ a < fat32Eoc) from hlink)]
        exact ⟨d, rfl, Freed.refl (linked_empty hlink) d⟩

/-- On every volume that `fat32_init` accepts, whatever the FAT holds by now, `etrunc` of
any entry ends, clears the FAT entries of the clusters in range that are linked from the
entry's first one, and changes no other byte of the disk. -/
theorem etrunc_frees {disk : Disk} {ent : ℕ → Dirent} {v : Volume} {cache : EntryCache}
    (hinit : fat32Init disk ent = some (v, cache)) (d : Disk) (entry : Dirent) :
    ∃ d', etrunc v.fat d entry =
        some (d', { entry with fileSize := 0, firstClus := 0, dirty := true }) ∧
      Freed v.fat (LinkedClus v.fat d entry.firstClus) d d' ∧
      ∀ c ∉ LinkedClus v.fat d entry.firstClus, fatEntry v.fat d' c = fatEntry v.fat d c := by
  have hpending := pending_le v.fat d
  obtain ⟨d', hrun, hfreed⟩ := (fat32Init_readable hinit).etruncLoop_frees
    (v.fat.dataClusCnt + 3) d entry.firstClus (by omega) fun _ => by omega
  refine ⟨d', ?_, hfreed, fun c hc => hfreed.other hc⟩
  rw [etrunc, hrun]
  rfl

/-- A disk on which the FAT entries 2 and 3 of the volume refer to each other. -/
def cyclicDisk : Disk where
  data := store32 (store32 (fun _ => 0) (512 * 32 + 8) 3) (512 * 32 + 12) 2
  written := []
  taken := []

/-- A file on a cycle of two clusters. -/
theorem etrunc_frees_cycle : ∃ v cache d', ∃ entry : Dirent,
    fat32Init (bootDisk 1 32 2 100 1) (fun _ => zeroedDirent) = some (v, cache) ∧
      entry.firstClus = 2 ∧ etrunc v.fat cyclicDisk entry =
        some (d', { entry with fileSize := 0, firstClus := 0, dirty := true }) ∧
      fatEntry v.fat cyclicDisk 2 = 3 ∧ fatEntry v.fat cyclicDisk 3 = 2 ∧
      fatEntry v.fat d' 2 = 0 ∧ fatEntry v.fat d' 3 = 0 := by
  have haccept : (fat32Init (bootDisk 1 32 2 100 1) fun _ => zeroedDirent).isSome := by
    decide +kernel
  obtain ⟨⟨v, cache⟩, hinit⟩ := Option.isSome_iff_exists.mp haccept
  have hv := (fat32Init_derived hinit).1
  obtain ⟨d', hrun, hfreed, -⟩ :=
    etrunc_frees hinit cyclicDisk { zeroedDirent with firstClus := 2 }
  have hreserved : v.fat.rsvdSecCnt = 32 := by
    show v.bpb.rsvdSecCnt = 32
    rw [hv.bpb]
    decide
  have hlast : 3 ≤ lastClus v.fat := by
    obtain ⟨-, -, hclus, -⟩ :=
      hv.values (readBpb_narrow _) ⟨by decide, by decide, by decide⟩
    have hcount : (readBpb (bread (bootDisk 1 32 2 100 1) 0)).clusters = 66 := by decide
    rw [lastClus, show v.fat.dataClusCnt = v.dataClusCnt from rfl, hclus, hcount]
    decide
  have htwo : fatEntry v.fat cyclicDisk 2 = 3 := by
    rw [fatEntry, fatAddr, hreserved]
    decide
  have hthree : fatEntry v.fat cyclicDisk 3 = 2 := by
    rw [fatEntry, fatAddr, hreserved]
    decide
  have hnext : readFat v.fat cyclicDisk 2 = 3 := by
    rw [(fat32Init_readable hinit).readFat_eq (by decide) (by omega), htwo]
  have hstart : Reached (readFat v.fat cyclicDisk) (fun c => ¬ IsLink c) 2 2 := .start (by decide)
  have hmeet : Reached (readFat v.fat cyclicDisk) (fun c => ¬ IsLink c) 2 3 := by
    rw [← hnext]
    exact .step hstart (by rw [hnext]; decide)
  exact ⟨v, cache, d', _, hinit, rfl, hrun, htwo, hthree, hfreed.zero 2 ⟨hstart, by omega⟩,
    hfreed.zero 3 ⟨hmeet, hlast⟩⟩

end

end K210Os
