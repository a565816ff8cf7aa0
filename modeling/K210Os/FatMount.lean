import K210Os.EntryCache
import K210Os.FatClusters

/-!
# Mounting the volume

`fat32_init` reads six numbers from the boot sector and derives the regions of the volume
from them. It tests the name of the format, the size of a sector and the signature of the
second sector, and none of the numbers against another. The lock and the semaphores that
it initialises are left out.
-/

namespace K210Os

structure Bpb where
  bytsPerSec : ℕ
  secPerClus : ℕ
  rsvdSecCnt : ℕ
  fatCnt : ℕ
  hiddSec : ℕ
  totSec : ℕ
  fatSz : ℕ
  rootClus : ℕ

structure Fsinfo where
  numberOfEmptyCluster : ℕ
  nextAvailCluster : ℕ

/-- `struct fat32`. -/
structure Volume where
  firstDataSec : ℕ
  dataSecCnt : ℕ
  dataClusCnt : ℕ
  bytsPerClus : ℕ
  bpb : Bpb
  fsinfo : Fsinfo

/-- What the other functions read of it. -/
def Volume.fat (v : Volume) : Fat32 where
  firstDataSec := v.firstDataSec
  dataClusCnt := v.dataClusCnt
  bytsPerClus := v.bytsPerClus
  bytsPerSec := v.bpb.bytsPerSec
  secPerClus := v.bpb.secPerClus
  rsvdSecCnt := v.bpb.rsvdSecCnt
  totSec := v.bpb.totSec
  fatSz := v.bpb.fatSz

/-- The numbers in the boot sector. -/
def readBpb (b : Memory) : Bpb where
  bytsPerSec := LittleEndian.load b 0x0B 2
  secPerClus := (b 0x0D).toNat
  rsvdSecCnt := LittleEndian.load b 0x0E 2
  fatCnt := (b 0x10).toNat
  hiddSec := load32 b 0x1C
  totSec := load32 b 0x20
  fatSz := load32 b 0x24
  rootClus := load32 b 0x2C

/-- The division of 32-bit numbers; the processor sets all bits of a quotient by zero. -/
def divu (a b : ℕ) : ℕ := if b = 0 then 2 ^ 32 - 1 else a / b

/-- `none` is a panic. `ent` is what the entry cache holds before. -/
def fat32Init (disk : Disk) (ent : ℕ → Dirent) : Option (Volume × EntryCache) :=
  let b := bread disk 0
  let fat32 := cstring [0x46, 0x41, 0x54, 0x33, 0x32]
  if !strncmpEq (fun k => b (0x52 + k)) fat32 5 0 then none
  else
    let bpb := readBpb b
    let firstDataSec := (bpb.rsvdSecCnt + bpb.fatCnt * bpb.fatSz) % 2 ^ 32
    let dataSecCnt := (bpb.totSec + 2 ^ 32 - firstDataSec) % 2 ^ 32
    let dataClusCnt := divu dataSecCnt bpb.secPerClus
    let bytsPerClus := bpb.secPerClus * bpb.bytsPerSec
    if bsize ≠ bpb.bytsPerSec then none
    else
      let f1 := bread disk 1
      if load32 f1 0 ≠ 0x41615252 then none
      else
        let fsinfo := ⟨load32 f1 0x1E8, load32 f1 0x1EC⟩
        some (⟨firstDataSec, dataSecCnt, dataClusCnt, bytsPerClus, bpb, fsinfo⟩,
          EntryCache.fat32Init disk bpb.rootClus ent)

/-- What every later access to the disk relies on: the divisor is not zero, the numbers are
those of unbounded arithmetic, and every cluster has its FAT entry in the first FAT and its
sectors in the data region. -/
structure Volume.Sound (v : Volume) : Prop where
  divisor : v.bpb.secPerClus ≠ 0
  firstDataSec : v.firstDataSec = v.bpb.rsvdSecCnt + v.bpb.fatCnt * v.bpb.fatSz
  dataSecCnt : (v.dataSecCnt : ℤ) =
    v.bpb.totSec - (v.bpb.rsvdSecCnt + v.bpb.fatCnt * v.bpb.fatSz : ℕ)
  dataClusCnt : v.dataClusCnt = v.dataSecCnt / v.bpb.secPerClus
  bytsPerClus : v.bytsPerClus = v.bpb.secPerClus * v.bpb.bytsPerSec
  bytsPerClus_lt : v.bytsPerClus < 2 ^ 32
  fatSec : ∀ c < 2 ^ 32, 2 ≤ c → c ≤ v.dataClusCnt + 1 →
    v.bpb.rsvdSecCnt ≤ fatSecOfClus v.fat c 1 ∧
      fatSecOfClus v.fat c 1 < v.bpb.rsvdSecCnt + v.bpb.fatSz
  clusSec : ∀ c < 2 ^ 32, 2 ≤ c → c ≤ v.dataClusCnt + 1 → ∀ i < v.bpb.secPerClus,
    v.firstDataSec ≤ firstSecOfClus v.fat c + i ∧ firstSecOfClus v.fat c + i < v.bpb.totSec

/-! ## The numbers of the boot sector -/

/-- How many clusters there are behind the FATs. -/
def Bpb.clusters (b : Bpb) : ℕ := (b.totSec - (b.rsvdSecCnt + b.fatCnt * b.fatSz)) / b.secPerClus

/-- The reserved sectors and the FATs fit into the volume, and a FAT has an entry for every
cluster. A sector of the FAT has 128 entries, and from `2 ^ 30` on four times the number of
a cluster wraps around. -/
structure Bpb.Fits (b : Bpb) : Prop where
  cluster : b.secPerClus ≠ 0
  regions : b.rsvdSecCnt + b.fatCnt * b.fatSz ≤ b.totSec
  entries : b.clusters = 0 ∨ min (b.clusters + 1) 0x3FFFFFFF / 128 < b.fatSz

/-- The FAT entry of a cluster lies in the first FAT. -/
theorem entry_lt {n c size : ℕ} (hentries : min (n + 1) 0x3FFFFFFF / 128 < size)
    (hc : c ≤ n + 1) : c * 4 % 2 ^ 32 / 512 < size := by
  omega

theorem entries_le {n size : ℕ} (hentries : min (n + 1) 0x3FFFFFFF / 128 < size)
    (hn : n + 1 < 0x0FFFFFF7) : 4 * (n + 2) ≤ 512 * size := by
  omega

/-- The widths of the fields. -/
structure Bpb.Narrow (b : Bpb) : Prop where
  secPerClus : b.secPerClus < 2 ^ 8
  rsvdSecCnt : b.rsvdSecCnt < 2 ^ 16
  totSec : b.totSec < 2 ^ 32
  fatSz : b.fatSz < 2 ^ 32

theorem readBpb_narrow (b : Memory) : (readBpb b).Narrow where
  secPerClus := (b 0x0D).isLt
  rsvdSecCnt := LittleEndian.load_lt b 0x0E 2
  totSec := LittleEndian.load_lt b 0x20 4
  fatSz := LittleEndian.load_lt b 0x24 4

/-- What `fat32_init` computes from the boot sector of a volume that it accepts. -/
structure Derived (b : Bpb) (v : Volume) : Prop where
  bpb : v.bpb = b
  sector : b.bytsPerSec = 512
  firstDataSec : v.firstDataSec = (b.rsvdSecCnt + b.fatCnt * b.fatSz) % 2 ^ 32
  dataSecCnt : v.dataSecCnt = (b.totSec + 2 ^ 32 - v.firstDataSec) % 2 ^ 32
  dataClusCnt : v.dataClusCnt = divu v.dataSecCnt b.secPerClus
  bytsPerClus : v.bytsPerClus = b.secPerClus * b.bytsPerSec

section
variable {disk : Disk} {ent : ℕ → Dirent} {v : Volume} {cache : EntryCache} {b : Bpb}

theorem fat32Init_derived (hinit : fat32Init disk ent = some (v, cache)) :
    Derived (readBpb (bread disk 0)) v ∧
      cache = EntryCache.fat32Init disk (readBpb (bread disk 0)).rootClus ent := by
  unfold fat32Init at hinit
  dsimp only at hinit
  split at hinit
  · simp at hinit
  · split at hinit
    · simp at hinit
    · rename_i hsector
      split at hinit
      · simp at hinit
      · simp only [Option.some.injEq, Prod.mk.injEq] at hinit
        obtain ⟨rfl, rfl⟩ := hinit
        exact ⟨⟨rfl, (not_not.mp hsector).symm, rfl, rfl, rfl, rfl⟩, rfl⟩

theorem Derived.fatSec_eq (hv : Derived b v) (hb : b.Narrow) (c : ℕ) :
    fatSecOfClus v.fat c 1 = b.rsvdSecCnt + c * 4 % 2 ^ 32 / 512 := by
  have hrsvd := hb.rsvdSecCnt
  simp only [fatSecOfClus, Volume.fat, hv.bpb, hv.sector, Nat.sub_self, Nat.mul_zero, Nat.add_zero]
  exact Nat.mod_eq_of_lt (by omega)

/-- Where the numbers fit, none of them wraps around. -/
theorem Derived.values (hv : Derived b v) (hb : b.Narrow) (hfits : b.Fits) :
    v.firstDataSec = b.rsvdSecCnt + b.fatCnt * b.fatSz ∧
      v.firstDataSec + v.dataSecCnt = b.totSec ∧ v.dataClusCnt = b.clusters ∧
      v.firstDataSec + v.dataClusCnt * b.secPerClus ≤ b.totSec := by
  have htot := hb.totSec
  have hregions := hfits.regions
  have hfirst : v.firstDataSec = b.rsvdSecCnt + b.fatCnt * b.fatSz := by
    rw [hv.firstDataSec]
    exact Nat.mod_eq_of_lt (by omega)
  have hdata : v.dataSecCnt = b.totSec - v.firstDataSec := by
    rw [hv.dataSecCnt]
    omega
  have hclus : v.dataClusCnt = b.clusters := by
    rw [hv.dataClusCnt, divu, if_neg hfits.cluster, hdata, hfirst, Bpb.clusters]
  have hmul : v.dataClusCnt * b.secPerClus ≤ v.dataSecCnt := by
    rw [hv.dataClusCnt, divu, if_neg hfits.cluster]
    exact Nat.div_mul_le_self _ _
  exact ⟨hfirst, by omega, hclus, by omega⟩

/-- The sectors of a cluster of the data region lie in it. -/
theorem Derived.firstSec_eq (hv : Derived b v) (hb : b.Narrow) (hfits : b.Fits) {c : ℕ}
    (hlo : 2 ≤ c) (hhi : c ≤ v.dataClusCnt + 1) (hc : c < 2 ^ 32) :
    firstSecOfClus v.fat c = v.firstDataSec + (c - 2) * b.secPerClus ∧
      v.firstDataSec + (c - 2) * b.secPerClus + b.secPerClus ≤ b.totSec := by
  obtain ⟨-, -, -, hend⟩ := hv.values hb hfits
  have htot := hb.totSec
  have hstep : (c - 2) * b.secPerClus + b.secPerClus ≤ v.dataClusCnt * b.secPerClus := by
    rw [← Nat.succ_mul]
    exact Nat.mul_le_mul_right _ (by omega)
  have hsub : (c + 2 ^ 32 - 2) % 2 ^ 32 = c - 2 := by omega
  refine ⟨?_, by omega⟩
  simp only [firstSecOfClus, hsub]
  rw [show v.fat.secPerClus = b.secPerClus by rw [← hv.bpb]; rfl,
    show v.fat.firstDataSec = v.firstDataSec from rfl, Nat.add_comm]
  exact Nat.mod_eq_of_lt (by omega)

theorem Derived.sound (hv : Derived b v) (hb : b.Narrow) (hfits : b.Fits) : v.Sound := by
  obtain ⟨hfirst, hdata, hclus, -⟩ := hv.values hb hfits
  have hspc := hb.secPerClus
  have hbpb := hv.bpb
  constructor
  case divisor =>
    rw [hbpb]
    exact hfits.cluster
  case firstDataSec =>
    rw [hbpb]
    exact hfirst
  case dataSecCnt =>
    rw [hbpb]
    omega
  case dataClusCnt =>
    rw [hbpb, hv.dataClusCnt, divu, if_neg hfits.cluster]
  case bytsPerClus =>
    rw [hbpb]
    exact hv.bytsPerClus
  case bytsPerClus_lt =>
    rw [hv.bytsPerClus, hv.sector]
    omega
  case fatSec =>
    intro c hc hlo hhi
    rw [hv.fatSec_eq hb, hbpb]
    refine ⟨Nat.le_add_right _ _, Nat.add_lt_add_left ?_ _⟩
    exact entry_lt (hfits.entries.resolve_left (by omega)) (hclus ▸ hhi)
  case clusSec =>
    intro c hc hlo hhi i hi
    rw [hbpb] at hi ⊢
    obtain ⟨heq, hin⟩ := hv.firstSec_eq hb hfits hlo hhi hc
    rw [heq]
    omega

theorem Derived.fits (hv : Derived b v) (hb : b.Narrow) (hsound : v.Sound) : b.Fits := by
  have hcluster : b.secPerClus ≠ 0 := hv.bpb ▸ hsound.divisor
  have hregions : b.rsvdSecCnt + b.fatCnt * b.fatSz ≤ b.totSec := by
    have hdata := hsound.dataSecCnt
    rw [hv.bpb] at hdata
    omega
  refine ⟨hcluster, hregions, or_iff_not_imp_left.mpr fun hsome => ?_⟩
  have hclus : v.dataClusCnt = b.clusters := by
    have hdata := hsound.dataSecCnt
    have hcnt := hsound.dataClusCnt
    rw [hv.bpb] at hdata hcnt
    rw [hcnt, Bpb.clusters]
    congr 1
    omega
  -- the last cluster whose entry is not on an address that wrapped around
  have hlast := (hsound.fatSec (min (b.clusters + 1) 0x3FFFFFFF) (by omega) (by omega)
    (by omega)).2
  rw [hv.fatSec_eq hb, hv.bpb] at hlast
  omega

/-- For every content of the first two sectors that `fat32_init` accepts, the volume is
sound exactly if the numbers of the boot sector fit together. -/
theorem fat32Init_sound_iff (hinit : fat32Init disk ent = some (v, cache)) :
    v.Sound ↔ (readBpb (bread disk 0)).Fits :=
  have hv := (fat32Init_derived hinit).1
  ⟨hv.fits (readBpb_narrow _), hv.sound (readBpb_narrow _)⟩

/-- A disk whose boot sector has the given numbers, and sectors of 512 bytes. -/
def bootDisk (secPerClus rsvdSecCnt fatCnt totSec fatSz : Byte) : Disk where
  data := fun a =>
    match a with
    | 0x0C => 2
    | 0x0D => secPerClus
    | 0x0E => rsvdSecCnt
    | 0x10 => fatCnt
    | 0x20 => totSec
    | 0x24 => fatSz
    | 0x52 => 0x46
    | 0x53 => 0x41
    | 0x54 => 0x54
    | 0x55 => 0x33
    | 0x56 => 0x32
    | 512 => 0x52
    | 513 => 0x52
    | 514 => 0x61
    | 515 => 0x41
    | _ => 0
  written := []
  taken := []

/-- An entry of the cache before the call, in zeroed memory. -/
def zeroedDirent : Dirent := ⟨fun _ => 0, 0, 0, 0, 0, 0, false, 0, 0, 0, 0⟩

/-- A volume of 100 sectors with one cluster a sector and FATs of one sector. -/
theorem fat32Init_sound_small : ∃ v cache,
    fat32Init (bootDisk 1 32 2 100 1) (fun _ => zeroedDirent) = some (v, cache) ∧ v.Sound := by
  have haccept : (fat32Init (bootDisk 1 32 2 100 1) fun _ => zeroedDirent).isSome := by
    decide +kernel
  obtain ⟨⟨v, cache⟩, hinit⟩ := Option.isSome_iff_exists.mp haccept
  exact ⟨v, cache, hinit, (fat32Init_sound_iff hinit).mpr ⟨by decide, by decide, by decide⟩⟩

/-- A boot sector whose clusters have no sectors is accepted. -/
theorem fat32Init_divides_by_zero : ∃ v cache,
    fat32Init (bootDisk 0 32 2 100 1) (fun _ => zeroedDirent) = some (v, cache) ∧ ¬ v.Sound := by
  have haccept : (fat32Init (bootDisk 0 32 2 100 1) fun _ => zeroedDirent).isSome := by
    decide +kernel
  obtain ⟨⟨v, cache⟩, hinit⟩ := Option.isSome_iff_exists.mp haccept
  refine ⟨v, cache, hinit, fun hsound => hsound.divisor ?_⟩
  rw [(fat32Init_derived hinit).1.bpb]
  decide

/-- What the other results about files assume of a volume, from its boot sector. -/
theorem fat32Init_geometry (hinit : fat32Init disk ent = some (v, cache))
    (hfits : (readBpb (bread disk 0)).Fits) (hcnt : 0 < (readBpb (bread disk 0)).fatCnt)
    (hfat : 0 < (readBpb (bread disk 0)).fatSz)
    (hnumbers : (readBpb (bread disk 0)).clusters + 1 < 0x0FFFFFF7) : Geometry v.fat := by
  have hv := (fat32Init_derived hinit).1
  have hb := readBpb_narrow (bread disk 0)
  obtain ⟨hfirst, -, hclus, hend⟩ := hv.values hb hfits
  have hbpb := hv.bpb
  constructor
  case sector =>
    show v.bpb.bytsPerSec = 512
    rw [hbpb]
    exact hv.sector
  case cluster =>
    show v.bytsPerClus = 512 * v.bpb.secPerClus
    rw [hv.bytsPerClus, hv.sector, hbpb, Nat.mul_comm]
  case sectors_pos =>
    show 0 < v.bpb.secPerClus
    rw [hbpb]
    exact Nat.pos_of_ne_zero hfits.cluster
  case sectors_lt =>
    show v.bpb.secPerClus < 256
    rw [hbpb]
    exact hb.secPerClus
  case numbers =>
    show v.dataClusCnt + 1 < 0x0FFFFFF7
    rw [hclus]
    exact hnumbers
  case entries =>
    show 4 * (v.dataClusCnt + 2) ≤ 512 * v.bpb.fatSz
    rw [hbpb, hclus]
    rcases hfits.entries with hnone | hentries
    · omega
    · exact entries_le hentries hnumbers
  case regions =>
    show v.bpb.rsvdSecCnt + v.bpb.fatSz ≤ v.firstDataSec
    rw [hbpb, hfirst]
    exact Nat.add_le_add_left (Nat.le_mul_of_pos_left _ hcnt) _
  case inside =>
    show v.firstDataSec + v.dataClusCnt * v.bpb.secPerClus ≤ v.bpb.totSec
    rw [hbpb]
    exact hend
  case small =>
    show v.bpb.totSec < 2 ^ 32
    rw [hbpb]
    exact hb.totSec

end

end K210Os
