import K210Os.Fat32
import Mathlib.Data.Set.Basic

/-!
# What the primitive operations do to FAT entries and clusters

On a volume whose regions fit, the FAT entry of a cluster and the bytes of a cluster
have fixed places on the disk. Every primitive operation changes one of these places
and nothing else.
-/

namespace K210Os

/-- The regions of the volume lie behind one another and inside it, every cluster has
an entry in the first FAT, and cluster numbers are below the marks. -/
structure Geometry (fat : Fat32) : Prop where
  sector : fat.bytsPerSec = 512
  cluster : fat.bytsPerClus = 512 * fat.secPerClus
  sectors_pos : 0 < fat.secPerClus
  sectors_lt : fat.secPerClus < 256
  numbers : fat.dataClusCnt + 1 < 0x0FFFFFF7
  entries : 4 * (fat.dataClusCnt + 2) ≤ 512 * fat.fatSz
  regions : fat.rsvdSecCnt + fat.fatSz ≤ fat.firstDataSec
  inside : fat.firstDataSec + fat.dataClusCnt * fat.secPerClus ≤ fat.totSec
  small : fat.totSec < 2 ^ 32

/-- The numbers of the clusters of the data region. -/
def DataClus (fat : Fat32) : Set ℕ := {c | 2 ≤ c ∧ c ≤ fat.dataClusCnt + 1}

/-- The place of a FAT entry. -/
def fatAddr (fat : Fat32) (k : ℕ) : ℕ := 512 * fat.rsvdSecCnt + 4 * k

/-- The first sector of a cluster of the data region. -/
def clusSec (fat : Fat32) (c : ℕ) : ℕ := fat.firstDataSec + (c - 2) * fat.secPerClus

def fatEntry (fat : Fat32) (d : Disk) (k : ℕ) : ℕ := load32 d.data (fatAddr fat k)

def clusByte (fat : Fat32) (d : Disk) (c k : ℕ) : Byte := d.data (512 * clusSec fat c + k)

/-- The sectors of a cluster. -/
def clusSecs (fat : Fat32) (c : ℕ) : Set ℕ :=
  {s | clusSec fat c ≤ s ∧ s < clusSec fat c + fat.secPerClus}

/-- From `d` to `d'` only sectors of `S` were written and only numbers of `T` came out of
`alloc_clus`. -/
structure Logged (S T : Set ℕ) (d d' : Disk) : Prop where
  written : ∃ ws, d'.written = ws ++ d.written ∧ ∀ s ∈ ws, s ∈ S
  taken : ∃ ts, d'.taken = ts ++ d.taken ∧ ∀ c ∈ ts, c ∈ T

section Log
variable {S S' T T' : Set ℕ} {d d' d'' : Disk}

theorem Logged.refl (S T : Set ℕ) (d : Disk) : Logged S T d d :=
  ⟨⟨[], rfl, by simp⟩, ⟨[], rfl, by simp⟩⟩

theorem Logged.trans (h : Logged S T d d') (k : Logged S T d' d'') : Logged S T d d'' := by
  obtain ⟨⟨ws, hws, hS⟩, ⟨ts, hts, hT⟩⟩ := h
  obtain ⟨⟨ws', hws', hS'⟩, ⟨ts', hts', hT'⟩⟩ := k
  refine ⟨⟨ws' ++ ws, ?_, ?_⟩, ⟨ts' ++ ts, ?_, ?_⟩⟩
  · rw [hws', hws, List.append_assoc]
  · simpa [or_imp, forall_and] using ⟨hS', hS⟩
  · rw [hts', hts, List.append_assoc]
  · simpa [or_imp, forall_and] using ⟨hT', hT⟩

theorem Logged.mono (h : Logged S T d d') (hS : S ⊆ S') (hT : T ⊆ T') : Logged S' T' d d' := by
  obtain ⟨⟨ws, hws, hw⟩, ⟨ts, hts, ht⟩⟩ := h
  exact ⟨⟨ws, hws, fun s hs => hS (hw s hs)⟩, ⟨ts, hts, fun c hc => hT (ht c hc)⟩⟩

theorem logged_bwrite (d : Disk) {s : ℕ} (buf : Memory) (T : Set ℕ) (hs : s ∈ S) :
    Logged S T d (bwrite d s buf) :=
  ⟨⟨[s], rfl, by simpa using hs⟩, ⟨[], rfl, by simp⟩⟩

end Log

/-! ## Sectors -/

section Sector
variable {d : Disk} {s o m v : ℕ} {src : ℕ → Byte}

/-- A change inside a sector's buffer that is written back changes those bytes of the
disk. -/
theorem bwrite_copyBytes (h : o + m ≤ 512) :
    (bwrite d s (copyBytes (bread d s) o src m)).data = copyBytes d.data (512 * s + o) src m := by
  funext a
  simp only [bwrite, copyBytes, bread, bsize]
  by_cases hsec : 512 * s ≤ a ∧ a < 512 * s + 512
  · rw [if_pos hsec]
    by_cases hin : 512 * s + o ≤ a ∧ a < 512 * s + o + m
    · rw [if_pos hin, if_pos (by omega), Nat.sub_sub]
    · rw [if_neg hin, if_neg (by omega), Nat.add_sub_cancel' hsec.1]
  · rw [if_neg hsec, if_neg (by omega)]

theorem bwrite_store32 (h : o + 4 ≤ 512) :
    (bwrite d s (store32 (bread d s) o v)).data = store32 d.data (512 * s + o) v := by
  have hcopy := @bwrite_copyBytes d s o 4 (fun k => BitVec.ofNat 8 (v / 256 ^ k)) h
  exact hcopy

theorem load32_bread : load32 (bread d s) o = load32 d.data (512 * s + o) :=
  LittleEndian.load_shift _ _ _ _

end Sector

variable {fat : Fat32} {d d' : Disk} {c x k v off n : ℕ}

theorem clusSec_add_le (hg : Geometry fat) (hc : c ∈ DataClus fat) :
    clusSec fat c + fat.secPerClus ≤ fat.totSec := by
  have hmul : (c - 2 + 1) * fat.secPerClus ≤ fat.dataClusCnt * fat.secPerClus :=
    Nat.mul_le_mul_right _ (by have := hc.1; have := hc.2; omega)
  have hinside := hg.inside
  rw [Nat.add_mul, Nat.one_mul] at hmul
  rw [clusSec]
  omega

theorem firstSecOfClus_eq (hg : Geometry fat) (hc : c ∈ DataClus fat) :
    firstSecOfClus fat c = clusSec fat c := by
  have hle := clusSec_add_le hg hc
  have hsmall := hg.small
  have hnumbers := hg.numbers
  have hsub : (c + 2 ^ 32 - 2) % 2 ^ 32 = c - 2 := by
    have := hc.1
    have := hc.2
    omega
  rw [firstSecOfClus, hsub, Nat.add_comm, ← clusSec]
  exact Nat.mod_eq_of_lt (by omega)

/-- The sectors of different clusters are different. -/
theorem clusSec_disjoint (hc : c ∈ DataClus fat) (hx : x ∈ DataClus fat) (hne : c ≠ x) :
    clusSec fat c + fat.secPerClus ≤ clusSec fat x ∨
      clusSec fat x + fat.secPerClus ≤ clusSec fat c := by
  have hstep : ∀ a b : ℕ, a + 1 ≤ b → a * fat.secPerClus + fat.secPerClus ≤ b * fat.secPerClus := by
    intro a b hab
    have hmul : (a + 1) * fat.secPerClus ≤ b * fat.secPerClus := Nat.mul_le_mul_right _ hab
    rwa [Nat.add_mul, Nat.one_mul] at hmul
  have hc1 := hc.1
  have hx1 := hx.1
  simp only [clusSec]
  rcases Nat.lt_or_gt_of_ne hne with hlt | hlt
  · have := hstep (c - 2) (x - 2) (by omega)
    omega
  · have := hstep (x - 2) (c - 2) (by omega)
    omega

theorem firstDataSec_le (fat : Fat32) (c : ℕ) : fat.firstDataSec ≤ clusSec fat c :=
  Nat.le_add_right _ _

/-! ## Entries -/

/-- The sector of a FAT entry. -/
def fatSec (fat : Fat32) (k : ℕ) : ℕ := fat.rsvdSecCnt + k / 128

theorem fatAddr_eq (fat : Fat32) (k : ℕ) : fatAddr fat k = 512 * fatSec fat k + 4 * (k % 128) := by
  rw [fatAddr, fatSec]
  omega

theorem fatSec_lt (hg : Geometry fat) (hk : k < 128 * fat.fatSz) :
    fatSec fat k < fat.firstDataSec := by
  have hregions := hg.regions
  rw [fatSec]
  omega

theorem lt_of_le_dataClusCnt (hg : Geometry fat) (hc : c ≤ fat.dataClusCnt + 1) :
    c < 128 * fat.fatSz := by
  have hentries := hg.entries
  omega

theorem fatSecOfClus_eq (hg : Geometry fat) (hc : c ≤ fat.dataClusCnt + 1) :
    fatSecOfClus fat c 1 = fatSec fat c := by
  have hlt := fatSec_lt hg (lt_of_le_dataClusCnt hg hc)
  have hle := hg.inside
  have hsmall := hg.small
  have hnumbers := hg.numbers
  rw [fatSecOfClus, hg.sector, Nat.mod_eq_of_lt (a := c * 4) (by omega), Nat.sub_self, Nat.mul_zero,
    Nat.add_zero, show c * 4 / 512 = c / 128 by omega, ← fatSec]
  exact Nat.mod_eq_of_lt (by omega)

theorem fatOffsetOfClus_eq (hg : Geometry fat) (c : ℕ) :
    fatOffsetOfClus fat c = 4 * (c % 128) := by
  rw [fatOffsetOfClus, hg.sector]
  omega

theorem readFat_eq (hg : Geometry fat) (hc : c ≤ fat.dataClusCnt + 1) :
    readFat fat d c = fatEntry fat d c := by
  have hnumbers := hg.numbers
  rw [readFat, if_neg (by rw [fat32Eoc]; omega), if_neg (by omega), fatSecOfClus_eq hg hc,
    fatOffsetOfClus_eq hg, load32_bread, ← fatAddr_eq, fatEntry]

/-- From `d` to `d'` the FAT entry `k` became `v`, and nothing else changed. -/
structure EntryWrite (fat : Fat32) (k v : ℕ) (d d' : Disk) : Prop where
  data : d'.data = store32 d.data (fatAddr fat k) v
  logged : Logged {fatSec fat k} ∅ d d'

/-- A FAT sector written back with one entry changed. -/
theorem entryWrite_bwrite (fat : Fat32) (d : Disk) (k v : ℕ) :
    EntryWrite fat k v d
      (bwrite d (fatSec fat k) (store32 (bread d (fatSec fat k)) (4 * (k % 128)) v)) := by
  refine ⟨?_, logged_bwrite d _ _ rfl⟩
  rw [bwrite_store32 (by omega), fatAddr_eq]

theorem writeFat_write (hg : Geometry fat) (hc : c ≤ fat.dataClusCnt + 1) :
    EntryWrite fat c v d (writeFat fat d c v) := by
  have hnumbers := hg.numbers
  rw [writeFat, if_neg (by omega)]
  simp only [fatSecOfClus_eq hg hc, fatOffsetOfClus_eq hg]
  exact entryWrite_bwrite fat d c v

theorem EntryWrite.fatEntry (h : EntryWrite fat k v d d') (hv : v < 2 ^ 32) :
    fatEntry fat d' x = if x = k then v else fatEntry fat d x := by
  rw [K210Os.fatEntry, h.data]
  split
  · subst x
    exact (LittleEndian.load_store _ _ _ _).trans (Nat.mod_eq_of_lt hv)
  · exact LittleEndian.load_store_of_disjoint (by simp only [fatAddr]; omega)

theorem fatAddr_lt (hg : Geometry fat) (hk : k < 128 * fat.fatSz) (x : ℕ) :
    fatAddr fat k + 4 ≤ 512 * clusSec fat x := by
  have hregions := hg.regions
  have hfirst := firstDataSec_le fat x
  rw [fatAddr]
  omega

theorem EntryWrite.clusByte (h : EntryWrite fat k v d d') (hg : Geometry fat)
    (hk : k < 128 * fat.fatSz) (x j : ℕ) : clusByte fat d' x j = clusByte fat d x j := by
  have hlt := fatAddr_lt hg hk x
  rw [K210Os.clusByte, h.data]
  exact LittleEndian.store_outside (by omega)

/-! ## Clusters -/

/-- From `d` to `d'` the bytes `[a, a + n)` of cluster `c` became those of `src`, and
nothing else changed. -/
structure ClusWrite (fat : Fat32) (c a n : ℕ) (src : ℕ → Byte) (d d' : Disk) : Prop where
  data : d'.data = copyBytes d.data (512 * clusSec fat c + a) src n
  logged : Logged (clusSecs fat c) ∅ d d'

theorem ClusWrite.fatEntry {a : ℕ} {src : ℕ → Byte} (h : ClusWrite fat c a n src d d')
    (hg : Geometry fat) (hk : k < 128 * fat.fatSz) : fatEntry fat d' k = fatEntry fat d k := by
  have hlt := fatAddr_lt hg hk c
  rw [K210Os.fatEntry, h.data]
  exact LittleEndian.load_congr fun x _ hx => copyBytes_outside (by omega)

theorem ClusWrite.clusByte {a : ℕ} {src : ℕ → Byte} (h : ClusWrite fat c a n src d d')
    (hc : c ∈ DataClus fat) (hx : x ∈ DataClus fat) (ha : a + n ≤ 512 * fat.secPerClus)
    (hk : k < 512 * fat.secPerClus) :
    clusByte fat d' x k =
      if x = c ∧ a ≤ k ∧ k < a + n then src (k - a) else clusByte fat d x k := by
  rw [K210Os.clusByte, h.data]
  split
  next hin =>
    obtain ⟨rfl, hlo, hhi⟩ := hin
    rw [copyBytes_inside (by omega) (by omega), Nat.add_sub_add_left]
  next hout =>
    refine copyBytes_outside ?_
    by_cases heq : x = c
    · subst x
      simp only [true_and, not_and, not_lt] at hout
      rcases Nat.lt_or_ge k a with hlt | hge
      · omega
      · have := hout hge
        omega
    · rcases clusSec_disjoint hc hx (Ne.symm heq) with hlt | hlt <;> omega

theorem zeroClusLoop_data (sec n : ℕ) (h : sec + n < 2 ^ 32) :
    (zeroClusLoop n d sec).data = copyBytes d.data (512 * sec) (fun _ => 0) (512 * n) ∧
      Logged {s | sec ≤ s ∧ s < sec + n} ∅ d (zeroClusLoop n d sec) := by
  induction n generalizing d sec with
  | zero =>
      refine ⟨?_, Logged.refl _ _ _⟩
      rw [Nat.mul_zero, copyBytes_zero]
      rfl
  | succ n ih =>
      rw [zeroClusLoop, Nat.mod_eq_of_lt (by omega)]
      obtain ⟨hdata, hlog⟩ := ih (d := bwrite d sec (memset (bread d sec) 0 0 bsize)) (sec + 1)
        (by omega)
      refine ⟨?_, ?_⟩
      · have hfirst : (bwrite d sec (memset (bread d sec) 0 0 bsize)).data =
            copyBytes d.data (512 * sec + 0) (fun _ => 0) 512 :=
          @bwrite_copyBytes d sec 0 512 (fun _ => 0) (by omega)
        rw [hdata, hfirst]
        funext a
        simp only [copyBytes]
        split_ifs <;> first | rfl | omega
      · refine (logged_bwrite d _ _ ?_).trans (hlog.mono ?_ fun _ h => h)
        · simp
        · rintro s ⟨hlo, hhi⟩
          exact ⟨by omega, by omega⟩

theorem zeroClus_write (hg : Geometry fat) (hc : c ∈ DataClus fat) :
    ClusWrite fat c 0 (512 * fat.secPerClus) (fun _ => 0) d (zeroClus fat d c) := by
  have hle := clusSec_add_le hg hc
  have hsmall := hg.small
  obtain ⟨hdata, hlog⟩ :=
    zeroClusLoop_data (d := d) (clusSec fat c) fat.secPerClus (by omega)
  rw [zeroClus, firstSecOfClus_eq hg hc]
  exact ⟨hdata, hlog⟩

theorem roundLen_eq (size off left : ℕ) : roundLen size off left = min left (size - off % size) := by
  rw [roundLen]
  split <;> omega

/-- A round of a transfer takes something, and does not leave the unit it begins in. -/
theorem roundLen_bounds (size off : ℕ) {left : ℕ} (hsize : 0 < size) (hleft : 0 < left) :
    0 < roundLen size off left ∧ roundLen size off left ≤ left ∧
      off % size + roundLen size off left ≤ size := by
  have hmod := Nat.mod_lt off hsize
  rw [roundLen_eq]
  omega

/-- The loop of `rw_clus` that writes: what it counts is what it overlays, and with copies
that succeed that is all. -/
theorem rwClusWriteLoop_data (data : Transfer) (d : Disk) (fuel sec off tot : ℕ)
    (hfuel : n - tot ≤ fuel) (htot : tot ≤ n)
    (hsec : 512 * sec + off % 512 + (n - tot) ≤ 512 * 2 ^ 32) :
    let r := rwClusWriteLoop data n fuel d sec off tot
    tot ≤ r.1 ∧ r.1 ≤ n ∧ ((∀ i m, data.ok i m = true) → r.1 = n) ∧
      r.2.data = copyBytes d.data (512 * sec + off % 512) (data.drop tot).byte (r.1 - tot) ∧
      Logged {s | sec ≤ s ∧ 512 * s < 512 * sec + off % 512 + (n - tot)} ∅ d r.2 := by
  have hnone : d.data =
      copyBytes d.data (512 * sec + off % 512) (data.drop tot).byte (tot - tot) := by
    rw [Nat.sub_self, copyBytes_zero]
  induction fuel generalizing d sec off tot with
  | zero =>
      obtain rfl : tot = n := by omega
      exact ⟨le_rfl, le_rfl, fun _ => rfl, hnone, Logged.refl _ _ _⟩
  | succ fuel ih =>
      intro r
      by_cases hlt : tot < n
      · obtain ⟨hpos, hle, hin⟩ := roundLen_bounds 512 off (by omega) (by omega : 0 < n - tot)
        have hlen := roundLen_eq 512 off (n - tot)
        generalize hm : roundLen 512 off (n - tot) = m at hpos hle hin hlen
        cases hcopy : data.ok tot m with
        | false =>
            have hend : r = (tot, d) := by
              simp [r, rwClusWriteLoop, bsize, hm, hcopy]
            rw [hend]
            refine ⟨le_rfl, htot, fun hok => ?_, hnone, Logged.refl _ _ _⟩
            exact absurd (hok tot m) (by rw [hcopy]; decide)
        | true =>
            have hround : r = rwClusWriteLoop data n fuel
                (bwrite d sec (copyBytes (bread d sec) (off % 512) (data.drop tot).byte m))
                ((sec + 1) % 2 ^ 32) (off + m) (tot + m) := by
              simp only [r, rwClusWriteLoop, if_pos hlt, bsize, hm, hcopy, if_true]
              rfl
            have hfirst :
                (bwrite d sec (copyBytes (bread d sec) (off % 512) (data.drop tot).byte m)).data
                  = copyBytes d.data (512 * sec + off % 512) (data.drop tot).byte m :=
              bwrite_copyBytes hin
            have hlog : Logged {s | sec ≤ s ∧ 512 * s < 512 * sec + off % 512 + (n - tot)} ∅ d
                (bwrite d sec (copyBytes (bread d sec) (off % 512) (data.drop tot).byte m)) :=
              logged_bwrite d _ _ (by simp only [Set.mem_ofPred_eq]; omega)
            rcases Nat.lt_or_ge (tot + m) n with hmore | hdone
            · -- the round ends at the end of the sector
              have hfull : off % 512 + m = 512 := by omega
              have hstart : (off + m) % 512 = 0 := by omega
              have hnext : (sec + 1) % 2 ^ 32 = sec + 1 := Nat.mod_eq_of_lt (by omega)
              obtain ⟨hlo, hhi, hall, hdata', hlog'⟩ := ih (bwrite d sec (copyBytes (bread d sec)
                (off % 512) (data.drop tot).byte m)) (sec + 1) (off + m) (tot + m) (by omega)
                (by omega) (by omega) (by rw [Nat.sub_self, copyBytes_zero])
              rw [hround, hnext]
              generalize rwClusWriteLoop data n fuel _ (sec + 1) (off + m) (tot + m) = rest at *
              refine ⟨by omega, hhi, hall, ?_, hlog.trans (hlog'.mono ?_ fun _ h => h)⟩
              · rw [hdata', hfirst]
                funext a
                simp only [copyBytes, Transfer.drop]
                split_ifs <;> first | rfl | omega | (congr 1; omega)
              · rintro s ⟨hlo, hhi⟩
                exact ⟨by omega, by omega⟩
            · obtain rfl : m = n - tot := by omega
              have hend : r = (n, bwrite d sec (copyBytes (bread d sec) (off % 512)
                  (data.drop tot).byte (n - tot))) := by
                rw [hround, show tot + (n - tot) = n by omega]
                cases fuel with
                | zero => rfl
                | succ fuel => simp [rwClusWriteLoop]
              rw [hend]
              exact ⟨htot, le_rfl, fun _ => rfl, hfirst, hlog⟩
      · obtain rfl : tot = n := by omega
        have hend : r = (tot, d) := by simp [r, rwClusWriteLoop]
        rw [hend]
        exact ⟨le_rfl, le_rfl, fun _ => rfl, hnone, Logged.refl _ _ _⟩

/-- Where `rw_clus` begins in a cluster. -/
theorem rwClusSec_eq (hg : Geometry fat) (hc : c ∈ DataClus fat)
    (hoff : off < 512 * fat.secPerClus) : rwClusSec fat c off = clusSec fat c + off / 512 := by
  have hle := clusSec_add_le hg hc
  have hsmall := hg.small
  rw [rwClusSec, firstSecOfClus_eq hg hc, hg.sector]
  exact Nat.mod_eq_of_lt (by omega)

/-- A write inside a cluster overlays the bytes that it counts. -/
theorem rwClusWrite_spec (hg : Geometry fat) (hc : c ∈ DataClus fat) (d : Disk) (data : Transfer)
    (hn : 0 < n) (hoff : off + n ≤ fat.bytsPerClus) :
    ∃ put d', rwClusWrite fat d c data off n = some (put, d') ∧ put ≤ n ∧
      ((∀ i m, data.ok i m = true) → put = n) ∧ ClusWrite fat c off put data.byte d d' := by
  have hle := clusSec_add_le hg hc
  have hsmall := hg.small
  have hlt := hg.sectors_lt
  rw [hg.cluster] at hoff
  obtain ⟨-, hput, hall, hdata, hlog⟩ := rwClusWriteLoop_data (n := n) data d n
    (clusSec fat c + off / 512) (off % 512) 0 (by omega) (by omega) (by omega)
  refine ⟨_, _, ?_, hput, hall, ?_, hlog.mono ?_ fun _ h => h⟩
  · rw [rwClusWrite, if_neg (by rw [hg.cluster]; omega), rwClusSec_eq hg hc (by omega), hg.sector]
  · rw [hdata, show 512 * (clusSec fat c + off / 512) + off % 512 % 512 =
      512 * clusSec fat c + off by omega]
    simp [Transfer.drop]
  · rintro s ⟨hlo, hhi⟩
    exact ⟨by omega, by omega⟩

theorem rwClusWrite_eq (hg : Geometry fat) (hc : c ∈ DataClus fat) (d : Disk) (data : Transfer)
    (hok : ∀ i m, data.ok i m = true) (hn : 0 < n) (hoff : off + n ≤ fat.bytsPerClus) :
    ∃ d', rwClusWrite fat d c data off n = some (n, d') ∧ ClusWrite fat c off n data.byte d d' := by
  obtain ⟨put, d', hrun, -, hall, hw⟩ := rwClusWrite_spec hg hc d data hn hoff
  rw [hall hok] at hrun hw
  exact ⟨d', hrun, hw⟩

/-- The loop of `rw_clus` that reads delivers what it counts, all of it with copies that
succeed. -/
theorem rwClusReadLoop_eq (data : Transfer) (fuel sec off tot : ℕ) (hfuel : n - tot ≤ fuel)
    (htot : tot ≤ n) (hsec : 512 * sec + off % 512 + (n - tot) ≤ 512 * 2 ^ 32) :
    ∃ len ≤ n - tot, ((∀ i m, data.ok i m = true) → len = n - tot) ∧
      rwClusReadLoop data n d fuel sec off tot =
        (tot + len, (List.range len).map fun k => d.data (512 * sec + off % 512 + k)) := by
  induction fuel generalizing sec off tot with
  | zero =>
      obtain rfl : tot = n := by omega
      exact ⟨0, Nat.zero_le _, fun _ => (Nat.sub_self tot).symm, rfl⟩
  | succ fuel ih =>
      by_cases hlt : tot < n
      · obtain ⟨hpos, hle, hin⟩ := roundLen_bounds 512 off (by omega) (by omega : 0 < n - tot)
        have hlen := roundLen_eq 512 off (n - tot)
        generalize hm : roundLen 512 off (n - tot) = m at hpos hle hin hlen
        simp only [rwClusReadLoop, if_pos hlt, bsize, hm]
        cases hcopy : data.ok tot m with
        | false =>
            refine ⟨0, Nat.zero_le _, fun hok => ?_, rfl⟩
            exact absurd (hok tot m) (by rw [hcopy]; decide)
        | true =>
            rcases Nat.lt_or_ge (tot + m) n with hmore | hdone
            · have hfull : off % 512 + m = 512 := by omega
              have hstart : (off + m) % 512 = 0 := by omega
              have hnext : (sec + 1) % 2 ^ 32 = sec + 1 := Nat.mod_eq_of_lt (by omega)
              obtain ⟨len, hle', hall, hrest⟩ :=
                ih (sec + 1) (off + m) (tot + m) (by omega) (by omega) (by omega)
              refine ⟨m + len, by omega, fun hok => by have := hall hok; omega, ?_⟩
              rw [hnext, hrest, List.range_add, List.map_append, List.map_map]
              simp only [if_true, bread, bsize, Nat.add_assoc, Prod.mk.injEq, true_and]
              congr 1
              refine List.map_congr_left fun k _ => ?_
              rw [Function.comp_apply]
              congr 1
              omega
            · obtain rfl : m = n - tot := by omega
              refine ⟨n - tot, le_rfl, fun _ => rfl, ?_⟩
              have hend : ∀ s o, rwClusReadLoop data n d fuel s o n = (n, []) := by
                intro s o
                cases fuel with
                | zero => rfl
                | succ fuel => simp [rwClusReadLoop]
              rw [show tot + (n - tot) = n by omega]
              simp only [if_true, hend, List.append_nil, bread, bsize, Nat.add_assoc]
      · obtain rfl : tot = n := by omega
        exact ⟨0, Nat.zero_le _, fun _ => (Nat.sub_self tot).symm, by simp [rwClusReadLoop]⟩

/-- A read inside a cluster delivers the bytes that it counts. -/
theorem rwClusRead_spec (hg : Geometry fat) (hc : c ∈ DataClus fat) (d : Disk) (data : Transfer)
    (hn : 0 < n) (hoff : off + n ≤ fat.bytsPerClus) :
    ∃ len ≤ n, ((∀ i m, data.ok i m = true) → len = n) ∧ rwClusRead fat d c data off n =
      some (len, (List.range len).map fun k => clusByte fat d c (off + k)) := by
  have hle := clusSec_add_le hg hc
  have hsmall := hg.small
  have hlt := hg.sectors_lt
  rw [hg.cluster] at hoff
  obtain ⟨len, hlen, hall, hrun⟩ := rwClusReadLoop_eq (d := d) (n := n) data n
    (clusSec fat c + off / 512) (off % 512) 0 (by omega) (by omega) (by omega)
  refine ⟨len, hlen, hall, ?_⟩
  rw [rwClusRead, if_neg (by rw [hg.cluster]; omega), rwClusSec_eq hg hc (by omega), hg.sector,
    hrun, Nat.zero_add]
  congr 2
  refine List.map_congr_left fun k _ => ?_
  rw [clusByte]
  congr 1
  omega

theorem rwClusRead_eq (hg : Geometry fat) (hc : c ∈ DataClus fat) (d : Disk) (data : Transfer)
    (hok : ∀ i m, data.ok i m = true) (hn : 0 < n) (hoff : off + n ≤ fat.bytsPerClus) :
    rwClusRead fat d c data off n =
      some (n, (List.range n).map fun k => clusByte fat d c (off + k)) := by
  obtain ⟨len, -, hall, hrun⟩ := rwClusRead_spec hg hc d data hn hoff
  rwa [hall hok] at hrun

end K210Os
