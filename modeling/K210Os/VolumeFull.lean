import K210Os.FileContent

/-!
# Allocation on a full volume

`alloc_clus` also sees the padding entries of the FAT and returns 1 when it finds
nothing. A call takes only clusters of the data region exactly where the volume has
as many free clusters as the call adds.
-/

namespace K210Os

/-- The clusters that came out of `alloc_clus` from `d` to `d'`. -/
def takenSince (d d' : Disk) : List ℕ := d'.taken.take (d'.taken.length - d.taken.length)

/-- The sectors written from `d` to `d'`. -/
def writtenSince (d d' : Disk) : List ℕ := d'.written.take (d'.written.length - d.written.length)

/-- What is wanted of a call that has to add `need` clusters to the chains of the clusters
`own`: it takes only clusters of the data region; and where the volume has not that many
it fails, and outside the data region it writes only entries of clusters it owns. -/
structure SafeCall (fat : Fat32) (own : Set ℕ) (need : ℕ) (failed : Prop) (d d' : Disk) :
    Prop where
  taken : ∀ c ∈ takenSince d d', c ∈ DataClus fat
  full : (freeClusters fat d).card < need → failed ∧
    (∀ s ∈ writtenSince d d', fat.firstDataSec ≤ s ∧ s < fat.totSec ∨
      ∃ c, (c ∈ own ∨ c ∈ takenSince d d') ∧ s = fatSec fat c) ∧
    ∀ k < 128 * fat.fatSz, k ∉ own → k ∉ takenSince d d' → fatEntry fat d' k = fatEntry fat d k

/-- From `d` to `d'` a number outside the data region came out of `alloc_clus`, or a
sector between the entries of the clusters and the data region was written. -/
def Strayed (fat : Fat32) (d d' : Disk) : Prop :=
  (∃ c ∈ takenSince d d', c ∉ DataClus fat) ∨
    ∃ s ∈ writtenSince d d', fatSec fat (fat.dataClusCnt + 1) < s ∧ s < fat.firstDataSec

/-- `d'` comes later than `d`. -/
def Later (d d' : Disk) : Prop := Logged Set.univ Set.univ d d'

/-- How many bytes the loop of `rw_clus` counts: those of its rounds up to the first copy that
fails. -/
def putLoop (data : Transfer) (n : ℕ) : ℕ → ℕ → ℕ → ℕ
  | 0, _, tot => tot
  | fuel + 1, off, tot =>
      if tot < n then
        let m := roundLen bsize off (n - tot)
        if data.ok tot m then putLoop data n fuel (off + m) (tot + m) else tot
      else tot

/-- Where the last round of `ewrite` ends: at the end of the call, or in front of it where a
copy fails. -/
def ewriteReach (fat : Fat32) (data : Transfer) (n : ℕ) : ℕ → ℕ → ℕ → ℕ
  | 0, off, _ => off
  | fuel + 1, off, tot =>
      if tot < n then
        let m := roundLen fat.bytsPerClus off (n - tot)
        if putLoop (data.drop tot) m m (off % fat.bytsPerClus % fat.bytsPerSec) 0 = m then
          ewriteReach fat data n fuel (off + m) (tot + m)
        else off + m
      else off

variable {fat : Fat32} {d d' d'' : Disk} {entry : Dirent} {cs : List ℕ} {n off c : ℕ}
  {own S T : Set ℕ} {data : Transfer}

theorem Logged.later (h : Logged S T d d') : Later d d' :=
  h.mono (Set.subset_univ _) (Set.subset_univ _)

theorem since_append {α : Type*} (ws xs : List α) :
    (ws ++ xs).take ((ws ++ xs).length - xs.length) = ws := by
  simp

theorem Logged.taken_mem (h : Logged S T d d') (hc : c ∈ takenSince d d') : c ∈ T := by
  obtain ⟨-, ts, hts, hT⟩ := h
  rw [takenSince, hts, since_append] at hc
  exact hT c hc

theorem Strayed.later (h : Strayed fat d d') (hfirst : Later d d') (k : Later d' d'') :
    Strayed fat d d'' := by
  obtain ⟨⟨ws, hws, -⟩, ⟨ts, hts, -⟩⟩ := hfirst
  obtain ⟨⟨ws', hws', -⟩, ⟨ts', hts', -⟩⟩ := k
  rcases h with ⟨c, hc, hout⟩ | ⟨s, hs, hin⟩
  · rw [takenSince, hts, since_append] at hc
    refine .inl ⟨c, ?_, hout⟩
    rw [takenSince, hts', hts, ← List.append_assoc, since_append]
    exact List.mem_append_right _ hc
  · rw [writtenSince, hws, since_append] at hs
    refine .inr ⟨s, ?_, hin⟩
    rw [writtenSince, hws', hws, ← List.append_assoc, since_append]
    exact List.mem_append_right _ hs

theorem Strayed.earlier (h : Later d d') (k : Strayed fat d' d'') (hlast : Later d' d'') :
    Strayed fat d d'' := by
  obtain ⟨⟨ws, hws, -⟩, ⟨ts, hts, -⟩⟩ := h
  obtain ⟨⟨ws', hws', -⟩, ⟨ts', hts', -⟩⟩ := hlast
  rcases k with ⟨c, hc, hout⟩ | ⟨s, hs, hin⟩
  · rw [takenSince, hts', since_append] at hc
    refine .inl ⟨c, ?_, hout⟩
    rw [takenSince, hts', hts, ← List.append_assoc, since_append]
    exact List.mem_append_left _ hc
  · rw [writtenSince, hws', since_append] at hs
    refine .inr ⟨s, ?_, hin⟩
    rw [writtenSince, hws', hws, ← List.append_assoc, since_append]
    exact List.mem_append_left _ hs

/-- A call that strayed on a full volume is not safe. -/
theorem Strayed.not_safeCall {need : ℕ} {failed : Prop} (h : Strayed fat d d')
    (hown : ∀ c ∈ own, c ∈ DataClus fat) (hfull : (freeClusters fat d).card < need) :
    ¬ SafeCall fat own need failed d d' := by
  rintro ⟨htaken, hwant⟩
  rcases h with ⟨c, hc, hout⟩ | ⟨s, hs, hlo, hhi⟩
  · exact hout (htaken c hc)
  · obtain ⟨-, hwritten, -⟩ := hwant hfull
    rcases hwritten s hs with ⟨hdata, -⟩ | ⟨c, hc, rfl⟩
    · omega
    · have hle : c ≤ fat.dataClusCnt + 1 :=
        (hc.elim (hown c) (htaken c)).2
      simp only [fatSec] at hlo
      omega

/-- A call that finds as many clusters as it adds is safe. -/
theorem Logged.safeCall {need : ℕ} {failed : Prop} (h : Logged S T d d')
    (hT : ∀ c ∈ T, c ∈ DataClus fat) (hroom : need ≤ (freeClusters fat d).card) :
    SafeCall fat own need failed d d' :=
  ⟨fun _ hc => hT _ (h.taken_mem hc), fun hfull => absurd hroom (by omega)⟩

/-! ## Every operation only adds to what was done -/

theorem later_bwrite (d : Disk) (s : ℕ) (buf : Memory) : Later d (bwrite d s buf) :=
  logged_bwrite d buf _ (Set.mem_univ s)

theorem later_writeFat (fat : Fat32) (d : Disk) (c v : ℕ) : Later d (writeFat fat d c v) := by
  rw [writeFat]
  split
  · exact Logged.refl _ _ _
  · exact later_bwrite d _ _

theorem later_zeroClusLoop (n : ℕ) (d : Disk) (sec : ℕ) : Later d (zeroClusLoop n d sec) := by
  induction n generalizing d sec with
  | zero => exact Logged.refl _ _ _
  | succ n ih => exact (later_bwrite d _ _).trans (ih _ _)

theorem later_allocClusLoop (fat : Fat32) (d : Disk) (n i : ℕ) :
    Later d (allocClusLoop fat d n i).2 := by
  induction n generalizing i with
  | zero => exact Logged.refl _ _ _
  | succ n ih =>
      rw [allocClusLoop]
      simp only
      split
      · exact (later_bwrite d _ _).trans (later_zeroClusLoop _ _ _)
      · exact ih (i + 1)

theorem later_allocClus (fat : Fat32) (d : Disk) : Later d (allocClus fat d).2 := by
  refine (later_allocClusLoop fat d fat.fatSz 0).trans ⟨⟨[], rfl, by simp⟩, ⟨[_], rfl, by simp⟩⟩

theorem later_relocForward (fat : Fat32) (alloc : Bool) (n : ℕ) (d : Disk) (entry : Dirent) :
    Later d (relocForward fat alloc n d entry).2.1 := by
  induction n generalizing d entry with
  | zero => exact Logged.refl _ _ _
  | succ n ih =>
      rw [relocForward]
      simp only
      split
      · split
        · exact ((later_allocClus fat d).trans (later_writeFat fat _ _ _)).trans (ih _ _)
        · exact Logged.refl _ _ _
      · exact ih _ _

theorem relocClus_disk {r : ℕ} {entry' : Dirent} {alloc : Bool}
    (h : relocClus fat d entry off alloc = some (r, d', entry')) :
    d' = (relocForward fat alloc (off / fat.bytsPerClus - entry.clusCnt) d entry).2.1 := by
  rw [relocClus] at h
  simp only at h
  split at h
  · exact (Prod.mk.inj (Prod.mk.inj (Option.some.inj h)).2).1.symm
  · split at h
    · obtain ⟨cur, -, h⟩ := Option.map_eq_some_iff.mp h
      exact (Prod.mk.inj (Prod.mk.inj h).2).1.symm
    · exact (Prod.mk.inj (Prod.mk.inj (Option.some.inj h)).2).1.symm

theorem later_relocClus {r : ℕ} {entry' : Dirent} {alloc : Bool}
    (h : relocClus fat d entry off alloc = some (r, d', entry')) : Later d d' := by
  rw [relocClus_disk h]
  exact later_relocForward _ _ _ _ _

theorem later_rwClusWriteLoop (data : Transfer) (n fuel : ℕ) (d : Disk) (sec off tot : ℕ) :
    Later d (rwClusWriteLoop data n fuel d sec off tot).2 := by
  induction fuel generalizing d sec off tot with
  | zero => exact Logged.refl _ _ _
  | succ fuel ih =>
      rw [rwClusWriteLoop]
      simp only
      split
      · split
        · exact (later_bwrite d _ _).trans (ih _ _ _ _)
        · exact Logged.refl _ _ _
      · exact Logged.refl _ _ _

theorem later_rwClusWrite {tot : ℕ} (h : rwClusWrite fat d c data off n = some (tot, d')) :
    Later d d' := by
  rw [rwClusWrite] at h
  split at h
  · contradiction
  · obtain ⟨-, rfl⟩ := Prod.mk.inj (Option.some.inj h)
    exact later_rwClusWriteLoop _ _ _ _ _ _ _

theorem later_ewriteLoop {fuel tot tot' off' : ℕ} {entry' : Dirent}
    (h : ewriteLoop fat data n fuel d entry off tot = some (tot', d', entry', off')) :
    Later d d' := by
  induction fuel generalizing d entry off tot with
  | zero =>
      obtain ⟨-, rfl, -⟩ : tot = tot' ∧ d = d' ∧ _ := by simpa [ewriteLoop] using h
      exact Logged.refl _ _ _
  | succ fuel ih =>
      rw [ewriteLoop] at h
      split at h
      · simp only [Option.bind_eq_bind, Option.bind_eq_some_iff] at h
        obtain ⟨⟨r, d₁, e₁⟩, hreloc, ⟨put, d₂⟩, hwrite, h⟩ := h
        have hlater := (later_relocClus hreloc).trans (later_rwClusWrite hwrite)
        simp only at h
        split at h
        · obtain ⟨-, rfl, -⟩ : tot = tot' ∧ d₂ = d' ∧ _ := by simpa using h
          exact hlater
        · exact hlater.trans (ih h)
      · obtain ⟨-, rfl, -⟩ : tot = tot' ∧ d = d' ∧ _ := by simpa using h
        exact Logged.refl _ _ _

/-! ## The call that finds no free cluster -/

theorem allocClus_strayed (hg : Geometry fat) (hs : SoundFat fat d)
    (hfull : freeClusters fat d = ∅) : Strayed fat d (allocClus fat d).2 := by
  have hlater := later_allocClus fat d
  obtain hall | ⟨p, hp, hzero, hmin⟩ := exists_first_zero fat d
  · -- nothing is found, and 1 comes back
    have hloop := allocClusLoop_none hg hall (Nat.add_zero fat.fatSz)
    refine .inl ⟨1, ?_, fun hdata => by have := hdata.1; omega⟩
    rw [allocClus, hloop, takenSince]
    simp
  · -- the first zero entry is padding
    have hpout : fat.dataClusCnt + 1 < p := by
      by_contra hle
      have hp2 : 2 ≤ p := Nat.le_of_not_lt fun hlt => hs.reserved p hlt hzero
      have hmem : p ∈ freeClusters fat d := mem_freeClusters.mpr ⟨⟨hp2, by omega⟩, hzero⟩
      simp [hfull] at hmem
    have hloop := allocClusLoop_eq hg hp hzero hmin (Nat.add_zero fat.fatSz) (Nat.zero_le p)
    have hmark := entryWrite_bwrite fat d p fat32Feoc
    have hclear : Later (bwrite d (fatSec fat p)
        (store32 (bread d (fatSec fat p)) (4 * (p % 128)) fat32Feoc)) (zeroClus fat _ (p % 2 ^ 32)) :=
      later_zeroClusLoop _ _ _
    generalize hd₁ : bwrite d (fatSec fat p)
      (store32 (bread d (fatSec fat p)) (4 * (p % 128)) fat32Feoc) = d₁ at hmark hclear hloop
    have hw₁ : d₁.written = fatSec fat p :: d.written := by
      rw [← hd₁]
      rfl
    have ht₁ : d₁.taken = d.taken := by
      rw [← hd₁]
      rfl
    obtain ⟨⟨ws, hws, -⟩, ⟨ts, hts, -⟩⟩ := hclear
    rcases Nat.lt_or_ge p (2 ^ 32) with hsmall | hlarge
    · refine .inl ⟨p, ?_, fun hdata => by have := hdata.2; omega⟩
      rw [allocClus, hloop, takenSince, Nat.mod_eq_of_lt hsmall]
      rw [Nat.mod_eq_of_lt hsmall] at hts
      simp only [hts, ht₁]
      rw [← List.cons_append, since_append]
      exact List.mem_cons_self
    · refine .inr ⟨fatSec fat p, ?_, ?_, fatSec_lt hg hp⟩
      · rw [allocClus, hloop, writtenSince]
        simp only [hws, hw₁]
        rw [List.append_cons, since_append]
        simp
      · have hnumbers := hg.numbers
        simp only [fatSec]
        omega

/-- `reloc_clus` that has to append more clusters than are free strays. -/
theorem relocForward_strayed (hg : Geometry fat) {first : ℕ} (n : ℕ) (entry : Dirent) (d : Disk)
    (cs : List ℕ) (hs : SoundFat fat d) (h : FileChain fat d first cs)
    (hcur : cs[entry.clusCnt]? = some entry.curClus)
    (hfull : (freeClusters fat d).card < entry.clusCnt + n + 1 - cs.length) :
    Strayed fat d (relocForward fat true n d entry).2.1 := by
  have hpos := (List.getElem?_eq_some_iff.mp hcur).1
  induction n generalizing d entry cs with
  | zero => omega
  | succ n ih =>
      have hrange := h.range _ (List.mem_of_getElem? hcur)
      rcases Nat.lt_or_ge (entry.clusCnt + 1) cs.length with hlt | hge
      · have hnext := List.getElem?_eq_getElem hlt
        rw [relocForward_next ((h.marked hs).link hg) hcur hnext]
        exact ih { entry with curClus := cs[entry.clusCnt + 1], clusCnt := entry.clusCnt + 1 } d cs
          hs h hnext (by simp only; omega) hlt
      · have hi : entry.clusCnt + 1 = cs.length := by omega
        have heoc := h.last_eoc hcur hi
        have hstep : relocForward fat true (n + 1) d entry =
            relocForward fat true n
              (writeFat fat (allocClus fat d).2 entry.curClus (allocClus fat d).1)
              { entry with curClus := (allocClus fat d).1, clusCnt := entry.clusCnt + 1 } := by
          simp only [relocForward, readFat_eq hg hrange.2, (h.marked hs).isEocSigned_eq (List.mem_of_getElem? hcur), heoc,
            decide_true, if_true]
        rw [hstep]
        by_cases hnone : freeClusters fat d = ∅
        · exact (allocClus_strayed hg hs hnone).later (later_allocClus fat d)
            ((later_writeFat fat _ _ _).trans (later_relocForward _ _ _ _ _))
        · obtain ⟨c, d₁, halloc, ha⟩ :=
            allocClus_of_free hg hs.reserved (Finset.nonempty_iff_ne_empty.mpr hnone)
          have hw := writeFat_write hg hrange.2 (d := d₁) (v := c)
          have hone := ((h.marked hs).append hg hs.reserved hcur hi ha hw).extended hg hs
          have hcard := (hone.fileStep hg h).card_free
          have hcardpos := Finset.card_pos.mpr ⟨c, ha.free⟩
          simp only [List.length_singleton] at hcard
          simp only [halloc]
          refine Strayed.earlier hone.logged.later ?_ (later_relocForward _ _ _ _ _)
          exact ih { entry with curClus := c, clusCnt := entry.clusCnt + 1 } _ _ hone.sound
            hone.chain (by simp [hi]) (by rw [hcard, List.length_append, List.length_singleton]
                                          simp only
                                          omega)
            (by simp [hi])

theorem relocClus_strayed (hg : Geometry fat) (hs : SoundFat fat d)
    (h : FileChain fat d entry.firstClus cs) (hcur : OnChain entry cs)
    (hfull : (freeClusters fat d).card < off / fat.bytsPerClus + 1 - cs.length) {r : ℕ}
    {entry' : Dirent} (hrun : relocClus fat d entry off true = some (r, d', entry')) :
    Strayed fat d d' := by
  have hpos := (List.getElem?_eq_some_iff.mp hcur).1
  rw [relocClus_disk hrun]
  exact relocForward_strayed hg _ entry d cs hs h hcur (by omega)

/-! ## The rounds of `ewrite` -/

theorem rwClusWriteLoop_put (data : Transfer) (n fuel : ℕ) (d : Disk) (sec off tot : ℕ) :
    (rwClusWriteLoop data n fuel d sec off tot).1 = putLoop data n fuel off tot := by
  induction fuel generalizing d sec off tot with
  | zero => rfl
  | succ fuel ih =>
      rw [rwClusWriteLoop, putLoop]
      by_cases hlt : tot < n
      · rw [if_pos hlt, if_pos hlt]
        simp only
        split
        · exact ih _ _ _ _
        · rfl
      · rw [if_neg hlt, if_neg hlt]

theorem rwClusWrite_put {put : ℕ} (h : rwClusWrite fat d c data off n = some (put, d')) :
    put = putLoop data n n (off % fat.bytsPerSec) 0 := by
  rw [rwClusWrite, Option.ite_none_left_eq_some, Option.some.injEq] at h
  rw [← rwClusWriteLoop_put, h.2]

theorem le_ewriteReach (fuel off tot : ℕ) : off ≤ ewriteReach fat data n fuel off tot := by
  induction fuel generalizing off tot with
  | zero => exact le_rfl
  | succ fuel ih =>
      rw [ewriteReach]
      split
      · simp only
        split
        · exact (Nat.le_add_right _ _).trans (ih _ _)
        · exact Nat.le_add_right _ _
      · exact le_rfl

theorem clustersFor_mono {a b : ℕ} (h : a ≤ b) : clustersFor fat a ≤ clustersFor fat b :=
  Nat.div_le_div_right (by omega)

variable (data) in
/-- A round of `ewrite` that finds the clusters that it adds. -/
theorem ewrite_round (hg : Geometry fat) (hs : SoundFat fat d)
    (h : FileChain fat d entry.firstClus cs) (hcur : OnChain entry cs) {m : ℕ} (hm : 0 < m)
    (hin : off % fat.bytsPerClus + m ≤ fat.bytsPerClus)
    (hroom : off / fat.bytsPerClus + 1 - cs.length ≤ (freeClusters fat d).card) :
    ∃ new d₁ c d₂ g, relocClus fat d entry off true =
        some (off % fat.bytsPerClus, d₁, entry.at c (off / fat.bytsPerClus)) ∧
      rwClusWrite fat d₁ c data (off % fat.bytsPerClus) m =
        some (putLoop data m m (off % fat.bytsPerClus % fat.bytsPerSec) 0, d₂) ∧
      (cs ++ new)[off / fat.bytsPerClus]? = some c ∧
      new.length = off / fat.bytsPerClus + 1 - cs.length ∧
      FileStep fat entry.firstClus cs new g d d₂ := by
  obtain ⟨new, d₁, c, hreloc, hc, hlen, hext⟩ := relocClus_alloc hg hs h hcur off hroom
  obtain ⟨put, d₂, hwrite, hput, -, hw⟩ := rwClusWrite_spec hg
    (hext.chain.range _ (List.mem_of_getElem? hc)) d₁ data hm hin
  have hstep := (hext.fileStep hg h).trans (hw.fileStep hg hext.sound hext.chain hc (by omega))
  rw [List.append_nil] at hstep
  rw [rwClusWrite_put hwrite] at hwrite
  exact ⟨new, d₁, c, d₂, _, hreloc, hwrite, hc, hlen, hstep⟩

theorem FileStep.logged {new : List ℕ} {first : ℕ} {g : ℕ → Byte}
    (h : FileStep fat first cs new g d d') : Logged Set.univ (DataClus fat) d d' :=
  h.keeps.logged.mono (Set.subset_univ _) fun c hc => (mem_freeClusters.mp (h.fresh c hc)).1

variable (data) in
/-- `ewrite` that finds the clusters of its rounds takes only clusters of the data region. -/
theorem ewriteLoop_fits (hg : Geometry fat) (fuel : ℕ) (entry : Dirent) (cs : List ℕ)
    (off tot : ℕ) (d : Disk) (hs : SoundFat fat d) (h : FileChain fat d entry.firstClus cs)
    (hcur : OnChain entry cs) (hfuel : n - tot ≤ fuel)
    (hroom : tot < n →
      clustersFor fat (ewriteReach fat data n fuel off tot) - cs.length ≤
        (freeClusters fat d).card) :
    ∃ tot' d' entry' off', ewriteLoop fat data n fuel d entry off tot =
      some (tot', d', entry', off') ∧ Logged Set.univ (DataClus fat) d d' := by
  induction fuel generalizing d entry off tot cs with
  | zero => exact ⟨tot, d, entry, off, rfl, Logged.refl _ _ _⟩
  | succ fuel ih =>
      rcases Nat.lt_or_ge tot n with hlt | hge
      · obtain ⟨hmpos, hmle, hmin⟩ := roundLen_bounds fat.bytsPerClus off (bytsPerClus_pos hg)
          (by omega : 0 < n - tot)
        have hroom := hroom hlt
        rw [ewriteReach, if_pos hlt] at hroom
        simp only at hroom
        generalize hm : roundLen fat.bytsPerClus off (n - tot) = m at hmpos hmle hmin hroom
        have hround := clustersFor_round hg hmpos hmin
        have hunits : off / fat.bytsPerClus + 1 - cs.length ≤ (freeClusters fat d).card := by
          rw [← hround]
          refine le_trans (Nat.sub_le_sub_right (clustersFor_mono ?_) _) hroom
          split
          · exact le_ewriteReach _ _ _
          · exact le_rfl
        obtain ⟨new, d₁, c, d₂, g, hreloc, hwrite, hc, hlen, hstep⟩ :=
          ewrite_round (data.drop tot) hg hs h hcur hmpos hmin hunits
        have hcard := hstep.card_free
        rw [ewriteLoop, if_pos hlt]
        simp only [hreloc, hm, Option.bind_eq_bind, Option.bind_some]
        have hcurClus : (entry.at c (off / fat.bytsPerClus)).curClus = c := rfl
        rw [hcurClus, hwrite]
        simp only [Option.bind_some]
        by_cases hcopied : putLoop (data.drop tot) m m (off % fat.bytsPerClus % fat.bytsPerSec) 0 = m
        · rw [if_pos hcopied] at hroom
          rw [if_neg (not_not.mpr hcopied)]
          obtain ⟨tot', d', entry', off', hrest, hlog⟩ := ih
            (entry.at c (off / fat.bytsPerClus)) (cs ++ new) (off + m) (tot + m) d₂ hstep.sound
            hstep.chain hc (by omega) (fun _ => by rw [hcard, List.length_append]; omega)
          refine ⟨tot', d', entry', off', hrest, hstep.logged.trans hlog⟩
        · rw [if_pos hcopied]
          exact ⟨_, _, _, _, rfl, hstep.logged⟩
      · rw [ewriteLoop, if_neg (by omega)]
        exact ⟨_, _, _, _, rfl, Logged.refl _ _ _⟩

/-- `ewrite` that has to append more clusters than are free strays. -/
theorem ewriteLoop_strayed (hg : Geometry fat) (fuel : ℕ)
    (entry : Dirent) (cs : List ℕ) (off tot : ℕ) (d : Disk) (hs : SoundFat fat d)
    (h : FileChain fat d entry.firstClus cs) (hcur : OnChain entry cs) (hfuel : n - tot ≤ fuel)
    (htot : tot < n)
    (hfull : (freeClusters fat d).card <
      clustersFor fat (ewriteReach fat data n fuel off tot) - cs.length)
    {tot' off' : ℕ} {entry' : Dirent}
    (hrun : ewriteLoop fat data n fuel d entry off tot = some (tot', d', entry', off')) :
    Strayed fat d d' := by
  induction fuel generalizing d entry off tot cs with
  | zero => omega
  | succ fuel ih =>
      have hlater := later_ewriteLoop hrun
      rw [ewriteLoop, if_pos htot] at hrun
      simp only [Option.bind_eq_bind, Option.bind_eq_some_iff] at hrun
      obtain ⟨⟨r, d₁, e₁⟩, hreloc, ⟨put, d₂⟩, hwrite, hrun⟩ := hrun
      have hrest : Later d₂ d' := by
        simp only at hrun
        split at hrun
        · obtain ⟨-, rfl, -⟩ : tot = tot' ∧ d₂ = d' ∧ _ := by simpa using hrun
          exact Logged.refl _ _ _
        · exact later_ewriteLoop hrun
      by_cases hshort : (freeClusters fat d).card < off / fat.bytsPerClus + 1 - cs.length
      · exact (relocClus_strayed hg hs h hcur hshort hreloc).later (later_relocClus hreloc)
          ((later_rwClusWrite hwrite).trans hrest)
      · obtain ⟨hmpos, hmle, hmin⟩ := roundLen_bounds fat.bytsPerClus off (bytsPerClus_pos hg)
          (by omega : 0 < n - tot)
        rw [ewriteReach, if_pos htot] at hfull
        simp only at hfull
        generalize hm : roundLen fat.bytsPerClus off (n - tot) = m
          at hmpos hmle hmin hwrite hrun hfull
        have hround := clustersFor_round hg hmpos hmin
        obtain ⟨new, d₁', c, d₂', g, hreloc', hwrite', hc, hlen, hstep⟩ :=
          ewrite_round (data.drop tot) hg hs h hcur hmpos hmin (by omega)
        obtain ⟨-, rfl, rfl⟩ : _ ∧ d₁ = d₁' ∧ e₁ = entry.at c (off / fat.bytsPerClus) := by
          simpa using hreloc.symm.trans hreloc'
        obtain ⟨rfl, rfl⟩ : put = _ ∧ d₂ = d₂' := by simpa using hwrite.symm.trans hwrite'
        by_cases hcopied : putLoop (data.drop tot) m m (off % fat.bytsPerClus % fat.bytsPerSec) 0 = m
        · have hcard := hstep.card_free
          simp only [hcopied, ne_eq, not_true_eq_false, if_false] at hrun
          rw [if_pos hcopied] at hfull
          have hmore : tot + m < n := by
            by_contra hdone
            have hend : ewriteReach fat data n fuel (off + m) (tot + m) = off + m := by
              cases fuel with
              | zero => rfl
              | succ fuel => rw [ewriteReach, if_neg hdone]
            rw [hend, hround] at hfull
            omega
          refine Strayed.earlier hstep.keeps.logged.later ?_ hrest
          refine ih (entry.at c (off / fat.bytsPerClus)) (cs ++ new) (off + m) (tot + m) d₂
            hstep.sound hstep.chain hc (by omega) hmore ?_ hrun
          rw [hcard, List.length_append]
          omega
        · rw [if_neg hcopied, hround] at hfull
          omega

/-! ## The calls -/

/-- `reloc_clus` with allocation is safe: it appends what is missing up to its offset. -/
def RelocSafe (fat : Fat32) (d : Disk) (entry : Dirent) (cs : List ℕ) (off : ℕ) : Prop :=
  ∃ r d' entry', relocClus fat d entry off true = some (r, d', entry') ∧
    SafeCall fat {c | c ∈ cs} (off / fat.bytsPerClus + 1 - cs.length) (r = minusOne) d d'

theorem relocSafe_iff (hg : Geometry fat) (hs : SoundFat fat d)
    (h : FileChain fat d entry.firstClus cs) (hcur : OnChain entry cs) :
    RelocSafe fat d entry cs off ↔
      off / fat.bytsPerClus + 1 - cs.length ≤ (freeClusters fat d).card := by
  constructor
  · rintro ⟨r, d', entry', hrun, hsafe⟩
    by_contra hfull
    exact (relocClus_strayed hg hs h hcur (by omega) hrun).not_safeCall h.range (by omega) hsafe
  · intro hroom
    obtain ⟨new, d', c, hrun, -, -, hext⟩ := relocClus_alloc hg hs h hcur off hroom
    exact ⟨_, d', _, hrun, hext.logged.safeCall
      (fun x hx => (mem_freeClusters.mp (hext.fresh x hx)).1) hroom⟩

/-- How many clusters a call of `ewrite` adds: none where it refuses. -/
def ewriteAdds (fat : Fat32) (entry : Dirent) (data : Transfer) (len off n : ℕ) : ℕ :=
  if off ≤ entry.fileSize ∧ off + n < 2 ^ 32 ∧ entry.isReadOnly = false then
    max (max len 1) (clustersFor fat (ewriteReach fat data n n off 0)) - len
  else 0

def EwriteSafe (fat : Fat32) (d : Disk) (entry : Dirent) (cs : List ℕ) (data : Transfer)
    (off n : ℕ) : Prop :=
  ∃ code d' entry', ewrite fat d entry data off n = some (code, d', entry') ∧
    SafeCall fat {c | c ∈ cs} (ewriteAdds fat entry data cs.length off n) (code < n) d d'

/-- The first cluster of an empty file, where one is free. -/
theorem ewriteFirst_fits (hg : Geometry fat) (hs : SoundFat fat d) (h : FileOk fat d entry cs)
    (hroom : max cs.length 1 - cs.length ≤ (freeClusters fat d).card) :
    ∃ d₁ e₁ cs₁, ewriteFirst fat d entry = (d₁, e₁) ∧ SoundFat fat d₁ ∧
      FileChain fat d₁ e₁.firstClus cs₁ ∧ OnChain e₁ cs₁ ∧ cs₁.length = max cs.length 1 ∧
      (freeClusters fat d₁).card = (freeClusters fat d).card - (cs₁.length - cs.length) ∧
      Logged Set.univ (DataClus fat) d d₁ := by
  rcases h.chain with ⟨hzero, rfl⟩ | hchain
  · have hpos : 0 < (freeClusters fat d).card := hroom
    obtain ⟨c, d₁, halloc, ha⟩ := allocClus_of_free hg hs.reserved (Finset.card_pos.mp hpos)
    have hstep := ha.fileStep hg hs
    refine ⟨d₁, { entry with firstClus := c, curClus := c, clusCnt := 0, dirty := true }, [c], ?_,
      hstep.sound, hstep.chain, rfl, rfl, hstep.card_free, hstep.logged⟩
    rw [ewriteFirst, if_pos hzero, halloc]
  · have hlen := hchain.length_pos
    have hne : entry.firstClus ≠ 0 := by
      have hrange := (hchain.range _ (hchain.chain.head_mem hchain.nonempty)).1
      omega
    refine ⟨d, entry, cs, ?_, hs, hchain, h.cursor hchain.nonempty, by omega, by simp,
      Logged.refl _ _ _⟩
    rw [ewriteFirst, if_neg hne]

theorem later_ewriteFirst (fat : Fat32) (d : Disk) (entry : Dirent) :
    Later d (ewriteFirst fat d entry).1 := by
  rw [ewriteFirst]
  split
  · exact later_allocClus fat d
  · exact Logged.refl _ _ _

/-- A call that is not refused is the loop behind `ewriteFirst`. -/
theorem ewrite_accepted
    (hacc : off ≤ entry.fileSize ∧ off + n < 2 ^ 32 ∧ entry.isReadOnly = false) {d₁ : Disk}
    {e₁ : Dirent} (hfirst : ewriteFirst fat d entry = (d₁, e₁)) :
    ewrite fat d entry data off n =
      (ewriteLoop fat data n n d₁ e₁ off 0).map fun (tot, d, entry, off) =>
        (tot, d, if n > 0 ∧ off > entry.fileSize then { entry with fileSize := off, dirty := true }
          else entry) := by
  obtain ⟨hoff, hn, hro⟩ := hacc
  rw [ewrite, if_neg (by rw [hro]; simp; omega), hfirst]
  dsimp only
  cases ewriteLoop fat data n n d₁ e₁ off 0 <;> rfl

theorem ewrite_strayed (hg : Geometry fat) (hs : SoundFat fat d) (h : FileOk fat d entry cs)
    (hacc : off ≤ entry.fileSize ∧ off + n < 2 ^ 32 ∧ entry.isReadOnly = false)
    (hfull : (freeClusters fat d).card <
      max (max cs.length 1) (clustersFor fat (ewriteReach fat data n n off 0)) - cs.length)
    {code : ℤ} {entry' : Dirent} (hrun : ewrite fat d entry data off n = some (code, d', entry')) :
    Strayed fat d d' := by
  have hlater := later_ewriteFirst fat d entry
  rcases hfirst : ewriteFirst fat d entry with ⟨d₁, e₁⟩
  rw [hfirst] at hlater
  rw [ewrite_accepted hacc hfirst] at hrun
  obtain ⟨⟨tot, d₂, e₂, off'⟩, hloop, hrun⟩ := Option.map_eq_some_iff.mp hrun
  obtain ⟨-, rfl, -⟩ : _ ∧ d₂ = d' ∧ _ := by simpa using hrun
  by_cases hroom : max cs.length 1 - cs.length ≤ (freeClusters fat d).card
  · obtain ⟨d₁', e₁', cs₁, hfirst', hs₁, hchain, hcur, hlen, hcard, hlog⟩ :=
      ewriteFirst_fits hg hs h hroom
    obtain ⟨rfl, rfl⟩ : d₁ = d₁' ∧ e₁ = e₁' := Prod.mk.inj (hfirst.symm.trans hfirst')
    have hnpos : 0 < n := by
      by_contra hn0
      obtain rfl : n = 0 := by omega
      have hle : clustersFor fat off ≤ cs.length :=
        clustersFor_le hg (hacc.1.trans h.long)
      rw [ewriteReach] at hfull
      omega
    refine Strayed.earlier hlater ?_ (later_ewriteLoop hloop)
    refine ewriteLoop_strayed hg n e₁ cs₁ off 0 d₁ hs₁ hchain hcur (by omega) hnpos ?_ hloop
    omega
  · -- the file is empty, and its first cluster is not to be had
    have hnone : freeClusters fat d = ∅ := Finset.card_eq_zero.mp (by omega)
    obtain ⟨hzero, rfl⟩ : entry.firstClus = 0 ∧ cs = [] := by
      refine h.chain.resolve_right fun hchain => hroom ?_
      have hpos := hchain.length_pos
      omega
    have hd₁ : d₁ = (allocClus fat d).2 := by
      rw [ewriteFirst, if_pos hzero] at hfirst
      exact (Prod.mk.inj hfirst).1.symm
    subst hd₁
    exact (allocClus_strayed hg hs hnone).later hlater (later_ewriteLoop hloop)

theorem FileOk.range (h : FileOk fat d entry cs) (hc : c ∈ cs) : c ∈ DataClus fat :=
  (h.fileChain (List.ne_nil_of_mem hc)).range c hc

theorem ewriteSafe_iff (hg : Geometry fat) (hs : SoundFat fat d) (h : FileOk fat d entry cs) :
    EwriteSafe fat d entry cs data off n ↔
      ewriteAdds fat entry data cs.length off n ≤ (freeClusters fat d).card := by
  constructor
  · rintro ⟨code, d', entry', hrun, hsafe⟩
    rw [ewriteAdds] at hsafe ⊢
    split
    next hacc =>
      rw [if_pos hacc] at hsafe
      by_contra hfull
      exact (ewrite_strayed hg hs h hacc (by omega) hrun).not_safeCall (fun c => h.range)
        (by omega) hsafe
    next => exact Nat.zero_le _
  · intro hroom
    have hadds := hroom
    rw [ewriteAdds] at hadds
    by_cases hacc : off ≤ entry.fileSize ∧ off + n < 2 ^ 32 ∧ entry.isReadOnly = false
    · rw [if_pos hacc] at hadds
      obtain ⟨d₁, e₁, cs₁, hfirst, hs₁, hchain, hcur, hlen, hcard, hlog⟩ :=
        ewriteFirst_fits hg hs h (by omega)
      obtain ⟨tot, d', e, off', hloop, hlog'⟩ := ewriteLoop_fits data (n := n) hg n e₁
        cs₁ off 0 d₁ hs₁ hchain hcur (by omega) (fun _ => by omega)
      have hrun : ewrite fat d entry data off n = _ := ewrite_accepted hacc hfirst
      rw [hloop, Option.map_some] at hrun
      exact ⟨tot, d', _, hrun, (hlog.trans hlog').safeCall (fun _ hc => hc) hroom⟩
    · have hrun : ewrite fat d entry data off n = some (-1, d, entry) := by
        rw [ewrite, if_pos]
        cases hro : entry.isReadOnly
        · have hrange : off > entry.fileSize ∨ off + n > 0xffffffff := by
            by_contra hin
            exact hacc ⟨by omega, by omega, hro⟩
          tauto
        · simp
      exact ⟨-1, d, entry, hrun, (Logged.refl ∅ ∅ d).safeCall (by simp) hroom⟩

end K210Os
