import K210Os.FatChains

/-!
# Reading, writing and truncating the content of a file

The content of a file is read along its chain. `eread` delivers a part of it, `ewrite`
overlays a part of it, and `etrunc` gives the chain back. What lies outside the
file's own clusters is kept.
-/

namespace K210Os

open LinkedChain

/-- The bytes of a file up to its size: byte `k` lies in the cluster that `k / byts_per_clus`
FAT entries lead to. -/
def fileContent (fat : Fat32) (d : Disk) (entry : Dirent) : List Byte :=
  (List.range entry.fileSize).map fun k =>
    clusByte fat d ((fatEntry fat d)^[k / fat.bytsPerClus] entry.firstClus) (k % fat.bytsPerClus)

/-- Byte `k` of a chain, zero behind its end. -/
def chainByte (fat : Fat32) (d : Disk) (cs : List ℕ) (k : ℕ) : Byte :=
  match cs[k / fat.bytsPerClus]? with
  | some c => clusByte fat d c (k % fat.bytsPerClus)
  | none => 0

/-- How many clusters hold `n` bytes. -/
def clustersFor (fat : Fat32) (n : ℕ) : ℕ := (n + fat.bytsPerClus - 1) / fat.bytsPerClus

/-- From `d` to `d'` only the clusters of `own` changed, and only those of `taken` were
allocated. -/
structure Keeps (fat : Fat32) (own taken : Set ℕ) (d d' : Disk) : Prop where
  entry : ∀ k ≤ fat.dataClusCnt + 1, k ∉ own → fatEntry fat d' k = fatEntry fat d k
  byte : ∀ x ∈ DataClus fat, x ∉ own → ∀ k < 512 * fat.secPerClus,
    clusByte fat d' x k = clusByte fat d x k
  logged : Logged (ownSectors fat own) taken d d'

/-- From `d` to `d'` the chain `cs` grew by `new`, and now holds the bytes `g`. -/
structure FileStep (fat : Fat32) (first : ℕ) (cs new : List ℕ) (g : ℕ → Byte) (d d' : Disk) :
    Prop where
  sound : SoundFat fat d'
  chain : FileChain fat d' first (cs ++ new)
  fresh : ∀ c ∈ new, c ∈ freeClusters fat d
  free : freeClusters fat d' = freeClusters fat d \ new.toFinset
  bytes : chainByte fat d' (cs ++ new) = g
  keeps : Keeps fat {c | c ∈ cs ++ new} {c | c ∈ new} d d'

variable {fat : Fat32} {d d' d'' : Disk} {first c i n off tot q a : ℕ} {cs new new' : List ℕ}
  {entry : Dirent} {own own' taken taken' : Set ℕ} {g g' src : ℕ → Byte} {data : Transfer}

theorem Keeps.refl (fat : Fat32) (own taken : Set ℕ) (d : Disk) : Keeps fat own taken d d :=
  ⟨fun _ _ _ => rfl, fun _ _ _ _ _ => rfl, Logged.refl _ _ _⟩

theorem Keeps.trans (h : Keeps fat own taken d d') (k : Keeps fat own taken d' d'') :
    Keeps fat own taken d d'' where
  entry x hx hout := (k.entry x hx hout).trans (h.entry x hx hout)
  byte x hx hout j hj := (k.byte x hx hout j hj).trans (h.byte x hx hout j hj)
  logged := h.logged.trans k.logged

theorem Keeps.mono (h : Keeps fat own taken d d') (hown : own ⊆ own') (htaken : taken ⊆ taken') :
    Keeps fat own' taken' d d' where
  entry x hx hout := h.entry x hx fun hin => hout (hown hin)
  byte x hx hout := h.byte x hx fun hin => hout (hown hin)
  logged := h.logged.mono (ownSectors_mono hown) htaken

theorem Extended.keeps (h : Extended fat first cs new d d') :
    Keeps fat {c | c ∈ cs ++ new} {c | c ∈ new} d d' where
  entry x hx hout := h.entry x hx hout
  byte x hx hout k hk := by
    have hnew : x ∉ new := fun hin => hout (List.mem_append_right _ hin)
    rw [h.byte x hx k hk, if_neg hnew]
  logged := h.logged

theorem ClusWrite.keeps (hg : Geometry fat) (hc : c ∈ DataClus fat)
    (h : ClusWrite fat c a n src d d') (ha : a + n ≤ 512 * fat.secPerClus) :
    Keeps fat {c} ∅ d d' where
  entry k hk _ := h.fatEntry hg (lt_of_le_dataClusCnt hg hk)
  byte x hx hout k hk := by
    rw [h.clusByte hc hx ha hk, if_neg fun hin => hout hin.1]
  logged := h.logged.mono (fun _ hs => ⟨c, rfl, .inr hs⟩) fun _ hx => hx

theorem ClusWrite.sound (hg : Geometry fat) (h : ClusWrite fat c a n src d d')
    (hs : SoundFat fat d) : SoundFat fat d' := by
  have hentries := hg.entries
  refine ⟨fun k hk => ?_, fun k hk => ?_⟩
  · rw [h.fatEntry hg (by omega)]
    exact hs.reserved k hk
  · rw [h.fatEntry hg (lt_of_le_dataClusCnt hg hk)]
    exact hs.entry_lt k hk

theorem ClusWrite.freeClusters (hg : Geometry fat) (h : ClusWrite fat c a n src d d') :
    freeClusters fat d' = freeClusters fat d := by
  ext x
  simp only [mem_freeClusters]
  exact and_congr_right fun hx => by rw [h.fatEntry hg (lt_of_le_dataClusCnt hg hx.2)]

theorem bytsPerClus_pos (hg : Geometry fat) : 0 < fat.bytsPerClus := by
  have hpos := hg.sectors_pos
  rw [hg.cluster]
  omega

/-! ## The bytes of a chain -/

theorem fileContent_eq (hg : Geometry fat) (h : FileChain fat d entry.firstClus cs)
    (hlong : entry.fileSize ≤ cs.length * fat.bytsPerClus) :
    fileContent fat d entry = (List.range entry.fileSize).map (chainByte fat d cs) := by
  refine List.map_congr_left fun k hk => ?_
  have hlt : k / fat.bytsPerClus < cs.length :=
    (Nat.div_lt_iff_lt_mul (bytsPerClus_pos hg)).mpr
      (by simpa using (List.mem_range.mp hk).trans_le hlong)
  rw [chainByte, h.chain.iterate hlt]

/-- A position lies in a part of unit `q` exactly where its quotient and remainder say
so. -/
theorem mem_unit {size : ℕ} (hsize : 0 < size) (ha : a + n ≤ size) (k : ℕ) :
    (size * q + a ≤ k ∧ k < size * q + a + n) ↔
      (k / size = q ∧ a ≤ k % size ∧ k % size < a + n) := by
  have hsplit := Nat.div_add_mod k size
  have hmod := Nat.mod_lt k hsize
  constructor
  · rintro ⟨hlo, hhi⟩
    have hq : k / size = q := by
      rw [Nat.div_eq_iff hsize]
      constructor
      · rw [Nat.mul_comm]
        omega
      · rw [Nat.mul_comm]
        omega
    rw [hq] at hsplit
    omega
  · rintro ⟨rfl, hlo, hhi⟩
    omega

/-- The bytes of a chain inside one of its clusters. -/
theorem chainByte_unit (hg : Geometry fat) (hc : cs[off / fat.bytsPerClus]? = some c)
    (hin : off % fat.bytsPerClus + n ≤ fat.bytsPerClus) {k : ℕ} (hk : k < n) :
    chainByte fat d cs (off + k) = clusByte fat d c (off % fat.bytsPerClus + k) := by
  have hsplit := Nat.div_add_mod off fat.bytsPerClus
  obtain ⟨hdiv, -, -⟩ := (mem_unit (q := off / fat.bytsPerClus) (bytsPerClus_pos hg) hin
    (off + k)).mp (by omega)
  have hmod : (off + k) % fat.bytsPerClus = off % fat.bytsPerClus + k := by
    have := Nat.div_add_mod (off + k) fat.bytsPerClus
    rw [hdiv] at this
    omega
  rw [chainByte, hdiv, hc, hmod]

/-- Writing in cluster number `q` of a chain overlays the bytes of the chain. -/
theorem chainByte_clusWrite (hg : Geometry fat) (h : FileChain fat d first cs)
    (hc : cs[q]? = some c) (hw : ClusWrite fat c a n src d d') (ha : a + n ≤ fat.bytsPerClus) :
    chainByte fat d' cs = copyBytes (chainByte fat d cs) (fat.bytsPerClus * q + a) src n := by
  have hpos := bytsPerClus_pos hg
  have hcrange := h.range _ (List.mem_of_getElem? hc)
  have hqlt := (List.getElem?_eq_some_iff.mp hc).1
  funext k
  have hmem := mem_unit (q := q) hpos ha k
  have hmod := Nat.mod_lt k hpos
  rw [hg.cluster] at ha hmod
  rw [chainByte, copyBytes]
  cases hx : cs[k / fat.bytsPerClus]? with
  | none =>
      have hlen := List.getElem?_eq_none_iff.mp hx
      rw [if_neg fun hin => by have := (hmem.mp hin).1; omega, chainByte, hx]
  | some x =>
      have hxrange := h.range _ (List.mem_of_getElem? hx)
      have heq : x = c ↔ k / fat.bytsPerClus = q := by
        have hxlt := (List.getElem?_eq_some_iff.mp hx).1
        constructor
        · rintro rfl
          exact (List.Nodup.getElem_inj_iff h.chain.nodup).mp (Option.some.inj
            ((List.getElem?_eq_getElem hxlt).symm.trans
              (hx.trans (hc.symm.trans (List.getElem?_eq_getElem hqlt)))))
        · rintro rfl
          exact Option.some.inj (hx.symm.trans hc)
      simp only
      rw [← hg.cluster] at hmod ha
      rw [hw.clusByte hcrange hxrange (by rwa [← hg.cluster]) (by rwa [← hg.cluster])]
      simp only [heq]
      by_cases hin : fat.bytsPerClus * q + a ≤ k ∧ k < fat.bytsPerClus * q + a + n
      · have hsplit := Nat.div_add_mod k fat.bytsPerClus
        obtain ⟨hq, hlo, hhi⟩ := hmem.mp hin
        rw [if_pos ⟨hq, hlo, hhi⟩, if_pos hin]
        rw [hq] at hsplit
        congr 1
        omega
      · rw [if_neg fun h' => hin (hmem.mpr h'), if_neg hin, chainByte, hx]

/-- Appending zeroed clusters leaves the bytes of a chain. -/
theorem chainByte_extended (hg : Geometry fat) (h : FileChain fat d first cs)
    (hext : Extended fat first cs new d d') :
    chainByte fat d' (cs ++ new) = chainByte fat d cs := by
  funext k
  have hmod := Nat.mod_lt k (bytsPerClus_pos hg)
  have hlt : k % fat.bytsPerClus < 512 * fat.secPerClus := by rwa [← hg.cluster]
  simp only [chainByte]
  rcases Nat.lt_or_ge (k / fat.bytsPerClus) cs.length with hin | hout
  · rw [List.getElem?_append_left hin, List.getElem?_eq_getElem hin]
    have hmem := List.getElem_mem hin
    have hnew : cs[k / fat.bytsPerClus] ∉ new := fun hn => h.not_free hmem (hext.fresh _ hn)
    simp only
    rw [hext.byte _ (h.range _ hmem) _ hlt, if_neg hnew]
  · rw [List.getElem?_eq_none hout, List.getElem?_append_right hout]
    cases hx : new[k / fat.bytsPerClus - cs.length]? with
    | none => rfl
    | some x =>
        have hmem := List.mem_of_getElem? hx
        simp only
        rw [hext.byte _ (mem_freeClusters.mp (hext.fresh _ hmem)).1 _ hlt, if_pos hmem]

theorem Extended.fileStep (hg : Geometry fat) (h : FileChain fat d first cs)
    (hext : Extended fat first cs new d d') :
    FileStep fat first cs new (chainByte fat d cs) d d' where
  sound := hext.sound
  chain := hext.chain
  fresh := hext.fresh
  free := hext.free
  bytes := chainByte_extended hg h hext
  keeps := hext.keeps

theorem ClusWrite.fileStep (hg : Geometry fat) (hs : SoundFat fat d)
    (h : FileChain fat d first cs) (hc : cs[q]? = some c) (hw : ClusWrite fat c a n src d d')
    (ha : a + n ≤ fat.bytsPerClus) :
    FileStep fat first cs []
      (copyBytes (chainByte fat d cs) (fat.bytsPerClus * q + a) src n) d d' := by
  have hmem := List.mem_of_getElem? hc
  have ha' : a + n ≤ 512 * fat.secPerClus := by rwa [← hg.cluster]
  refine ⟨hw.sound hg hs, ?_, by simp, ?_, ?_, ?_⟩
  · rw [List.append_nil]
    exact h.congr fun x hx =>
      hw.fatEntry hg (lt_of_le_dataClusCnt hg (h.range x hx).2)
  · simpa using hw.freeClusters hg
  · rw [List.append_nil]
    exact chainByte_clusWrite hg h hc hw ha
  · refine (hw.keeps hg (h.range _ hmem) ha').mono ?_ (Set.empty_subset _)
    rintro x rfl
    simpa using hmem

theorem FileStep.trans (h : FileStep fat first cs new g d d')
    (k : FileStep fat first (cs ++ new) new' g' d' d'') :
    FileStep fat first cs (new ++ new') g' d d'' where
  sound := k.sound
  chain := by simpa using k.chain
  fresh x hx := by
    rcases List.mem_append.mp hx with hx | hx
    · exact h.fresh x hx
    · have hfree := k.fresh x hx
      rw [h.free] at hfree
      exact (Finset.mem_sdiff.mp hfree).1
  free := by
    rw [k.free, h.free]
    ext x
    simp [and_assoc]
  bytes := by simpa using k.bytes
  keeps := by
    refine (h.keeps.mono ?_ ?_).trans (k.keeps.mono ?_ ?_)
    all_goals
      intro x hx
      simp only [Set.mem_ofPred_eq, List.mem_append] at hx ⊢
      tauto

theorem FileStep.card_free (h : FileStep fat first cs new g d d') :
    (freeClusters fat d').card = (freeClusters fat d).card - new.length := by
  have hsub : new.toFinset ⊆ freeClusters fat d := fun x hx =>
    h.fresh x (List.mem_toFinset.mp hx)
  have hnodup : new.Nodup := (List.nodup_append.mp h.chain.chain.nodup).2.1
  rw [h.free, Finset.card_sdiff_of_subset hsub, List.toFinset_card_of_nodup hnodup]

/-! ## Reading -/

variable (data) in
/-- The loop of `eread` delivers `len` bytes of the chain, of which it counts those of the
rounds whose copy did not fail. -/
theorem ereadLoop_eq (hg : Geometry fat) (hs : SoundFat fat d) (fuel : ℕ) (entry : Dirent)
    (off tot : ℕ) (h : FileChain fat d entry.firstClus cs) (hcur : OnChain entry cs)
    (hfuel : n - tot ≤ fuel) (htot : tot ≤ n)
    (hin : off + (n - tot) ≤ cs.length * fat.bytsPerClus) :
    ∃ c q got len, ereadLoop fat data n fuel d entry off tot =
        some (tot + got, (List.range len).map fun k => chainByte fat d cs (off + k), d,
          entry.at c q) ∧ OnChain (entry.at c q) cs ∧
      ((∀ i m, data.ok i m = true) → got = n - tot ∧ len = n - tot) := by
  have hpos := bytsPerClus_pos hg
  have hnumbers := hg.numbers
  induction fuel generalizing entry off tot with
  | zero =>
      obtain rfl : tot = n := by omega
      exact ⟨entry.curClus, entry.clusCnt, 0, 0, by simp [ereadLoop, Dirent.at], hcur,
        fun _ => by simp⟩
  | succ fuel ih =>
      have hcurRange := (h.range _ (List.mem_of_getElem? hcur)).2
      rcases Nat.lt_or_ge tot n with hlt | hge
      · obtain ⟨hmpos, hmle, hmin⟩ :=
          roundLen_bounds fat.bytsPerClus off hpos (by omega : 0 < n - tot)
        generalize hm : roundLen fat.bytsPerClus off (n - tot) = m at hmpos hmle hmin
        have hq : off / fat.bytsPerClus < cs.length :=
          (Nat.div_lt_iff_lt_mul hpos).mpr (by omega)
        have hc := List.getElem?_eq_getElem hq
        have hreloc := relocClus_found hg hs h hcur hc false
        obtain ⟨got, hgot, hall, hread⟩ := rwClusRead_spec hg
          (h.range _ (List.getElem_mem hq)) d (data.drop tot) hmpos hmin
        have hbytes : ((List.range got).map fun k =>
            clusByte fat d cs[off / fat.bytsPerClus] (off % fat.bytsPerClus + k)) =
            (List.range got).map fun k => chainByte fat d cs (off + k) := by
          refine List.map_congr_left fun k hk => ?_
          have hkm : k < m := (List.mem_range.mp hk).trans_le hgot
          exact (chainByte_unit hg hc hmin hkm).symm
        rw [ereadLoop, if_pos ⟨by rw [fat32Eoc]; omega, hlt⟩]
        simp only [hreloc, hm, Option.bind_eq_bind, Option.bind_some]
        simp only [Dirent.at] at hread ⊢
        simp only [hread, Option.bind_some, hbytes]
        by_cases hcopied : got = m
        · subst got
          obtain ⟨x, y, rest, len, hrest, hon, hall'⟩ := ih
            (entry.at cs[off / fat.bytsPerClus] (off / fat.bytsPerClus)) (off + m) (tot + m) h hc
            (by omega) (by omega) (by omega)
          simp only [Dirent.at] at hrest
          refine ⟨x, y, m + rest, m + len, ?_, hon, fun hok => ?_⟩
          · simp only [hrest, ne_eq, not_true_eq_false, if_false, Option.bind_some]
            rw [List.range_add, List.map_append, List.map_map]
            simp only [Function.comp_def, Nat.add_assoc]
            rfl
          · obtain ⟨hgot', hlen'⟩ := hall' hok
            exact ⟨by omega, by omega⟩
        · refine ⟨_, _, 0, got, ?_, hc, fun hok => ?_⟩
          · simp only [ne_eq, hcopied, not_false_eq_true, if_true, Nat.add_zero]
            rfl
          · exact absurd (hall fun i m => hok _ _) hcopied
      · obtain rfl : tot = n := by omega
        refine ⟨entry.curClus, entry.clusCnt, 0, 0, ?_, hcur, fun _ => by simp⟩
        rw [ereadLoop, if_neg (by omega)]
        simp [Dirent.at]

/-! ## Writing -/

theorem clustersFor_le (hg : Geometry fat) {len : ℕ} (h : n ≤ len * fat.bytsPerClus) :
    clustersFor fat n ≤ len := by
  have hpos := bytsPerClus_pos hg
  rw [clustersFor, ← Nat.lt_succ_iff, Nat.div_lt_iff_lt_mul hpos, Nat.succ_mul]
  omega

/-- A round that stays in its cluster ends in it. -/
theorem clustersFor_round (hg : Geometry fat) (hn : 0 < n)
    (hin : off % fat.bytsPerClus + n ≤ fat.bytsPerClus) :
    clustersFor fat (off + n) = off / fat.bytsPerClus + 1 := by
  have hpos := bytsPerClus_pos hg
  have hsplit := Nat.div_add_mod off fat.bytsPerClus
  rw [clustersFor, ← Nat.add_div_right off hpos]
  refine Nat.div_eq_of_lt_le ?_ ?_
  · rw [Nat.add_div_right off hpos, Nat.succ_mul, Nat.mul_comm]
    omega
  · rw [Nat.add_div_right off hpos, Nat.succ_mul, Nat.succ_mul, Nat.mul_comm]
    omega

variable (data) in
/-- The loop of `ewrite` overlays `len` bytes of the chain, of which it counts those of the
rounds whose copy did not fail. -/
theorem ewriteLoop_spec (hg : Geometry fat) (fuel : ℕ) (entry : Dirent) (cs : List ℕ)
    (off tot : ℕ) (hs : SoundFat fat d) (h : FileChain fat d entry.firstClus cs)
    (hcur : OnChain entry cs) (hfuel : n - tot ≤ fuel) (htot : tot ≤ n)
    (hroom : tot < n → clustersFor fat (off + (n - tot)) - cs.length ≤ (freeClusters fat d).card) :
    ∃ new d' c q put len, ewriteLoop fat data n fuel d entry off tot =
        some (tot + put, d', entry.at c q, off + put) ∧ OnChain (entry.at c q) (cs ++ new) ∧
      put ≤ n - tot ∧ (0 < put → off + put ≤ (cs ++ new).length * fat.bytsPerClus) ∧
      ((∀ i m, data.ok i m = true) → put = n - tot ∧ len = n - tot) ∧
      FileStep fat entry.firstClus cs new
        (copyBytes (chainByte fat d cs) off (data.drop tot).byte len) d d' := by
  have hpos := bytsPerClus_pos hg
  induction fuel generalizing d entry off tot cs with
  | zero =>
      obtain rfl : tot = n := by omega
      refine ⟨[], d, entry.curClus, entry.clusCnt, 0, 0, by simp [ewriteLoop, Dirent.at], ?_,
        Nat.zero_le _, fun hput => absurd hput (lt_irrefl 0), fun _ => by simp, ?_⟩
      · rw [List.append_nil]
        exact hcur
      · rw [copyBytes_zero]
        exact (Extended.refl hg hs h).fileStep hg h
  | succ fuel ih =>
      rcases Nat.lt_or_ge tot n with hlt | hge
      · obtain ⟨hmpos, hmle, hmin⟩ := roundLen_bounds fat.bytsPerClus off hpos (by omega : 0 < n - tot)
        have hroom := hroom hlt
        generalize hm : roundLen fat.bytsPerClus off (n - tot) = m at hmpos hmle hmin
        have hround := clustersFor_round hg hmpos hmin
        have hunits : off / fat.bytsPerClus + 1 ≤ clustersFor fat (off + (n - tot)) := by
          rw [← hround]
          exact Nat.div_le_div_right (by omega)
        obtain ⟨new, d₁, c, hreloc, hc, hlen, hext⟩ :=
          relocClus_alloc hg hs h hcur off (by omega)
        have hchain₁ := hext.chain
        obtain ⟨put, d₂, hwrite, hput, hall, hw⟩ := rwClusWrite_spec hg
          (hchain₁.range _ (List.mem_of_getElem? hc)) d₁ (data.drop tot) hmpos hmin
        have hstep := (hext.fileStep hg h).trans
          (hw.fileStep hg hext.sound hchain₁ hc (by omega))
        rw [List.append_nil, chainByte_extended hg h hext, Nat.div_add_mod] at hstep
        by_cases hcopied : put = m
        · subst put
          have hcard := hstep.card_free
          have hmore : clustersFor fat (off + m + (n - (tot + m))) =
              clustersFor fat (off + (n - tot)) := by
            congr 1
            omega
          obtain ⟨new', d', x, y, rest, len, hrest, hon', hput', hlong, hall', hstep'⟩ := ih
            (entry.at c (off / fat.bytsPerClus)) (cs ++ new) (off + m) (tot + m) hstep.sound
            hstep.chain hc (by omega) (by omega)
            (fun _ => by rw [hmore, hcard, List.length_append]; omega)
          refine ⟨new ++ new', d', x, y, m + rest, m + len, ?_, by rw [← List.append_assoc]; exact hon',
            by omega, fun _ => ?_, fun hok => ?_, ?_⟩
          · rw [ewriteLoop, if_pos hlt]
            simp only [hreloc, hm, Option.bind_eq_bind, Option.bind_some]
            simp only [Dirent.at] at hwrite hrest ⊢
            simp only [hwrite, Option.bind_some, ne_eq, not_true_eq_false, if_false, hrest,
              Nat.add_assoc]
          · rw [← List.append_assoc]
            rcases Nat.eq_zero_or_pos rest with rfl | hrestPos
            · have hq := (List.getElem?_eq_some_iff.mp hc).1
              have hmul : (off / fat.bytsPerClus + 1) * fat.bytsPerClus ≤
                  (cs ++ new ++ new').length * fat.bytsPerClus :=
                Nat.mul_le_mul_right _ (by simp only [List.length_append] at hq ⊢; omega)
              have hsplit := Nat.div_add_mod off fat.bytsPerClus
              rw [Nat.succ_mul, Nat.mul_comm] at hmul
              omega
            · have := hlong hrestPos
              omega
          · obtain ⟨hrest', hlen'⟩ := hall' hok
            exact ⟨by omega, by omega⟩
          · rw [hstep.bytes] at hstep'
            have hbytes : copyBytes (copyBytes (chainByte fat d cs) off (data.drop tot).byte m)
                (off + m) (data.drop (tot + m)).byte len =
                copyBytes (chainByte fat d cs) off (data.drop tot).byte (m + len) := by
              funext a
              simp only [copyBytes, Transfer.drop]
              split_ifs <;> first | rfl | omega | (congr 1; omega)
            rw [hbytes] at hstep'
            exact hstep.trans hstep'
        · -- the copy failed inside this round
          refine ⟨new, d₂, c, off / fat.bytsPerClus, 0, put, ?_, hc, Nat.zero_le _,
            fun hput => absurd hput (lt_irrefl 0), fun hok => ?_, ?_⟩
          · rw [ewriteLoop, if_pos hlt]
            simp only [hreloc, hm, Option.bind_eq_bind, Option.bind_some]
            simp only [Dirent.at] at hwrite ⊢
            simp [hwrite, hcopied]
          · exact absurd (hall fun i m => hok _ _) hcopied
          · simpa using hstep
      · obtain rfl : tot = n := by omega
        refine ⟨[], d, entry.curClus, entry.clusCnt, 0, 0, ?_, ?_, Nat.zero_le _,
          fun hput => absurd hput (lt_irrefl 0), fun _ => by simp, ?_⟩
        · rw [ewriteLoop, if_neg hge.not_gt]
          simp [Dirent.at]
        · rw [List.append_nil]
          exact hcur
        · rw [copyBytes_zero]
          exact (Extended.refl hg hs h).fileStep hg h

/-- The clusters of a file: none where the first cluster is 0. -/
def ChainOf (fat : Fat32) (d : Disk) (first : ℕ) (cs : List ℕ) : Prop :=
  first = 0 ∧ cs = [] ∨ FileChain fat d first cs

/-- A file has clusters for its size, and its cached position is on its chain. -/
structure FileOk (fat : Fat32) (d : Disk) (entry : Dirent) (cs : List ℕ) : Prop where
  chain : ChainOf fat d entry.firstClus cs
  long : entry.fileSize ≤ cs.length * fat.bytsPerClus
  size_lt : entry.fileSize < 2 ^ 32
  cursor : cs ≠ [] → OnChain entry cs

theorem FileOk.fileChain (h : FileOk fat d entry cs) (hne : cs ≠ []) :
    FileChain fat d entry.firstClus cs :=
  h.chain.resolve_left fun hnone => hne hnone.2

theorem FileOk.content_eq (hg : Geometry fat) (h : FileOk fat d entry cs) :
    fileContent fat d entry = (List.range entry.fileSize).map (chainByte fat d cs) := by
  rcases h.chain with ⟨-, rfl⟩ | hchain
  · have hlong := h.long
    simp only [List.length_nil, Nat.zero_mul, Nat.le_zero_eq] at hlong
    simp [fileContent, hlong]
  · exact fileContent_eq hg hchain h.long

variable (data) in
/-- `eread` inside the file delivers what is there; it counts all of it where no copy
fails. -/
theorem eread_delivers (hg : Geometry fat) (hs : SoundFat fat d) (h : FileOk fat d entry cs)
    (hdir : entry.isDirectory = false) (hoff : off ≤ entry.fileSize) (hn : off + n < 2 ^ 32) :
    ∃ c q got len, eread fat d entry data off n =
        some (got, (List.range len).map fun k => chainByte fat d cs (off + k), d,
          entry.at c q) ∧ FileOk fat d (entry.at c q) cs ∧
      ((∀ i m, data.ok i m = true) →
        got = min n (entry.fileSize - off) ∧ len = min n (entry.fileSize - off)) := by
  have hcut : (if off + n > entry.fileSize then entry.fileSize - off else n) =
      min n (entry.fileSize - off) := by
    split <;> omega
  have hrun : eread fat d entry data off n =
      ereadLoop fat data (min n (entry.fileSize - off)) (min n (entry.fileSize - off)) d entry
        off 0 := by
    rw [eread, if_neg (by rw [hdir]; simp; omega)]
    simp only [hcut]
  rw [hrun]
  have hlong := h.long
  by_cases hne : cs = []
  · subst cs
    simp only [List.length_nil, Nat.zero_mul, Nat.le_zero_eq] at hlong
    have hnone : min n (entry.fileSize - off) = 0 := by omega
    rw [hnone]
    exact ⟨entry.curClus, entry.clusCnt, 0, 0, rfl, h, fun _ => ⟨rfl, rfl⟩⟩
  · obtain ⟨c, q, got, len, hloop, hon, hall⟩ := ereadLoop_eq data
      (n := min n (entry.fileSize - off)) hg hs (min n (entry.fileSize - off)) entry off 0
      (h.fileChain hne) (h.cursor hne) (Nat.sub_le _ _) (Nat.zero_le _) (by omega)
    rw [Nat.zero_add] at hloop
    exact ⟨c, q, got, len, hloop, ⟨h.chain, h.long, h.size_lt, fun _ => hon⟩, hall⟩

theorem eread_spec (hg : Geometry fat) (hs : SoundFat fat d) (h : FileOk fat d entry cs)
    (hok : ∀ i m, data.ok i m = true) (hdir : entry.isDirectory = false)
    (hoff : off ≤ entry.fileSize) (hn : off + n < 2 ^ 32) :
    ∃ c q, eread fat d entry data off n =
        some (min n (entry.fileSize - off),
          (List.range (min n (entry.fileSize - off))).map fun k => chainByte fat d cs (off + k),
          d, entry.at c q) ∧ FileOk fat d (entry.at c q) cs := by
  obtain ⟨c, q, got, len, hrun, hfile, hall⟩ :=
    eread_delivers data hg hs h hdir hoff hn
  obtain ⟨rfl, rfl⟩ := hall hok
  exact ⟨c, q, hrun, hfile⟩

/-- How many clusters `ewrite` appends to a file of `len` clusters. -/
def ewriteNeed (fat : Fat32) (len off n : ℕ) : ℕ :=
  max (max len 1) (clustersFor fat (off + n)) - len

/-- The first cluster of a file makes a chain of its own. -/
theorem Allocated.fileStep (hg : Geometry fat) (hs : SoundFat fat d) (ha : Allocated fat c d d') :
    FileStep fat c [] [c] (chainByte fat d []) d d' := by
  have hc := (mem_freeClusters.mp ha.free).1
  have hnumbers := hg.numbers
  refine ⟨ha.sound hg hs, ⟨?_, by simp, by simpa using hc⟩, by simpa using ha.free, ?_, ?_,
    ⟨?_, ?_, ?_⟩⟩
  · refine .cons ?_ (.stop ?_)
    · have := hc.2
      rw [fat32Eoc]
      omega
    · rw [ha.entry c (lt_of_le_dataClusCnt hg hc.2), if_pos rfl]
      decide
  · rw [ha.freeClusters hg]
    ext x
    simp [and_comm]
  · funext k
    have hmod := Nat.mod_lt k (bytsPerClus_pos hg)
    rw [chainByte, chainByte, List.nil_append, List.getElem?_nil]
    cases hx : [c][k / fat.bytsPerClus]? with
    | none => rfl
    | some x =>
        obtain rfl : x = c := by simpa using List.mem_of_getElem? hx
        simp only
        rw [ha.byte x hc _ (by rwa [← hg.cluster]), if_pos rfl]
  · intro k hk hout
    rw [ha.entry k (lt_of_le_dataClusCnt hg hk), if_neg (by simpa using hout)]
  · intro x hx hout k hk
    rw [ha.byte x hx k hk, if_neg (by simpa using hout)]
  · simpa using ha.logged

/-- The end of `ewrite`: the new size of the file. -/
def ewriteSize (n off : ℕ) (entry : Dirent) : Dirent :=
  if n > 0 ∧ off > entry.fileSize then { entry with fileSize := off, dirty := true } else entry

theorem ewriteSize_fileSize (e : Dirent) {put : ℕ} (hput : put ≤ n) (hoff : off ≤ e.fileSize) :
    (ewriteSize n (off + put) e).fileSize = max e.fileSize (off + put) := by
  rw [ewriteSize]
  split
  · simp only
    omega
  · omega

theorem ewriteSize_same (n off : ℕ) (entry : Dirent) :
    (ewriteSize n off entry).firstClus = entry.firstClus ∧
      (ewriteSize n off entry).curClus = entry.curClus ∧
      (ewriteSize n off entry).clusCnt = entry.clusCnt ∧
      (ewriteSize n off entry).attr = entry.attr := by
  rw [ewriteSize]
  split <;> exact ⟨rfl, rfl, rfl, rfl⟩

variable (data) in
/-- Behind the setting of the first cluster. -/
theorem ewrite_grows_aux {d₁ : Disk} {entry₁ : Dirent} (hg : Geometry fat)
    (hfirst : ewriteFirst fat d entry = (d₁, entry₁)) (hs : SoundFat fat d₁)
    (h : FileOk fat d₁ entry₁ cs) (hne : cs ≠ []) (hro : entry.isReadOnly = false)
    (hsize : entry₁.fileSize = entry.fileSize) (hoff : off ≤ entry.fileSize)
    (hn : off + n < 2 ^ 32)
    (hroom : clustersFor fat (off + n) - cs.length ≤ (freeClusters fat d₁).card) :
    ∃ (new : List ℕ) (d' : Disk) (e : Dirent) (put len : ℕ),
      ewrite fat d entry data off n = some ((put : ℤ), d', e) ∧ FileOk fat d' e (cs ++ new) ∧
      ((∀ i m, data.ok i m = true) → put = n ∧ len = n) ∧
      e.fileSize = max entry.fileSize (off + put) ∧ e.attr = entry₁.attr ∧
      e.firstClus = entry₁.firstClus ∧
      FileStep fat e.firstClus cs new (copyBytes (chainByte fat d₁ cs) off data.byte len) d₁ d' := by
  have hlong := h.long
  have hsize_lt := h.size_lt
  obtain ⟨new, d', c, q, put, len, hloop, hon, hput, hin, hall, hstep⟩ :=
    ewriteLoop_spec data (n := n) hg n entry₁ cs off 0 hs (h.fileChain hne)
      (h.cursor hne) (Nat.sub_le n 0) (Nat.zero_le _) (fun _ => hroom)
  rw [show (data.drop 0).byte = data.byte from funext fun k => by simp [Transfer.drop]] at hstep
  rw [Nat.zero_add] at hloop
  obtain ⟨hfst, hcc, hcnt, hat⟩ := ewriteSize_same n (off + put) (entry₁.at c q)
  have hfs : (ewriteSize n (off + put) (entry₁.at c q)).fileSize =
      max entry.fileSize (off + put) :=
    (ewriteSize_fileSize (entry₁.at c q) hput (hsize ▸ hoff)).trans
      (congrArg (max · (off + put)) hsize)
  have hbytes : max entry.fileSize (off + put) ≤ (cs ++ new).length * fat.bytsPerClus := by
    have hmono : cs.length * fat.bytsPerClus ≤ (cs ++ new).length * fat.bytsPerClus :=
      Nat.mul_le_mul_right _ (by rw [List.length_append]; omega)
    rcases Nat.eq_zero_or_pos put with rfl | hpos
    · omega
    · have := hin hpos
      omega
  refine ⟨new, d', ewriteSize n (off + put) (entry₁.at c q), put, len, ?_,
    ⟨.inr ?_, ?_, ?_, fun _ => ?_⟩, fun hok => ?_, hfs, hat, hfst, ?_⟩
  · rw [ewrite, if_neg (by rw [hro]; simp; omega)]
    simp only [hfirst, hloop, Option.bind_eq_bind, Option.bind_some]
    rfl
  · rw [hfst]
    exact hstep.chain
  · rwa [hfs]
  · rw [hfs]
    omega
  · rw [OnChain, hcc, hcnt]
    exact hon
  · exact hall hok
  · rw [hfst]
    exact hstep

variable (data) in
/-- `ewrite` of an accepted part of a file overlays `len` bytes and counts `put` of them; it
counts all where no copy fails. -/
theorem ewrite_grows (hg : Geometry fat) (hs : SoundFat fat d) (h : FileOk fat d entry cs)
    (hro : entry.isReadOnly = false) (hoff : off ≤ entry.fileSize) (hn : off + n < 2 ^ 32)
    (hroom : ewriteNeed fat cs.length off n ≤ (freeClusters fat d).card) :
    ∃ (new : List ℕ) (d' : Disk) (e : Dirent) (put len : ℕ),
      ewrite fat d entry data off n = some ((put : ℤ), d', e) ∧ FileOk fat d' e (cs ++ new) ∧
      ((∀ i m, data.ok i m = true) → put = n ∧ len = n) ∧
      e.fileSize = max entry.fileSize (off + put) ∧ e.attr = entry.attr ∧
      FileStep fat e.firstClus cs new (copyBytes (chainByte fat d cs) off data.byte len) d d' := by
  rw [ewriteNeed] at hroom
  rcases h.chain with ⟨hzero, rfl⟩ | hchain
  · -- an empty file gets its first cluster
    have hpos : 0 < (freeClusters fat d).card := by
      simp only [List.length_nil] at hroom
      omega
    obtain ⟨c, d₁, halloc, ha⟩ := allocClus_of_free hg hs.reserved (Finset.card_pos.mp hpos)
    have hfirst : ewriteFirst fat d entry =
        (d₁, { entry with firstClus := c, curClus := c, clusCnt := 0, dirty := true }) := by
      simp [ewriteFirst, hzero, halloc]
    have hstep := ha.fileStep hg hs
    have hlong := h.long
    simp only [List.length_nil, Nat.zero_mul, Nat.le_zero_eq] at hlong
    have hfile : FileOk fat d₁
        { entry with firstClus := c, curClus := c, clusCnt := 0, dirty := true } [c] :=
      ⟨.inr hstep.chain, by simp [hlong], h.size_lt, fun _ => rfl⟩
    have hcard := hstep.card_free
    obtain ⟨new, d', e, put, len, hrun, hok', hall, hfs, hat, hfst, hstep'⟩ :=
      ewrite_grows_aux data hg hfirst hstep.sound hfile (by simp) hro rfl hoff hn (by
        simp only [List.length_nil, List.length_singleton] at hroom hcard ⊢
        omega)
    have hfirst' : e.firstClus = c := hfst
    rw [hfirst'] at hstep'
    have hboth := hstep.trans hstep'
    rw [show chainByte fat d₁ [c] = chainByte fat d [] from hstep.bytes] at hboth
    refine ⟨c :: new, d', e, put, len, hrun, hok', hall, hfs, hat, ?_⟩
    rw [hfirst']
    exact hboth
  · have hrange := hchain.range _ (hchain.chain.head_mem hchain.nonempty)
    have hfirst : ewriteFirst fat d entry = (d, entry) := by
      have hne : entry.firstClus ≠ 0 := by
        have := hrange.1
        omega
      simp [ewriteFirst, hne]
    obtain ⟨new, d', e, put, len, hrun, hok', hall, hfs, hat, hfst, hstep⟩ :=
      ewrite_grows_aux data hg hfirst hs h hchain.nonempty hro rfl hoff hn (by
        have hlen := hchain.length_pos
        omega)
    exact ⟨new, d', e, put, len, hrun, hok', hall, hfs, hat, hstep⟩

/-- The loop of `etrunc` over a chain clears its entries. -/
theorem etruncLoop_eq (hg : Geometry fat) (fuel : ℕ)
    (h : Chain (fatEntry fat d) (fat32Eoc ≤ ·) a cs) (hrange : ∀ c ∈ cs, c ∈ DataClus fat)
    (hfuel : cs.length < fuel) :
    ∃ d', etruncLoop fat fuel d a = some d' ∧
      (∀ k ≤ fat.dataClusCnt + 1, fatEntry fat d' k = if k ∈ cs then 0 else fatEntry fat d k) ∧
      (∀ x k, clusByte fat d' x k = clusByte fat d x k) ∧
      Logged (ownSectors fat {c | c ∈ cs}) ∅ d d' := by
  induction cs generalizing d a fuel with
  | nil =>
      cases h with
      | stop hstop =>
          obtain ⟨fuel, rfl⟩ := Nat.exists_eq_add_one_of_ne_zero (by omega : fuel ≠ 0)
          exact ⟨d, by rw [etruncLoop, if_neg (by omega)], by simp, fun _ _ => rfl,
            Logged.refl _ _ _⟩
  | cons x cs ih =>
      have hnodup := h.nodup
      cases h with
      | cons hn h =>
          obtain ⟨fuel, rfl⟩ := Nat.exists_eq_add_one_of_ne_zero (by omega : fuel ≠ 0)
          have hx := hrange x List.mem_cons_self
          have hlt := lt_of_le_dataClusCnt hg hx.2
          have hnotin := (List.nodup_cons.mp hnodup).1
          have hw : EntryWrite fat x 0 d (freeClus fat d x) := writeFat_write hg hx.2
          have hrest : Chain (fatEntry fat (freeClus fat d x)) (fat32Eoc ≤ ·)
              (fatEntry fat d x) cs := by
            refine h.congr fun c hc => ?_
            rw [hw.fatEntry (by omega), if_neg fun heq : c = x => hnotin (heq ▸ hc)]
          obtain ⟨d', hrun, hentry, hbyte, hlog⟩ := ih fuel hrest
            (fun c hc => hrange c (List.mem_cons_of_mem _ hc)) (by simpa using hfuel)
          refine ⟨d', ?_, fun k hk => ?_, fun y k => ?_, ?_⟩
          · rw [etruncLoop, if_pos ⟨hx.1, Nat.lt_of_not_le hn⟩]
            simp only [readFat_eq hg hx.2, hrun]
          · rw [hentry k hk, hw.fatEntry (by omega)]
            by_cases hka : k = x <;> by_cases hkc : k ∈ cs <;> simp [hka, hkc]
          · rw [hbyte, hw.clusByte hg hlt]
          · refine (hw.logged.mono ?_ fun _ h => h).trans (hlog.mono (ownSectors_mono ?_) fun _ h => h)
            · rintro s rfl
              exact ⟨x, List.mem_cons_self, .inl rfl⟩
            · exact fun c hc => List.mem_cons_of_mem _ hc

theorem FileChain.length_le (h : FileChain fat d first cs) : cs.length ≤ fat.dataClusCnt := by
  have hsub : cs.toFinset ⊆ Finset.Icc 2 (fat.dataClusCnt + 1) := fun c hc =>
    Finset.mem_Icc.mpr (h.range c (List.mem_toFinset.mp hc))
  have hcard := Finset.card_le_card hsub
  rw [List.toFinset_card_of_nodup h.chain.nodup, Nat.card_Icc] at hcard
  omega

/-- `etrunc` of a file gives all its clusters back. -/
theorem etrunc_spec (hg : Geometry fat) (hs : SoundFat fat d) (h : FileOk fat d entry cs) :
    ∃ d', etrunc fat d entry =
        some (d', { entry with fileSize := 0, firstClus := 0, dirty := true }) ∧
      SoundFat fat d' ∧ Keeps fat {c | c ∈ cs} ∅ d d' ∧
      ∀ c ∈ cs, c ∈ freeClusters fat d' := by
  rcases h.chain with ⟨hzero, rfl⟩ | hchain
  · refine ⟨d, ?_, hs, Keeps.refl _ _ _ _, by simp⟩
    rw [etrunc, hzero, etruncLoop, if_neg (by omega)]
    rfl
  · have hlen := hchain.length_le
    obtain ⟨d', hrun, hentry, hbyte, hlog⟩ :=
      etruncLoop_eq hg (fat.dataClusCnt + 3) hchain.chain hchain.range (by omega)
    refine ⟨d', ?_, ⟨fun k hk => ?_, fun k hk => ?_⟩, ⟨fun k hk hout => ?_, fun x _ _ k _ => hbyte x k,
      hlog⟩, fun c hc => ?_⟩
    · rw [etrunc, hrun]
      rfl
    · have hout : k ∉ cs := fun hin => by have := (hchain.range k hin).1; omega
      have hle : k ≤ fat.dataClusCnt + 1 := by
        have := (hchain.range _ (hchain.chain.head_mem hchain.nonempty)).2
        have := (hchain.range _ (hchain.chain.head_mem hchain.nonempty)).1
        omega
      rw [hentry k hle, if_neg hout]
      exact hs.reserved k hk
    · rw [hentry k hk]
      split
      · decide
      · exact hs.entry_lt k hk
    · exact (hentry k hk).trans (if_neg hout)
    · have hc' := hchain.range c hc
      rw [mem_freeClusters, hentry c hc'.2, if_pos hc]
      exact ⟨hc', rfl⟩

end K210Os
