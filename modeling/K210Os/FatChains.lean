import K210Os.FatAlloc
import K210Os.LinkedChain

/-!
# Cluster chains and `reloc_clus`

The chain of a file is what the FAT entries lead to from its first cluster on.
`reloc_clus` moves the cached position of an entry along its chain; where the chain
ends and it may allocate, it appends zeroed clusters to the chain.
-/

namespace K210Os

open LinkedChain

/-- `cs` are the clusters of the chain that begins at `first`. -/
structure FileChain (fat : Fat32) (d : Disk) (first : ℕ) (cs : List ℕ) : Prop where
  chain : Chain (fatEntry fat d) (fat32Eoc ≤ ·) first cs
  nonempty : cs ≠ []
  range : ∀ c ∈ cs, c ∈ DataClus fat

/-- A chain that ends in a mark of 28 bits, on a FAT with nothing assumed of the others. -/
structure MarkedChain (fat : Fat32) (d : Disk) (first : ℕ) (cs : List ℕ) : Prop where
  file : FileChain fat d first cs
  mark : ∀ c ∈ cs, fatEntry fat d c ≤ fat32Feoc

/-- `cs` are the clusters that `reloc_clus` meets from `first` on, in range or not: the
links lead through them to a value that its signed comparison takes for a mark. -/
structure LinkChain (fat : Fat32) (d : Disk) (first : ℕ) (cs : List ℕ) : Prop where
  chain : Chain (readFat fat d) (fun c => isEocSigned c = true) first cs
  nonempty : cs ≠ []

/-- From `d` to `d'` the free clusters `new` were appended, zeroed, to a marked chain, and
no other entry of the FAT changed. -/
structure Appended (fat : Fat32) (first : ℕ) (cs new : List ℕ) (d d' : Disk) : Prop where
  reserved : ∀ k < 2, fatEntry fat d' k ≠ 0
  chain : MarkedChain fat d' first (cs ++ new)
  fresh : ∀ c ∈ new, c ∈ freeClusters fat d
  entry : ∀ k < 128 * fat.fatSz, k ∉ cs ++ new → fatEntry fat d' k = fatEntry fat d k
  byte : ∀ x ∈ DataClus fat, ∀ k < 512 * fat.secPerClus,
    clusByte fat d' x k = if x ∈ new then 0 else clusByte fat d x k
  free : freeClusters fat d' = freeClusters fat d \ new.toFinset
  logged : Logged (ownSectors fat {c | c ∈ cs ++ new}) {c | c ∈ new} d d'

/-- From `d` to `d'` the free clusters `new` were appended, zeroed, to the chain `cs`. -/
structure Extended (fat : Fat32) (first : ℕ) (cs new : List ℕ) (d d' : Disk) : Prop where
  sound : SoundFat fat d'
  chain : FileChain fat d' first (cs ++ new)
  fresh : ∀ c ∈ new, c ∈ freeClusters fat d
  entry : ∀ k ≤ fat.dataClusCnt + 1, k ∉ cs ++ new → fatEntry fat d' k = fatEntry fat d k
  byte : ∀ x ∈ DataClus fat, ∀ k < 512 * fat.secPerClus,
    clusByte fat d' x k = if x ∈ new then 0 else clusByte fat d x k
  free : freeClusters fat d' = freeClusters fat d \ new.toFinset
  logged : Logged (ownSectors fat {c | c ∈ cs ++ new}) {c | c ∈ new} d d'

variable {fat : Fat32} {d d' d'' : Disk} {first c cur i n off : ℕ} {cs new new' : List ℕ}
  {entry : Dirent}

theorem FileChain.next_eq (h : FileChain fat d first cs) (hcur : cs[i]? = some cur)
    (hc : cs[i + 1]? = some c) : fatEntry fat d cur = c :=
  h.chain.next_getElem hcur hc

theorem FileChain.last_eoc (h : FileChain fat d first cs) (hcur : cs[i]? = some cur)
    (hi : i + 1 = cs.length) : fat32Eoc ≤ fatEntry fat d cur :=
  h.chain.stop_last hcur hi

theorem FileChain.head_eq (h : FileChain fat d first cs) : cs[0]? = some first := by
  obtain ⟨hchain, hne, -⟩ := h
  cases hchain with
  | stop => exact absurd rfl hne
  | cons => rfl

theorem FileChain.length_pos (h : FileChain fat d first cs) : 0 < cs.length :=
  List.length_pos_iff.mpr h.nonempty

/-- A cluster of a chain is in use. -/
theorem FileChain.not_free (h : FileChain fat d first cs) (hc : c ∈ cs) :
    c ∉ freeClusters fat d := by
  intro hfree
  have hzero := (mem_freeClusters.mp hfree).2
  obtain ⟨i, hi⟩ := List.mem_iff_getElem?.mp hc
  have hlt := (List.getElem?_eq_some_iff.mp hi).1
  rcases Nat.lt_or_ge (i + 1) cs.length with hmore | hlast
  · have hnext := List.getElem?_eq_getElem hmore
    have heq := h.next_eq hi hnext
    have hrange := (h.range _ (List.mem_of_getElem? hnext)).1
    omega
  · have heoc := h.last_eoc hi (by omega)
    rw [hzero] at heoc
    exact absurd heoc (by decide)

theorem FileChain.congr (h : FileChain fat d first cs)
    (hentry : ∀ c ∈ cs, fatEntry fat d' c = fatEntry fat d c) : FileChain fat d' first cs :=
  ⟨h.chain.congr hentry, h.nonempty, h.range⟩

theorem FileChain.marked (hs : SoundFat fat d) (h : FileChain fat d first cs) :
    MarkedChain fat d first cs :=
  ⟨h, fun c hc => by
    have := hs.entry_lt c (h.range c hc).2
    rw [fat32Feoc]
    omega⟩

theorem Appended.refl (hreserved : ∀ k < 2, fatEntry fat d k ≠ 0)
    (h : MarkedChain fat d first cs) : Appended fat first cs [] d d where
  reserved := hreserved
  chain := by simpa using h
  fresh := by simp
  entry _ _ _ := rfl
  byte _ _ _ _ := by simp
  free := by simp
  logged := Logged.refl _ _ _

theorem Appended.trans (h : Appended fat first cs new d d')
    (k : Appended fat first (cs ++ new) new' d' d'') :
    Appended fat first cs (new ++ new') d d'' where
  reserved := k.reserved
  chain := by simpa using k.chain
  fresh c hc := by
    rcases List.mem_append.mp hc with hc | hc
    · exact h.fresh c hc
    · have hfree := k.fresh c hc
      rw [h.free] at hfree
      exact (Finset.mem_sdiff.mp hfree).1
  entry x hx hout := by
    simp only [List.mem_append, not_or] at hout
    rw [k.entry x hx (by simp [hout]), h.entry x hx (by simp [hout])]
  byte x hx j hj := by
    rw [k.byte x hx j hj, h.byte x hx j hj]
    by_cases hn : x ∈ new <;> by_cases hn' : x ∈ new' <;> simp [hn, hn']
  free := by
    rw [k.free, h.free]
    ext x
    simp [and_assoc]
  logged := by
    refine (h.logged.mono (ownSectors_mono ?_) ?_).trans (k.logged.mono (ownSectors_mono ?_) ?_)
    all_goals
      intro x hx
      simp only [Set.mem_ofPred_eq, List.mem_append] at hx ⊢
      tauto

/-- On a sound FAT, appending keeps it sound. -/
theorem Appended.extended (hg : Geometry fat) (hs : SoundFat fat d)
    (h : Appended fat first cs new d d') : Extended fat first cs new d d' where
  sound := by
    refine ⟨h.reserved, fun k hk => ?_⟩
    by_cases hin : k ∈ cs ++ new
    · have := h.chain.mark k hin
      rw [fat32Feoc] at this
      omega
    · rw [h.entry k (lt_of_le_dataClusCnt hg hk) hin]
      exact hs.entry_lt k hk
  chain := h.chain.file
  fresh := h.fresh
  entry k hk := h.entry k (lt_of_le_dataClusCnt hg hk)
  byte := h.byte
  free := h.free
  logged := h.logged

theorem Extended.refl (hg : Geometry fat) (hs : SoundFat fat d) (h : FileChain fat d first cs) :
    Extended fat first cs [] d d :=
  (Appended.refl hs.reserved (h.marked hs)).extended hg hs

/-- Linking a newly allocated cluster to the last cluster of a chain. -/
theorem MarkedChain.append (hg : Geometry fat) (hreserved : ∀ k < 2, fatEntry fat d k ≠ 0)
    (hm : MarkedChain fat d first cs) (hcur : cs[i]? = some cur) (hi : i + 1 = cs.length)
    (ha : Allocated fat c d d') (hw : EntryWrite fat cur c d' d'') :
    Appended fat first cs [c] d d'' := by
  have h := hm.file
  have hc := (mem_freeClusters.mp ha.free).1
  have hcurRange := h.range _ (List.mem_of_getElem? hcur)
  have hnumbers := hg.numbers
  have hcmem : c ∉ cs := fun hmem => h.not_free hmem ha.free
  have hclt : c < 2 ^ 28 := by have := hc.2; omega
  have hlt : ∀ k ≤ fat.dataClusCnt + 1, k < 128 * fat.fatSz := fun k => lt_of_le_dataClusCnt hg
  have hentry : ∀ k < 128 * fat.fatSz, fatEntry fat d'' k =
      if k = cur then c else if k = c then fat32Feoc else fatEntry fat d k := fun k hk => by
    rw [hw.fatEntry (by omega), ha.entry k hk]
  have hne : cur ≠ c := by
    rintro rfl
    exact hcmem (List.mem_of_getElem? hcur)
  have hchain : FileChain fat d'' first (cs ++ [c]) := by
    refine ⟨?_, by simp, fun x hx => ?_⟩
    · refine h.chain.snoc hcur hi ?_ ?_ ?_ fun x hx hxne => ?_
      · have := hc.2
        rw [fat32Eoc]
        omega
      · rw [hentry cur (hlt _ hcurRange.2), if_pos rfl]
      · rw [hentry c (hlt _ hc.2), if_neg hne.symm, if_pos rfl]
        decide
      · rw [hentry x (hlt _ (h.range x hx).2), if_neg hxne,
          if_neg fun heq : x = c => hcmem (heq ▸ hx)]
    · rcases List.mem_append.mp hx with hx | hx
      · exact h.range x hx
      · rwa [List.mem_singleton.mp hx]
  constructor
  case reserved =>
    intro k hk
    have := hcurRange.1
    have := hc.1
    have := hc.2
    rw [hentry k (hlt k (by omega)), if_neg (by omega), if_neg (by omega)]
    exact hreserved k hk
  case chain =>
    refine ⟨hchain, fun x hx => ?_⟩
    rw [hentry x (hlt x (hchain.range x hx).2)]
    split_ifs with hxcur hxc
    · rw [fat32Feoc]
      omega
    · exact le_rfl
    · rcases List.mem_append.mp hx with hx | hx
      · exact hm.mark x hx
      · exact absurd (List.mem_singleton.mp hx) hxc
  case fresh =>
    intro x hx
    rw [List.mem_singleton.mp hx]
    exact ha.free
  case entry =>
    intro k hk hout
    simp only [List.mem_append, List.mem_singleton, not_or] at hout
    have hkcur : k ≠ cur := fun heq => hout.1 (heq ▸ List.mem_of_getElem? hcur)
    rw [hentry k hk, if_neg hkcur, if_neg hout.2]
  case byte =>
    intro x hx k hk
    rw [hw.clusByte hg (hlt _ hcurRange.2), ha.byte x hx k hk]
    simp
  case free =>
    ext x
    simp only [Finset.mem_sdiff, mem_freeClusters, List.mem_toFinset, List.mem_singleton]
    constructor
    · rintro ⟨hx, hzero⟩
      rw [hentry x (hlt x hx.2)] at hzero
      have := hc.1
      split_ifs at hzero with h₁ h₂
      · omega
      · exact absurd hzero (by decide)
      · exact ⟨⟨hx, hzero⟩, h₂⟩
    · rintro ⟨⟨hx, hzero⟩, hxc⟩
      have hxcur : x ≠ cur := by
        rintro rfl
        exact h.not_free (List.mem_of_getElem? hcur) (mem_freeClusters.mpr ⟨hx, hzero⟩)
      refine ⟨hx, ?_⟩
      rw [hentry x (hlt x hx.2), if_neg hxcur, if_neg hxc, hzero]
  case logged =>
    refine (ha.logged.mono (ownSectors_mono ?_) ?_).trans (hw.logged.mono ?_ ?_)
    · rintro x rfl
      simp
    · rintro x rfl
      simp
    · rintro s rfl
      exact ⟨cur, by simp [List.mem_of_getElem? hcur], .inl rfl⟩
    · simp

/-! ## Moving along a chain -/

theorem MarkedChain.isEocSigned_eq (h : MarkedChain fat d first cs) (hc : c ∈ cs) :
    isEocSigned (fatEntry fat d c) = decide (fat32Eoc ≤ fatEntry fat d c) := by
  have hle := h.mark c hc
  rw [fat32Feoc] at hle
  have hlt : fatEntry fat d c < 2 ^ 31 := by omega
  rw [isEocSigned, decide_eq_true hlt, Bool.and_true]

/-- A marked chain is what `reloc_clus` meets. -/
theorem MarkedChain.link (hg : Geometry fat) (h : MarkedChain fat d first cs) :
    LinkChain fat d first cs := by
  have hnumbers := hg.numbers
  refine ⟨h.file.chain.change (fun c hc => readFat_eq hg (h.file.range c hc).2) (fun c hc => ?_)
    (fun hstop => ?_) fun c hc hstop => ?_, h.file.nonempty⟩
  · have := (h.file.range c hc).2
    rw [isEocSigned, Bool.and_eq_true, decide_eq_true_eq, decide_eq_true_eq, fat32Eoc]
    omega
  · exact absurd hstop (h.file.chain.not_stop (h.file.chain.head_mem h.file.nonempty))
  · rw [h.isEocSigned_eq hc]
    exact decide_eq_true hstop

theorem LinkChain.lt_eoc (h : LinkChain fat d first cs) (hc : c ∈ cs) : c < fat32Eoc := by
  by_contra hge
  have hself : readFat fat d c = c := by
    rw [readFat, if_pos (Nat.le_of_not_lt hge)]
  exact h.chain.next_ne hc hself

theorem LinkChain.not_eoc (h : LinkChain fat d first cs) (hc : c ∈ cs) : isEocSigned c = false := by
  simpa using h.chain.not_stop hc

theorem LinkChain.head_eq (h : LinkChain fat d first cs) : cs[0]? = some first := by
  obtain ⟨hchain, hne⟩ := h
  cases hchain with
  | stop => exact absurd rfl hne
  | cons => rfl

/-- One step of `reloc_clus` inside the chain. -/
theorem relocForward_next (h : LinkChain fat d first cs)
    (hcur : cs[entry.clusCnt]? = some entry.curClus)
    (hc : cs[entry.clusCnt + 1]? = some c) (alloc : Bool) :
    relocForward fat alloc (n + 1) d entry =
      relocForward fat alloc n d { entry with curClus := c, clusCnt := entry.clusCnt + 1 } := by
  have hnext := h.chain.next_getElem hcur hc
  have hmark := h.not_eoc (List.mem_of_getElem? hc)
  simp [relocForward, hnext, hmark]

/-- A cluster of the chain is found in any mode. -/
theorem relocForward_found (h : LinkChain fat d first cs)
    (hcur : cs[entry.clusCnt]? = some entry.curClus)
    (hc : cs[entry.clusCnt + n]? = some c) (alloc : Bool) :
    relocForward fat alloc n d entry =
      (true, d, { entry with curClus := c, clusCnt := entry.clusCnt + n }) := by
  induction n generalizing entry with
  | zero =>
      rw [Nat.add_zero] at hc ⊢
      obtain rfl := Option.some.inj (hcur.symm.trans hc)
      rfl
  | succ n ih =>
      have hlt : entry.clusCnt + 1 < cs.length := by
        have := (List.getElem?_eq_some_iff.mp hc).1
        omega
      have hnext := List.getElem?_eq_getElem hlt
      rw [relocForward_next h hcur hnext,
        ih hnext (by rwa [Nat.add_assoc, Nat.add_comm 1])]
      simp only [Nat.add_assoc, Nat.add_comm 1]

/-- Without allocation, the end of the chain sends the position back to its start. -/
theorem relocForward_missing (h : LinkChain fat d first cs)
    (hcur : cs[entry.clusCnt]? = some entry.curClus)
    (hn : cs.length ≤ entry.clusCnt + n) :
    relocForward fat false n d entry =
      (false, d, { entry with curClus := entry.firstClus, clusCnt := 0 }) := by
  have hpos := (List.getElem?_eq_some_iff.mp hcur).1
  induction n generalizing entry with
  | zero => omega
  | succ n ih =>
      rcases Nat.lt_or_ge (entry.clusCnt + 1) cs.length with hlt | hge
      · have hnext := List.getElem?_eq_getElem hlt
        rw [relocForward_next h hcur hnext, ih hnext (by simp only; omega) hlt]
      · have heoc := h.chain.stop_last hcur (by omega)
        simp [relocForward, heoc]

/-- With allocation and enough free clusters, the chain is extended as far as needed. -/
theorem relocForward_alloc (hg : Geometry fat) (entry : Dirent)
    (hreserved : ∀ k < 2, fatEntry fat d k ≠ 0) (h : MarkedChain fat d first cs)
    (hcur : cs[entry.clusCnt]? = some entry.curClus)
    (hroom : entry.clusCnt + n + 1 - cs.length ≤ (freeClusters fat d).card) :
    ∃ new d' c, relocForward fat true n d entry =
        (true, d', { entry with curClus := c, clusCnt := entry.clusCnt + n }) ∧
      (cs ++ new)[entry.clusCnt + n]? = some c ∧
      new.length = entry.clusCnt + n + 1 - cs.length ∧ Appended fat first cs new d d' := by
  have hpos := (List.getElem?_eq_some_iff.mp hcur).1
  induction n generalizing d entry cs with
  | zero =>
      refine ⟨[], d, entry.curClus, rfl, ?_, ?_, Appended.refl hreserved h⟩
      · simpa using hcur
      · simp only [List.length_nil]
        omega
  | succ n ih =>
      have hrange := h.file.range _ (List.mem_of_getElem? hcur)
      rcases Nat.lt_or_ge (entry.clusCnt + 1) cs.length with hlt | hge
      · have hnext := List.getElem?_eq_getElem hlt
        obtain ⟨new, d', c, hrun, hc, hlen, hext⟩ := ih
          { entry with curClus := cs[entry.clusCnt + 1], clusCnt := entry.clusCnt + 1 }
          hreserved h hnext (by simp only; omega) hlt
        refine ⟨new, d', c, ?_, ?_, ?_, hext⟩
        · rw [relocForward_next (h.link hg) hcur hnext, hrun]
          simp only [Nat.add_assoc, Nat.add_comm 1]
        · simpa only [Nat.add_assoc, Nat.add_comm 1] using hc
        · simp only at hlen
          omega
      · have hi : entry.clusCnt + 1 = cs.length := by omega
        have heoc := h.file.last_eoc hcur hi
        obtain ⟨c, d₁, halloc, ha⟩ :=
          allocClus_of_free hg hreserved (Finset.card_pos.mp (by omega))
        have hw := writeFat_write hg hrange.2 (d := d₁) (v := c)
        have hone := MarkedChain.append hg hreserved h hcur hi ha hw
        have hcard : (freeClusters fat (writeFat fat d₁ entry.curClus c)).card =
            (freeClusters fat d).card - 1 := by
          have hsub : [c].toFinset ⊆ freeClusters fat d := by simpa using ha.free
          rw [hone.free, Finset.card_sdiff_of_subset hsub]
          simp
        obtain ⟨new, d', x, hrun, hx, hlen, hext⟩ := ih
          { entry with curClus := c, clusCnt := entry.clusCnt + 1 }
          hone.reserved hone.chain (by simp [hi]) (by rw [hcard]; simp; omega) (by simp; omega)
        refine ⟨c :: new, d', x, ?_, ?_, ?_, hone.trans hext⟩
        · simp only [relocForward, readFat_eq hg hrange.2, h.isEocSigned_eq (List.mem_of_getElem? hcur), heoc,
            decide_true, if_true, halloc]
          rw [hrun]
          simp only [Nat.add_assoc, Nat.add_comm 1]
        · simpa [Nat.add_assoc, Nat.add_comm 1] using hx
        · simp only [List.length_append, List.length_singleton] at hlen
          simp only [List.length_cons]
          omega

theorem relocRewind_found (h : LinkChain fat d first cs) (hcur : cs[i]? = some cur)
    (hc : cs[i + n]? = some c) : relocRewind fat d n cur = some c := by
  induction n generalizing i cur with
  | zero => exact hcur.symm.trans hc
  | succ n ih =>
      have hlt : i + 1 < cs.length := by
        have := (List.getElem?_eq_some_iff.mp hc).1
        omega
      have hnext := List.getElem?_eq_getElem hlt
      have hin := h.lt_eoc (List.mem_of_getElem? hnext)
      rw [relocRewind]
      simp only [h.chain.next_getElem hcur hnext]
      rw [if_neg (by omega)]
      exact ih hnext (by rwa [Nat.add_assoc, Nat.add_comm 1])

/-- The cached position of an entry is on its chain. -/
def OnChain (entry : Dirent) (cs : List ℕ) : Prop := cs[entry.clusCnt]? = some entry.curClus

/-- The entry with its position at cluster `c`, the one with number `q`. -/
def Dirent.at (entry : Dirent) (c q : ℕ) : Dirent := { entry with curClus := c, clusCnt := q }

/-- `reloc_clus` to an offset inside the chain. -/
theorem LinkChain.relocClus_found (h : LinkChain fat d entry.firstClus cs)
    (hcur : OnChain entry cs) (hc : cs[off / fat.bytsPerClus]? = some c) (alloc : Bool) :
    relocClus fat d entry off alloc =
      some (off % fat.bytsPerClus, d, entry.at c (off / fat.bytsPerClus)) := by
  have hcur' : cs[entry.clusCnt]? = some entry.curClus := hcur
  rcases Nat.lt_or_ge (off / fat.bytsPerClus) entry.clusCnt with hback | hforth
  · have hstay : relocForward fat alloc (off / fat.bytsPerClus - entry.clusCnt) d entry =
        (true, d, entry) := by
      rw [show off / fat.bytsPerClus - entry.clusCnt = 0 by omega]
      rfl
    have hrewind : relocRewind fat d (off / fat.bytsPerClus) entry.firstClus = some c :=
      relocRewind_found h h.head_eq (by rwa [Nat.zero_add])
    simp only [relocClus, hstay, if_pos hback, hrewind]
    rfl
  · have hsum : entry.clusCnt + (off / fat.bytsPerClus - entry.clusCnt) =
        off / fat.bytsPerClus := by omega
    have hfound := relocForward_found (n := off / fat.bytsPerClus - entry.clusCnt) (c := c)
      h hcur' (by rwa [hsum]) alloc
    rw [hsum] at hfound
    simp [relocClus, hfound, Dirent.at]

/-- `reloc_clus` to an offset behind the chain, without allocation. -/
theorem LinkChain.relocClus_missing (h : LinkChain fat d first cs) (hcur : OnChain entry cs)
    (hlen : cs.length ≤ off / fat.bytsPerClus) :
    relocClus fat d entry off false = some (minusOne, d, entry.at entry.firstClus 0) := by
  have hmissing := relocForward_missing h hcur
    (n := off / fat.bytsPerClus - entry.clusCnt) (by omega)
  simp only [relocClus, hmissing]
  rfl

/-- `reloc_clus` with allocation and enough free clusters. -/
theorem MarkedChain.relocClus_alloc (hg : Geometry fat)
    (hreserved : ∀ k < 2, fatEntry fat d k ≠ 0) (h : MarkedChain fat d entry.firstClus cs)
    (hcur : OnChain entry cs) (off : ℕ)
    (hroom : off / fat.bytsPerClus + 1 - cs.length ≤ (freeClusters fat d).card) :
    ∃ new d' c, relocClus fat d entry off true =
        some (off % fat.bytsPerClus, d', entry.at c (off / fat.bytsPerClus)) ∧
      (cs ++ new)[off / fat.bytsPerClus]? = some c ∧
      new.length = off / fat.bytsPerClus + 1 - cs.length ∧
      Appended fat entry.firstClus cs new d d' := by
  have hpos := (List.getElem?_eq_some_iff.mp hcur).1
  rcases Nat.lt_or_ge (off / fat.bytsPerClus) cs.length with hin | hout
  · have hc := List.getElem?_eq_getElem hin
    refine ⟨[], d, _, (h.link hg).relocClus_found hcur hc true, by simp, ?_,
      Appended.refl hreserved h⟩
    simp only [List.length_nil]
    omega
  · have hsum : entry.clusCnt + (off / fat.bytsPerClus - entry.clusCnt) =
        off / fat.bytsPerClus := by omega
    obtain ⟨new, d', c, hrun, hc, hlen, happ⟩ := relocForward_alloc
      (n := off / fat.bytsPerClus - entry.clusCnt) hg entry hreserved h hcur (by rwa [hsum])
    rw [hsum] at hrun hc hlen
    refine ⟨new, d', c, ?_, hc, hlen, happ⟩
    simp [relocClus, hrun, Dirent.at]

/-- Along the chain itself only the link of the last cluster changed. -/
theorem Appended.entry_of_ne_last (h : MarkedChain fat d first cs)
    (happ : Appended fat first cs new d d') {k : ℕ} (hk : k < 128 * fat.fatSz) (hnew : k ∉ new)
    (hlast : cs.getLast? ≠ some k) : fatEntry fat d' k = fatEntry fat d k := by
  by_cases hmem : k ∈ cs
  · obtain ⟨i, hi⟩ := List.mem_iff_getElem?.mp hmem
    have hlt := (List.getElem?_eq_some_iff.mp hi).1
    have hnext : i + 1 < cs.length := by
      by_contra hend
      apply hlast
      rw [List.getLast?_eq_getElem?, show cs.length - 1 = i by omega, hi]
    have hget := List.getElem?_eq_getElem hnext
    rw [h.file.next_eq hi hget]
    apply happ.chain.file.next_eq (i := i)
    · rwa [List.getElem?_append_left hlt]
    · rwa [List.getElem?_append_left hnext]
  · exact happ.entry k hk (by simp [hmem, hnew])

/-- `reloc_clus` from any position on a chain that ends in a mark: a cluster of the chain
is found, missing ones are appended where it may allocate, and else the position goes back
to the start. -/
theorem MarkedChain.relocClus_spec (hg : Geometry fat)
    (h : MarkedChain fat d entry.firstClus cs) (hcur : OnChain entry cs) (off : ℕ) (alloc : Bool)
    (hready : alloc = true → (∀ k < 2, fatEntry fat d k ≠ 0) ∧
      off / fat.bytsPerClus + 1 - cs.length ≤ (freeClusters fat d).card) :
    (off / fat.bytsPerClus < cs.length → ∃ c, cs[off / fat.bytsPerClus]? = some c ∧
      relocClus fat d entry off alloc =
        some (off % fat.bytsPerClus, d, entry.at c (off / fat.bytsPerClus))) ∧
    (cs.length ≤ off / fat.bytsPerClus → alloc = true → ∃ new d' c,
      relocClus fat d entry off alloc =
        some (off % fat.bytsPerClus, d', entry.at c (off / fat.bytsPerClus)) ∧
      (cs ++ new)[off / fat.bytsPerClus]? = some c ∧
      new.length = off / fat.bytsPerClus + 1 - cs.length ∧
      Appended fat entry.firstClus cs new d d' ∧
      ∀ k < 128 * fat.fatSz, k ∉ new → cs.getLast? ≠ some k →
        fatEntry fat d' k = fatEntry fat d k) ∧
    (cs.length ≤ off / fat.bytsPerClus → alloc = false →
      relocClus fat d entry off alloc = some (minusOne, d, entry.at entry.firstClus 0)) := by
  refine ⟨fun hin => ?_, fun hout halloc => ?_, fun hout halloc => ?_⟩
  · have hc := List.getElem?_eq_getElem hin
    exact ⟨_, hc, (h.link hg).relocClus_found hcur hc alloc⟩
  · obtain ⟨hreserved, hroom⟩ := hready halloc
    subst halloc
    obtain ⟨new, d', c, hrun, hc, hlen, happ⟩ := h.relocClus_alloc hg hreserved hcur off hroom
    exact ⟨new, d', c, hrun, hc, hlen, happ, fun k hk hnew hlast =>
      happ.entry_of_ne_last h hk hnew hlast⟩
  · subst halloc
    exact (h.link hg).relocClus_missing hcur hout

/-- A volume of two clusters, with one of them in use. -/
def pairFat : Fat32 := ⟨2, 2, 512, 512, 1, 1, 4, 1⟩

def pairDisk : Disk :=
  ⟨store32 (store32 (store32 (fun _ => 0) 512 0x0FFFFFF8) 516 0x0FFFFFFF) 520 0x0FFFFFFF, [], []⟩

def pairEntry : Dirent := ⟨fun _ => 0, 0, 2, 512, 2, 0, false, 1, 1, 0, 0⟩

/-- A file of one cluster gets a second one. -/
theorem relocClus_appends_second : ∃ new d' c,
    relocClus pairFat pairDisk pairEntry 600 true = some (88, d', pairEntry.at c 1) ∧
      ([2] ++ new)[1]? = some c ∧ new.length = 1 ∧
      Appended pairFat pairEntry.firstClus [2] new pairDisk d' := by
  have hg : Geometry pairFat := by constructor <;> decide
  have hmark : fatEntry pairFat pairDisk pairEntry.firstClus = fat32Feoc := by decide
  have hchain : MarkedChain pairFat pairDisk pairEntry.firstClus [2] := by
    refine ⟨⟨.cons (by decide) (.stop (by rw [hmark]; decide)), by simp, fun c hc => ?_⟩,
      fun c hc => ?_⟩
    · rw [List.mem_singleton.mp hc]
      exact ⟨le_rfl, by decide⟩
    · rw [List.mem_singleton.mp hc]
      exact hmark.le
  have hfree : (3 : ℕ) ∈ freeClusters pairFat pairDisk :=
    mem_freeClusters.mpr ⟨⟨by omega, by decide⟩, by decide⟩
  have hready : true = true → (∀ k < 2, fatEntry pairFat pairDisk k ≠ 0) ∧
      600 / pairFat.bytsPerClus + 1 - [2].length ≤ (freeClusters pairFat pairDisk).card :=
    fun _ => ⟨by decide, Finset.card_pos.mpr ⟨3, hfree⟩⟩
  have hcur : OnChain pairEntry [2] := rfl
  obtain ⟨new, d', c, hrun, hc, hlen, happ, -⟩ :=
    (hchain.relocClus_spec hg hcur 600 true hready).2.1 (by decide) rfl
  exact ⟨new, d', c, hrun, hc, hlen, happ⟩

/-! ## On a sound FAT -/

theorem relocClus_found (hg : Geometry fat) (hs : SoundFat fat d)
    (h : FileChain fat d entry.firstClus cs) (hcur : OnChain entry cs)
    (hc : cs[off / fat.bytsPerClus]? = some c) (alloc : Bool) :
    relocClus fat d entry off alloc =
      some (off % fat.bytsPerClus, d, entry.at c (off / fat.bytsPerClus)) :=
  ((h.marked hs).link hg).relocClus_found hcur hc alloc

theorem relocClus_missing (hg : Geometry fat) (hs : SoundFat fat d)
    (h : FileChain fat d first cs) (hcur : OnChain entry cs)
    (hlen : cs.length ≤ off / fat.bytsPerClus) :
    relocClus fat d entry off false = some (minusOne, d, entry.at entry.firstClus 0) :=
  ((h.marked hs).link hg).relocClus_missing hcur hlen

theorem relocClus_alloc (hg : Geometry fat) (hs : SoundFat fat d)
    (h : FileChain fat d entry.firstClus cs) (hcur : OnChain entry cs) (off : ℕ)
    (hroom : off / fat.bytsPerClus + 1 - cs.length ≤ (freeClusters fat d).card) :
    ∃ new d' c, relocClus fat d entry off true =
        some (off % fat.bytsPerClus, d', entry.at c (off / fat.bytsPerClus)) ∧
      (cs ++ new)[off / fat.bytsPerClus]? = some c ∧
      new.length = off / fat.bytsPerClus + 1 - cs.length ∧
      Extended fat entry.firstClus cs new d d' := by
  obtain ⟨new, d', c, hrun, hc, hlen, happ⟩ :=
    (h.marked hs).relocClus_alloc hg hs.reserved hcur off hroom
  exact ⟨new, d', c, hrun, hc, hlen, happ.extended hg hs⟩

end K210Os
