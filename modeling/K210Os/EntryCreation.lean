import K210Os.CreatedFile
import K210Os.OpenAt

/-!
# Creating an entry and finding it again

`ealloc` writes the slots of the new file behind the files that the directory has. Once the
entry has left the cache, a lookup of the name finds it on the disk with the data it was
created with exactly if the two special slots of the directory were taken already and the
name does not begin with the mark of a deleted slot. The other files are found as before.
-/

namespace K210Os

/-! ## The entry in front of its slots -/

section First
variable {fat : Fat32} {fs fs' : FileSystem} {cs new : List ℕ} {dp ep off attr : ℕ}
  {name : List Byte} {d d' : Disk} {own taken : Set ℕ}

theorem chainByte_kept (hg : Geometry fat) (h : Keeps fat own taken d d')
    (hcs : ∀ c ∈ cs, c ∈ DataClus fat ∧ c ∉ own) : chainByte fat d' cs = chainByte fat d cs := by
  funext k
  have hmod := Nat.mod_lt k (bytsPerClus_pos hg)
  rw [chainByte, chainByte]
  cases hc : cs[k / fat.bytsPerClus]? with
  | none => rfl
  | some c =>
    obtain ⟨hdata, hout⟩ := hcs c (List.mem_of_getElem? hc)
    exact h.byte c hdata hout _ (by rwa [← hg.cluster])

/-- The entry that `ealloc` sets up for a name. -/
structure SetUp (fat : Fat32) (dp ep : ℕ) (cs : List ℕ) (name : List Byte) (attr : ℕ)
    (fs fs' : FileSystem) : Prop where
  clus : DirectoryClus fat fs' dp cs
  bytes : chainByte fat fs'.disk cs = chainByte fat fs.disk cs
  free : (freeClusters fat fs'.disk).card + (if attr = attrDirectory then 1 else 0) =
    (freeClusters fat fs.disk).card
  dir : fs'.ent dp = { fs.ent dp with ref := (fs.ent dp).ref + 1 }
  filename : (fs'.ent ep).filename = cstring (strncpy (cstring name) fat32MaxFilename 0)
  attr : (fs'.ent ep).attr =
    attr % 256 ||| if attr = attrDirectory then attrDirectory else attrArchive
  firstClus : (fs'.ent ep).firstClus < 2 ^ 32
  fileSize : (fs'.ent ep).fileSize = 0

/-- One of the two first slots in the only cluster of a new directory. -/
theorem DirectoryClus.emake_inside (hg : Geometry fat) {c : ℕ} (h : DirectoryClus fat fs ep [c])
    (hoff : off = 0 ∨ off = 32) (i : ℕ) :
    ∃ fs', emake fat fs ep i off = some fs' ∧
      SlotsLaid fat ep [c] [] off (emakeSlots fs i off) fs fs' := by
  have hpos := hg.sectors_pos
  have hcluster := hg.cluster
  have hlen : (emakeSlots fs i off).length = 1 := by
    rw [length_emakeSlots, if_pos (by omega)]
  have hin : (off + 32) / fat.bytsPerClus = 0 := Nat.div_eq_of_lt (by omega)
  have hslot : off / fat.bytsPerClus = 0 := Nat.div_eq_of_lt (by omega)
  obtain ⟨new, fs', hrun, hlaid⟩ := h.emake_laid hg i (show off % 32 = 0 by omega)
    (.inl (by omega)) (by rw [hlen]; omega) (by
      rw [emakeReach, if_pos (by omega), hslot]
      exact Nat.zero_le _)
  have hreach := hlaid.reach
  rw [hlen, Nat.mul_one, hin, List.length_append] at hreach
  have hnil : new = [] := List.eq_nil_of_length_eq_zero (by simpa using hreach)
  exact ⟨fs', hrun, hnil ▸ hlaid⟩

theorem DirectoryClus.eallocFirst_setUp (hg : Geometry fat) (h : DirectoryClus fat fs dp cs)
    (hne : ep ≠ dp) (name : List Byte) (attr off : ℕ)
    (hroom : (if attr = attrDirectory then 1 else 0) ≤ (freeClusters fat fs.disk).card) :
    ∃ fs', eallocFirst fat fs dp ep name attr off = some fs' ∧
      SetUp fat dp ep cs name attr fs fs' := by
  obtain ⟨hname, hattr, hsize, hfirst, hcur, hcnt⟩ := newEntry_fields fs dp ep name attr off
  have hother : ∀ (d : Disk) (e : Dirent),
      ({ eallocEntry fs dp ep name attr off with disk := d }.set ep e).ent dp =
        { fs.ent dp with ref := (fs.ent dp).ref + 1 } := fun d e => by
    rw [FileSystem.set_ent_of_ne _ _ hne.symm, eallocEntry_eq]
    exact (FileSystem.set_ent_of_ne _ _ hne.symm).trans (FileSystem.set_ent_self _ _ _)
  rw [eallocFirst]
  by_cases hdir : attr = attrDirectory
  · rw [if_pos hdir] at hroom
    obtain ⟨c, d, halloc, ha⟩ :=
      allocClus_of_free hg h.sound.reserved (Finset.card_pos.mp hroom)
    have hstep := ha.fileStep hg h.sound
    have hcard : (freeClusters fat d).card = (freeClusters fat fs.disk).card - 1 := hstep.card_free
    simp only [if_pos hdir, halloc]
    generalize hfs₁ : { eallocEntry fs dp ep name attr off with disk := d }.set ep
      { newEntry fs dp ep name attr off with
        attr := (newEntry fs dp ep name attr off).attr ||| attrDirectory
        firstClus := c
        curClus := c } = fs₁
    have hdisk₁ : fs₁.disk = d := by rw [← hfs₁]; rfl
    have hent₁ : fs₁.ent dp = { fs.ent dp with ref := (fs.ent dp).ref + 1 } := hfs₁ ▸ hother d _
    have hep : DirectoryClus fat fs₁ ep [c] := by
      rw [← hfs₁]
      refine ⟨hstep.sound, ?_, List.cons_ne_nil _ _, ?_⟩
      · rw [FileSystem.set_ent_self]
        refine ⟨.inr hstep.chain, by simp [hsize], by simp [hsize], fun _ => ?_⟩
        rw [OnChain]
        simp [hcnt]
      · rw [FileSystem.set_ent_self, Dirent.isDirectory]
        dsimp only
        rw [hattr, hdir]
        decide
    obtain ⟨fs₂, hself, hlaid⟩ := hep.emake_inside hg (.inl rfl) ep
    obtain ⟨fs₃, hup, hlaid'⟩ := hlaid.clus.emake_inside hg (.inr rfl) dp
    obtain ⟨c₂, q₂, hdir₂⟩ := hlaid.dir
    obtain ⟨c₃, q₃, hdir₃⟩ := hlaid'.dir
    have hentry : fs₃.ent ep = (fs₁.ent ep).at c₃ q₃ := by
      rw [hdir₃, hdir₂]
      rfl
    have hfields : fs₁.ent ep = { newEntry fs dp ep name attr off with
        attr := (newEntry fs dp ep name attr off).attr ||| attrDirectory
        firstClus := c
        curClus := c } := by rw [← hfs₁, FileSystem.set_ent_self]
    rw [hfields] at hentry
    have hdp : fs₃.ent dp = fs₁.ent dp :=
      (hlaid'.other dp hne.symm).trans (hlaid.other dp hne.symm)
    have hout : ∀ x ∈ cs, x ∈ DataClus fat ∧ x ∉ ({y | y ∈ [c]} : Set ℕ) := fun x hx => by
      refine ⟨h.fileChain.range x hx, fun hxc => ?_⟩
      obtain rfl := List.mem_singleton.mp hxc
      exact h.fileChain.not_free hx ha.free
    have hkeeps : Keeps fat {y | y ∈ [c]} {y | y ∈ [c]} fs.disk fs₁.disk := by
      rw [hdisk₁]
      exact hstep.keeps
    have hkept : Keeps fat {y | y ∈ [c]} Set.univ fs.disk fs₃.disk :=
      ((hkeeps.mono le_rfl (Set.subset_univ _)).trans
        (hlaid.step.keeps.mono (by simp) (Set.subset_univ _))).trans
        (hlaid'.step.keeps.mono (by simp) (Set.subset_univ _))
    have hdpclus : DirectoryClus fat fs₃ dp cs :=
      h.edup.congr hlaid'.clus.sound hkept (fun x hx => (hout x hx).2)
        (by rw [hdp, hent₁]; exact (FileSystem.set_ent_self _ _ _).symm)
    have hfree₂ := hlaid.free.1
    have hfree₃ := hlaid'.free.1
    rw [List.length_nil, Nat.sub_zero] at hfree₂ hfree₃
    refine ⟨fs₃, by simp [hself, hup], hdpclus, chainByte_kept hg hkept hout, ?_, hdp.trans hent₁,
      ?_, ?_, ?_, ?_⟩
    · rw [if_pos hdir, hfree₃, hfree₂, hdisk₁]
      omega
    · rw [hentry]
      exact hname
    · rw [hentry, if_pos hdir, ← hattr]
      rfl
    · have hlt := (mem_freeClusters.mp ha.free).1.2
      have hnumbers := hg.numbers
      rw [hentry]
      show c < 2 ^ 32
      omega
    · rw [hentry]
      exact hsize
  · simp only [if_neg hdir]
    have hdpclus : DirectoryClus fat
        ((eallocEntry fs dp ep name attr off).set ep { newEntry fs dp ep name attr off with
          attr := (newEntry fs dp ep name attr off).attr ||| attrArchive }) dp cs := by
      refine h.edup.congr h.sound (Keeps.refl fat ∅ ∅ fs.disk) (by simp) ?_
      exact (hother fs.disk _).trans (FileSystem.set_ent_self _ _ _).symm
    refine ⟨_, rfl, hdpclus, rfl, by rw [if_neg hdir]; rfl, hother fs.disk _, ?_, ?_, ?_, ?_⟩
    · rw [FileSystem.set_ent_self]
      exact hname
    · rw [FileSystem.set_ent_self, if_neg hdir, ← hattr]
    · rw [FileSystem.set_ent_self]
      show (newEntry fs dp ep name attr off).firstClus < 2 ^ 32
      omega
    · rw [FileSystem.set_ent_self]
      exact hsize

end First

/-! ## The slots with the new file -/

section Slots
variable {l : Listing} {name : List Byte} {fs : FileSystem} {ep z : ℕ} {files : List DirFile}
  {f : DirFile} {des : List Dentry}

theorem lookupFile_append (files files' : List DirFile) (name : List Byte) :
    lookupFile (files ++ files') name = (lookupFile files name).or (lookupFile files' name) :=
  List.find?_append

/-- Deleted slots and unused ones behind the new slots. -/
theorem Listing.WellFormed.behind (hl : l.WellFormed) (z n : ℕ) : ∃ gap rest,
    (l.gap ++ (l.rest ++ List.replicate z blankSlot)).drop n = gap ++ rest ∧
      (∀ de ∈ gap, Deleted de) ∧ ∀ de ∈ rest, NeverUsed de := by
  refine ⟨l.gap.drop n, (l.rest ++ List.replicate z blankSlot).drop (n - l.gap.length),
    List.drop_append, fun de hde => hl.gap de (List.mem_of_mem_drop hde), fun de hde => ?_⟩
  rcases List.mem_append.mp (List.mem_of_mem_drop hde) with hrest | hblank
  · exact hl.rest de hrest
  · rw [List.eq_of_mem_replicate hblank]
    rfl

theorem Listing.overlay_used : overlay (l.slots ++ List.replicate z blankSlot) l.used.length des =
    l.used ++ (des ++ (l.gap ++ (l.rest ++ List.replicate z blankSlot)).drop des.length) := by
  have hslots : l.slots ++ List.replicate z blankSlot =
      l.used ++ (l.gap ++ (l.rest ++ List.replicate z blankSlot)) := by
    simp [Listing.slots]
  rw [overlay, hslots, List.take_left, ← List.drop_drop, List.drop_left]

/-- A file behind the others. -/
theorem Listing.WellFormed.holds_file (hl : l.WellFormed) (hf : f.WellFormed) (hgap : f.gap = [])
    (z : ℕ) : Holds (overlay (l.slots ++ List.replicate z blankSlot) l.used.length f.own)
      (l.files ++ [f]) := by
  obtain ⟨gap, rest, hbehind, hdeleted, hunused⟩ := hl.behind z f.own.length
  constructor
  · intro g hg
    rcases List.mem_append.mp hg with hg | hg
    · exact hl.files g hg
    · exact List.mem_singleton.mp hg ▸ hf
  · refine ⟨gap ++ rest, ?_, barren_unused hdeleted hunused⟩
    rw [Listing.overlay_used, hbehind, List.flatMap_append, List.flatMap_singleton, DirFile.slots,
      hgap, List.nil_append, List.append_assoc]
    rfl

/-- The files that the directory holds behind `emake`, and whether one of the new ones has the
name. -/
theorem Listing.WellFormed.holds_created (hl : l.WellFormed)
    (h : Creatable (fs.ent ep).filename name (fs.ent ep)) (z : ℕ) : ∃ added,
    Holds (overlay (l.slots ++ List.replicate z blankSlot) l.used.length
      (emakeSlots fs ep (32 * l.used.length))) (l.files ++ added) ∧
    lookupFile added name = if 2 ≤ l.used.length ∧ name.head? ≠ some 0xE5 then
      some (createdFile (fs.ent ep).filename (fs.ent ep)) else none := by
  by_cases hdots : 32 * l.used.length ≤ 32
  · obtain ⟨dots, hfirst, hslots⟩ : ∃ dots : List Byte, dots.head? = some 0x2E ∧
        emakeSlots fs ep (32 * l.used.length) = (dotFile dots (fs.ent ep).firstClus).own := by
      rw [emakeSlots, if_pos hdots]
      split
      · exact ⟨_, rfl, rfl⟩
      · exact ⟨_, rfl, rfl⟩
    refine ⟨[dotFile dots (fs.ent ep).firstClus], ?_, ?_⟩
    · rw [hslots]
      exact hl.holds_file (dotFile_wellFormed hfirst _) rfl z
    · rw [if_neg (by omega), lookupFile, List.find?_eq_none]
      intro f hf hmatch
      rw [List.mem_singleton.mp hf] at hmatch
      have hdot := (strncmpEq_first hmatch).trans (dotFile_filename hfirst (fs.ent ep).firstClus)
      cases hname : name with
      | nil => exact h.nonempty hname
      | cons c cs =>
        rw [hname] at hdot
        have hnodot := h.dot
        rw [hname] at hnodot
        exact hnodot (congrArg some hdot)
  · have hslots : emakeSlots fs ep (32 * l.used.length) =
        (createdFile (fs.ent ep).filename (fs.ent ep)).own := by
      rw [emakeSlots, if_neg hdots]
      rfl
    rw [hslots]
    by_cases hmark : name.head? = some 0xE5
    · refine ⟨[], ?_, by rw [if_neg fun hgood => hgood.2 hmark]; rfl⟩
      obtain ⟨gap, rest, hbehind, hdeleted, hunused⟩ :=
        hl.behind z (createdFile (fs.ent ep).filename (fs.ent ep)).own.length
      rw [List.append_nil]
      refine ⟨hl.files, _, ?_, h.barren hmark hdeleted hunused⟩
      rw [Listing.overlay_used, hbehind]
      rfl
    · refine ⟨[createdFile (fs.ent ep).filename (fs.ent ep)],
        hl.holds_file (h.wellFormed hmark) rfl z, ?_⟩
      rw [if_pos ⟨by omega, hmark⟩, lookupFile, List.find?_singleton, if_pos h.lookup]

end Slots

/-! ## Creating and looking up -/

/-- A lookup of the name finds an entry with these data. -/
def Finds (fat : Fat32) (fs : FileSystem) (dp : ℕ) (name : List Byte) (entry : Dirent) : Prop :=
  ∃ ep stored fs', dirlookup fat fs dp name false = some (some ep, stored, fs') ∧
    (fs'.ent ep).attr = entry.attr ∧ (fs'.ent ep).firstClus = entry.firstClus ∧
    (fs'.ent ep).fileSize = entry.fileSize

/-- A later state with the same disk, in which `dp` still is the open directory. The entry
cache may hold anything else. -/
structure Afterwards (fat : Fat32) (dp : ℕ) (fs fs' : FileSystem) : Prop where
  disk : fs'.disk = fs.disk
  firstClus : (fs'.ent dp).firstClus = (fs.ent dp).firstClus
  opened : ∃ cs, OpenDirectory fat fs' dp cs

section Creation
variable {fat : Fat32} {fs fs' fs'' : FileSystem} {cs : List ℕ} {dp ep attr : ℕ} {l : Listing}
  {raw name : List Byte} {entry : Dirent} {files : List DirFile} {f : DirFile}

theorem DirectoryClus.opened (hg : Geometry fat) (h : DirectoryClus fat fs dp cs)
    (hvalid : (fs.ent dp).valid = 1) (hsmall : cs.length * fat.bytsPerClus < 2 ^ 32) :
    OpenDirectory fat fs dp cs :=
  ⟨hg.sizes, h.linkChain hg, h.file.cursor h.nonempty, hsmall, h.directory, hvalid⟩

theorem DirectoryClus.stored (hg : Geometry fat) (h : DirectoryClus fat fs dp cs)
    (hvalid : (fs.ent dp).valid = 1) (hsmall : cs.length * fat.bytsPerClus < 2 ^ 32) :
    StoredDirectory fat fs dp cs :=
  ⟨h.opened hg hvalid hsmall, hg, h.fileChain.range⟩

/-- What a lookup finds is told by the files that the directory holds. -/
theorem OpenDirectory.finds_iff (h : OpenDirectory fat fs dp cs)
    (hslots : Holds (dirSlots fat fs.disk cs) files) (hname : Sought fs dp name) :
    Finds fat fs dp name entry ↔ ∃ f, lookupFile files name = some f ∧
      (f.short.byte 11).toNat = entry.attr ∧
      f.short.value 20 2 <<< 16 ||| f.short.value 26 2 = entry.firstClus ∧
      f.short.value 28 4 = entry.fileSize := by
  obtain ⟨ep, stored, fs', hrun, -, hshows⟩ := h.dirlookup_listed hslots hname false
  constructor
  · rintro ⟨ep', stored', fs'', hrun', hattr, hclus, hsize⟩
    rw [hrun', Option.some.injEq, Prod.mk.injEq, Prod.mk.injEq] at hrun
    obtain ⟨hfound, -, rfl⟩ := hrun
    cases hfile : lookupFile files name with
    | none =>
      rw [hfile] at hfound
      cases hfound
    | some f =>
      rw [hfile] at hfound
      obtain rfl : ep' = ep := Option.some.inj hfound
      have hf := hshows f hfile
      exact ⟨f, rfl, hf.attr.symm.trans hattr, hf.firstClus.symm.trans hclus,
        hf.fileSize.symm.trans hsize⟩
  · rintro ⟨f, hfile, hattr, hclus, hsize⟩
    have hf := hshows f hfile
    rw [hfile] at hrun
    exact ⟨ep, stored, fs', hrun, hf.attr.trans hattr, hf.firstClus.trans hclus,
      hf.fileSize.trans hsize⟩

theorem Afterwards.dirSlots_eq (h : Afterwards fat dp fs fs')
    (hopen : OpenDirectory fat fs dp cs) :
    OpenDirectory fat fs' dp cs ∧ dirSlots fat fs'.disk cs = dirSlots fat fs.disk cs := by
  obtain ⟨cs', hopen'⟩ := h.opened
  have hchain := hopen'.chain.chain
  rw [h.disk, h.firstClus] at hchain
  rw [hchain.unique hopen.chain.chain] at hopen'
  exact ⟨hopen', by rw [h.disk]⟩

theorem strncpy_cstring {n i : ℕ} (hne : ∀ c ∈ name, c ≠ 0) (hlen : name.length ≤ n + i)
    (hi : i ≤ name.length) : strncpy (cstring name) n i =
      name.drop i ++ List.replicate (n + i - name.length) 0 := by
  induction n generalizing i with
  | zero =>
    obtain rfl : i = name.length := by omega
    simp [strncpy]
  | succ n ih =>
    rw [strncpy]
    rcases Nat.lt_or_eq_of_le hi with hin | rfl
    · have hchar : cstring name i = name[i] := by
        rw [cstring, List.getD_eq_getElem?_getD, List.getElem?_eq_getElem hin]
        rfl
      rw [if_neg (hchar ▸ hne _ (List.getElem_mem hin)), ih (by omega) hin, hchar,
        List.drop_eq_getElem_cons hin, List.cons_append]
      congr 3
      omega
    · have hzero : cstring name name.length = 0 := by simp [cstring]
      rw [if_pos hzero, List.drop_length, List.nil_append]
      congr 1
      omega

theorem isCString_strncpy (hne : ∀ c ∈ name, c ≠ 0) (hlen : name.length ≤ 255) :
    IsCString (cstring (strncpy (cstring name) fat32MaxFilename 0)) name := by
  have hcopied : strncpy (cstring name) fat32MaxFilename 0 =
      name ++ List.replicate (fat32MaxFilename - name.length) 0 :=
    strncpy_cstring hne hlen (Nat.zero_le _)
  rw [hcopied]
  constructor
  · intro k hk
    simp [cstring, List.getElem?_append_left hk, List.getElem?_eq_getElem hk]
  · rw [cstring, List.getD_eq_getElem?_getD, List.getElem?_append_right le_rfl, Nat.sub_self]
    cases fat32MaxFilename - name.length <;> rfl

/-- What `formatname` leaves does not begin with a blank. -/
theorem formatname_no_space (hname : formatname raw = some name) : name.head? ≠ some 0x20 := by
  rw [formatname] at hname
  split at hname
  · exact absurd hname.symm (Option.some_ne_none _)
  · obtain rfl := Option.some.inj hname
    have hhead := List.head?_dropWhile_not (fun c : Byte => c == 0x20 || c == 0x2E) raw
    have hfront := List.rdropWhile_prefix (fun c : Byte => c == 0x20)
      (raw.dropWhile fun c => c == 0x20 || c == 0x2E)
    intro hspace
    cases hlist : (raw.dropWhile fun c => c == 0x20 || c == 0x2E).rdropWhile fun c => c == 0x20 with
    | nil =>
      rw [hlist] at hspace
      cases hspace
    | cons c cs =>
      rw [hlist] at hspace hfront
      obtain ⟨tail, htail⟩ := hfront
      rw [← htail] at hhead
      obtain rfl : c = 0x20 := Option.some.inj hspace
      exact Bool.noConfusion hhead

theorem formatname_no_dot_first (hname : formatname raw = some name) : name.head? ≠ some 0x2E := by
  intro hdot
  cases hcons : name with
  | nil =>
    rw [hcons] at hdot
    cases hdot
  | cons c cs =>
    rw [hcons] at hdot
    obtain rfl : c = 0x2E := Option.some.inj hdot
    have hmiss := formatname_no_dot (hcons ▸ hname) cs
    have hsame : ∀ (p : ℕ → Byte) n i, strncmpEq p p n i = true := by
      intro p n
      induction n with
      | zero => exact fun i => rfl
      | succ n ih =>
        intro i
        rw [strncmpEq]
        split
        · exact ih _
        · exact beq_self_eq_true _
    rw [hsame] at hmiss
    exact Bool.noConfusion hmiss

/-- The attribute of a new entry is not that of a long-name slot. -/
theorem newAttr_ne (attr : ℕ) :
    (attr % 256 ||| if attr = attrDirectory then attrDirectory else attrArchive) < 256 ∧
      (attr % 256 ||| if attr = attrDirectory then attrDirectory else attrArchive) ≠
        attrLongName := by
  constructor
  · apply Nat.or_lt_two_pow (n := 8) (Nat.mod_lt _ (by decide))
    split <;> decide
  · intro heq
    have hbit : ∀ bit, (attr % 256 ||| 2 ^ bit).testBit bit = true := fun bit => by simp
    split at heq
    · have := hbit 4
      rw [show 2 ^ 4 = attrDirectory from rfl, heq] at this
      exact absurd this (by decide)
    · have := hbit 5
      rw [show 2 ^ 5 = attrArchive from rfl, heq] at this
      exact absurd this (by decide)

/-- `ealloc` of a name that the directory does not have returns a new entry. Once the entry has
left the cache, its name is found with its data exactly if the directory had its first two
slots in use and the name does not begin with the byte that marks a deleted slot. What was
found before is found still. -/
theorem DirectoryClus.ealloc_found_iff (hg : Geometry fat) (h : DirectoryClus fat fs dp cs)
    (hvalid : (fs.ent dp).valid = 1) (hheld : 0 < (fs.ent dp).ref) (hlru : 0 ∉ fs.lru)
    (hsmall : cs.length * fat.bytsPerClus + 2 ^ 18 ≤ 2 ^ 32) (hl : l.WellFormed)
    (hslots : dirSlots fat fs.disk cs = l.slots) (hname : formatname raw = some name)
    (hlen : name.length ≤ 255) (hsought : Sought fs dp name)
    (habsent : lookupFile l.files name = none)
    (hroom : newEntryAdds fat name attr cs.length (32 * l.used.length) ≤
      (freeClusters fat fs.disk).card) :
    ∃ ep fs', ealloc fat fs dp raw attr = some (some ep, fs') ∧
      ∀ fs'', Afterwards fat dp fs' fs'' →
        (Sought fs'' dp name → (Finds fat fs'' dp name (fs'.ent ep) ↔
          2 ≤ l.used.length ∧ name.head? ≠ some 0xE5)) ∧
        ∀ old entry, Sought fs dp old → Finds fat fs dp old entry →
          Sought fs'' dp old → Finds fat fs'' dp old entry := by
  have hlt : cs.length * fat.bytsPerClus < 2 ^ 32 := by omega
  have hopen := h.opened hg hvalid hlt
  have habs : Absent fs dp l.files name :=
    ⟨hsought.nonempty, hsought.chars, hsought.dot, hsought.dotdot,
      fun f hf => by simpa using List.find?_eq_none.mp habsent f hf, hsought.uncached⟩
  -- the lookup in vain, and the entry that is taken behind it
  obtain ⟨fs₁, hlook⟩ := hopen.dirlookup_absent hl hslots habs hsought.held hsought.free true
  have hsearched := (h.dirlookup_searched hg hheld hlook).1
  have hmissed := (dirlookup_acquires hlru hheld hvalid (formatname_no_dot hname [])
    (formatname_no_dot hname [0x2E]) hlook).2 rfl
  obtain ⟨i, hi, hfree⟩ := hsought.free
  obtain ⟨ep, href, hget⟩ := eget_uncached hmissed.none
    ⟨i, hmissed.lru ▸ hi, (hmissed.ref i).trans hfree⟩
  have hne : ep ≠ dp := by
    rintro rfl
    exact absurd href hsearched.held.ne'
  have hcall : ealloc fat fs dp raw attr = _ :=
    ealloc_of_not_found h.directory hvalid hname hlook hget (by simp)
  generalize hfs₂ : fs₁.set ep { fs₁.ent ep with ref := 1, off := 0, valid := 0, dirty := false } =
    fs₂ at hcall
  have htaken := hsearched.set hne { fs₁.ent ep with ref := 1, off := 0, valid := 0, dirty := false }
  rw [hfs₂] at htaken
  have h₂ : DirectoryClus fat fs₂ dp cs := h.searched htaken
  rw [if_pos rfl, Option.getD_some, eallocNew_eq] at hcall
  rw [newEntryAdds] at hroom
  obtain ⟨fs₃, hfirst, hset⟩ := h₂.eallocFirst_setUp hg hne name attr
    (32 * l.used.length) (by rw [htaken.disk]; omega)
  have hstring : IsCString (fs₃.ent ep).filename name := by
    rw [hset.filename]
    exact isCString_strncpy hsought.chars hlen
  have hcreatable : Creatable (fs₃.ent ep).filename name (fs₃.ent ep) :=
    ⟨hstring, hsought.nonempty, hlen, hsought.chars, formatname_no_space hname,
      formatname_no_dot_first hname, hset.attr ▸ newAttr_ne attr, hset.firstClus,
      by rw [hset.fileSize]; decide⟩
  -- the slots of the new file
  have hvalid₃ : (fs₃.ent dp).valid = 1 := by
    rw [hset.dir]
    exact htaken.valid.trans hvalid
  have hcount : (emakeSlots fs₃ ep (32 * l.used.length)).length ≤ 21 := by
    rw [length_emakeSlots, strlen_eq hstring hsought.chars hlen]
    split
    · decide
    · rw [longSlots, charLongName]
      omega
  have hstored₃ := hset.clus.stored hg hvalid₃ hlt
  have hslots₃ : dirSlots fat fs₃.disk cs = l.slots := by
    rw [← hslots, ← htaken.disk, hstored₃.dirSlots_bytes, hset.bytes, ← hstored₃.dirSlots_bytes]
  have hused : 32 * l.used.length ≤ cs.length * fat.bytsPerClus := by
    have hlen := congrArg List.length hslots
    rw [length_dirSlots, Listing.slots, List.length_append] at hlen
    omega
  have hfree₃ := hset.free
  rw [htaken.disk] at hfree₃
  obtain ⟨new, fs₄, hmake, hlaid⟩ := hset.clus.emake_laid hg ep
    (Nat.mul_mod_right 32 l.used.length) (.inr hne) (by omega) (by rw [hset.filename]; omega)
  have hent₄ : fs₄.ent ep = fs₃.ent ep := hlaid.other ep hne
  obtain ⟨c, q, hdir⟩ := hlaid.dir
  have hvalid₄ : (fs₄.ent dp).valid = 1 := by
    rw [hdir]
    exact hvalid₃
  have hsmall₄ : (cs ++ new).length * fat.bytsPerClus < 2 ^ 32 := by
    have hcluster := hg.cluster
    have hsectors := hg.sectors_lt
    have hdiv := Nat.div_mul_le_self (32 * l.used.length +
      32 * (emakeSlots fs₃ ep (32 * l.used.length)).length) fat.bytsPerClus
    rcases le_max_iff.mp hlaid.reach with hold | hnew
    · exact (Nat.mul_le_mul_right _ hold).trans_lt hlt
    · have hreach := Nat.mul_le_mul_right fat.bytsPerClus hnew
      rw [Nat.add_mul, Nat.one_mul] at hreach
      omega
  have hstored₄ := hlaid.clus.stored hg hvalid₄ hsmall₄
  obtain ⟨-, z, hslots₄⟩ := hlaid.dirSlots_eq (length_of_mem_emakeSlots _ _ _) hstored₃ hstored₄
  rw [hslots₃] at hslots₄
  obtain ⟨added, hholds, hadded⟩ := hl.holds_created hcreatable z
  rw [← hslots₄] at hholds
  refine ⟨ep, fs₄.set ep { fs₄.ent ep with valid := 1 }, by simp [hcall, hfirst, hmake], ?_⟩
  intro fs'' hafter
  have hopen' : OpenDirectory fat (fs₄.set ep { fs₄.ent ep with valid := 1 }) dp (cs ++ new) :=
    hstored₄.toOpenDirectory.congr rfl (FileSystem.set_ent_of_ne _ _ hne.symm)
  obtain ⟨hopen'', hslots''⟩ := hafter.dirSlots_eq hopen'
  rw [FileSystem.set_disk] at hslots''
  rw [← hslots''] at hholds
  constructor
  · intro hsought''
    rw [hopen''.finds_iff hholds hsought'', lookupFile_append, habsent, Option.none_or, hadded,
      FileSystem.set_ent_self]
    constructor
    · rintro ⟨f, hf, -⟩
      by_contra hbad
      rw [if_neg hbad] at hf
      cases hf
    · intro hgood
      rw [if_pos hgood, ← hent₄]
      have hshows := hcreatable.shows
      rw [← hent₄] at hshows
      exact ⟨_, rfl, hshows⟩
  · intro old entry hold hfound hold''
    obtain ⟨f, hf, hdata⟩ :=
      (hopen.finds_iff (hslots ▸ hl.holds) hold).mp hfound
    rw [hopen''.finds_iff hholds hold'', lookupFile_append, hf]
    exact ⟨f, rfl, hdata⟩

end Creation

theorem holes_directoryClus : DirectoryClus pairFat holesDirectory 0 [2] := by
  have hmark : fatEntry pairFat holesDirectory.disk 2 = fat32Feoc := by decide
  refine ⟨⟨by decide, by decide⟩, ⟨.inr ⟨.cons (by decide) (.stop ?_), by simp, ?_⟩, by decide,
    by decide, fun _ => rfl⟩, by simp, by decide⟩
  · show fat32Eoc ≤ fatEntry pairFat holesDirectory.disk 2
    rw [hmark]
    decide
  · intro c hc
    rw [List.mem_singleton.mp hc]
    exact ⟨le_rfl, by decide⟩

/-- A file behind another one that has deleted slots in front of it. -/
theorem ealloc_found_behind_holes :
    ∃ ep fs', ealloc pairFat holesDirectory 0 [0x41] 0 = some (some ep, fs') ∧
      ∀ fs'', Afterwards pairFat 0 fs' fs'' →
        (Sought fs'' 0 [0x41] → (Finds pairFat fs'' 0 [0x41] (fs'.ent ep) ↔
          2 ≤ holesListing.used.length ∧ [(0x41 : Byte)].head? ≠ some 0xE5)) ∧
        ∀ old entry, Sought holesDirectory 0 old → Finds pairFat holesDirectory 0 old entry →
          Sought fs'' 0 old → Finds pairFat fs'' 0 old entry := by
  have habsent := holes_listed.2.2
  have hg : Geometry pairFat := by constructor <;> decide
  have hsought : Sought holesDirectory 0 [0x41] :=
    ⟨habsent.nonempty, habsent.chars, habsent.dot, habsent.dotdot, habsent.cached, by decide,
      ⟨1, by decide, by decide⟩⟩
  have hused : holesListing.used.length = 3 := rfl
  exact holes_directoryClus.ealloc_found_iff hg (by decide) (by decide) (by decide) (by decide)
    holes_listed.1 holes_listed.2.1 (by decide) (by decide) hsought
    (List.find?_eq_none.mpr fun f hf => Bool.eq_false_iff.mp (habsent.files f hf))
    (by rw [hused]; exact (by decide : _ = 0).le.trans (Nat.zero_le _))

end K210Os
