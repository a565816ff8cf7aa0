import K210Os.VolumeFull
import K210Os.DirectoryWrites
import K210Os.DirectoryScan

/-!
# New entries on a full volume

`emake` lets its directory grow slot by slot, and a new directory gets a cluster of its own
before. `ealloc` takes only clusters of the data region exactly where the volume has as many
free clusters as these add.
-/

namespace K210Os

/-- How many clusters the slots at `off` and the `n` behind it reach over. -/
def slotsReach (fat : Fat32) : ℕ → ℕ → ℕ
  | 0, off => off / fat.bytsPerClus + 1
  | n + 1, off => max (off / fat.bytsPerClus + 1) (slotsReach fat n ((off + 32) % 2 ^ 32))

/-- How many clusters of the directory the slots of `emake` reach over. -/
def emakeReach (fat : Fat32) (filename : ℕ → Byte) (off : ℕ) : ℕ :=
  if off ≤ 32 then off / fat.bytsPerClus + 1 else slotsReach fat (longSlots (strlen filename)) off

/-- A directory with the clusters `cs`. -/
structure DirectoryClus (fat : Fat32) (fs : FileSystem) (i : ℕ) (cs : List ℕ) : Prop where
  sound : SoundFat fat fs.disk
  file : FileOk fat fs.disk (fs.ent i) cs
  nonempty : cs ≠ []
  directory : (fs.ent i).isDirectory = true

/-- From `fs` to `fs'` the clusters `new` were appended to the directory `i`. -/
structure Grown (fat : Fat32) (i : ℕ) (cs new : List ℕ) (fs fs' : FileSystem) : Prop where
  clus : DirectoryClus fat fs' i (cs ++ new)
  keeps : Keeps fat {c | c ∈ cs ++ new} (DataClus fat) fs.disk fs'.disk
  free : (freeClusters fat fs'.disk).card + new.length = (freeClusters fat fs.disk).card
  names : SameNames fs fs'
  other : ∀ j ≠ i, fs'.ent j = fs.ent j

variable {fat : Fat32} {fs fs' fs'' : FileSystem} {cs new new' : List ℕ} {i j dp ep n off : ℕ}
  {de : Dentry}

theorem DirectoryClus.fileChain (h : DirectoryClus fat fs i cs) :
    FileChain fat fs.disk (fs.ent i).firstClus cs :=
  h.file.fileChain h.nonempty

/-- A directory whose clusters another step leaves alone. -/
theorem DirectoryClus.congr (h : DirectoryClus fat fs i cs) (hs : SoundFat fat fs'.disk)
    {own taken : Set ℕ} (hk : Keeps fat own taken fs.disk fs'.disk) (hout : ∀ c ∈ cs, c ∉ own)
    (hent : fs'.ent i = fs.ent i) : DirectoryClus fat fs' i cs where
  sound := hs
  file := by
    rw [hent]
    refine ⟨.inr (h.fileChain.congr fun c hc => ?_), h.file.long, h.file.size_lt, h.file.cursor⟩
    exact hk.entry c (h.fileChain.range c hc).2 (hout c hc)
  nonempty := h.nonempty
  directory := by
    rw [hent]
    exact h.directory

theorem Grown.refl (h : DirectoryClus fat fs i cs) : Grown fat i cs [] fs fs where
  clus := by
    rw [List.append_nil]
    exact h
  keeps := Keeps.refl _ _ _ _
  free := rfl
  names := sameNames_refl fs
  other _ _ := rfl

theorem Grown.trans (h : Grown fat i cs new fs fs') (k : Grown fat i (cs ++ new) new' fs' fs'') :
    Grown fat i cs (new ++ new') fs fs'' where
  clus := by
    rw [← List.append_assoc]
    exact k.clus
  keeps := by
    rw [← List.append_assoc]
    refine (h.keeps.mono ?_ le_rfl).trans k.keeps
    exact fun c hc => List.mem_append_left _ hc
  free := by
    have hfirst := h.free
    have hsecond := k.free
    rw [List.length_append]
    omega
  names := h.names.trans k.names
  other j hj := (k.other j hj).trans (h.other j hj)

theorem Grown.logged (h : Grown fat i cs new fs fs') :
    Logged Set.univ (DataClus fat) fs.disk fs'.disk :=
  h.keeps.logged.mono (Set.subset_univ _) le_rfl

/-! ## One slot -/

theorem later_putDentry (hrun : putDentry fat fs i off de = some fs') : Later fs.disk fs'.disk := by
  simp only [putDentry, relocEnt, Option.bind_eq_bind, Option.bind_eq_some_iff,
    Option.map_eq_some_iff] at hrun
  obtain ⟨_, ⟨⟨r, d₁, e₁⟩, hreloc, rfl⟩, ⟨put, d₂⟩, hwrite, hend⟩ := hrun
  obtain rfl := Option.some.inj hend
  exact (later_relocClus hreloc).trans (later_rwClusWrite hwrite)

/-- The clusters for a slot are free. -/
theorem DirectoryClus.putDentry_fits (hg : Geometry fat) (h : DirectoryClus fat fs i cs)
    (hoff : off % 32 = 0)
    (hroom : off / fat.bytsPerClus + 1 - cs.length ≤ (freeClusters fat fs.disk).card)
    (hrun : putDentry fat fs i off de = some fs') :
    ∃ new, Grown fat i cs new fs fs' ∧ new.length = off / fat.bytsPerClus + 1 - cs.length := by
  obtain ⟨new, d₁, c, hreloc, hc, hlen, hext⟩ :=
    relocClus_alloc hg h.sound h.fileChain (h.file.cursor h.nonempty) off hroom
  obtain ⟨d₂, hwrite, hw⟩ := rwClusWrite_eq hg
    (hext.chain.range _ (List.mem_of_getElem? hc)) d₁ (kernelCopy de) (fun _ _ => rfl)
    (by omega : 0 < 32) (slot_inside hg hoff)
  have hstep := (hext.fileStep hg h.fileChain).trans
    (hw.fileStep hg hext.sound hext.chain hc (slot_inside hg hoff))
  rw [List.append_nil] at hstep
  have hcur : ((fs.ent i).at c (off / fat.bytsPerClus)).curClus = c := rfl
  have heq : fs' = { fs with disk := d₂ }.set i ((fs.ent i).at c (off / fat.bytsPerClus)) := by
    have hput : putDentry fat fs i off de =
        some ({ fs with disk := d₂ }.set i ((fs.ent i).at c (off / fat.bytsPerClus))) := by
      simp only [putDentry, relocEnt, hreloc, Option.map_some, Option.bind_eq_bind,
        Option.bind_some, FileSystem.set, Function.update_self, hcur, hwrite]
      rfl
    exact Option.some.inj (hrun.symm.trans hput)
  subst heq
  have hcard : (freeClusters fat d₂).card = (freeClusters fat fs.disk).card - new.length :=
    hstep.card_free
  refine ⟨new, ⟨⟨hstep.sound, ?_, by simp [h.nonempty], ?_⟩,
    hstep.keeps.mono le_rfl fun c hc => (mem_freeClusters.mp (hstep.fresh c hc)).1, ?_,
    sameNames_set rfl rfl, fun j hj => FileSystem.set_ent_of_ne _ _ hj⟩, hlen⟩
  · rw [FileSystem.set_ent_self]
    refine ⟨.inr hstep.chain, h.file.long.trans ?_, h.file.size_lt, fun _ => hc⟩
    exact Nat.mul_le_mul_right _ (by rw [List.length_append]; omega)
  · rw [FileSystem.set_ent_self]
    exact h.directory
  · show (freeClusters fat d₂).card + new.length = _
    omega

theorem DirectoryClus.putDentry_strayed (hg : Geometry fat) (h : DirectoryClus fat fs i cs)
    (hfull : (freeClusters fat fs.disk).card < off / fat.bytsPerClus + 1 - cs.length)
    (hrun : putDentry fat fs i off de = some fs') : Strayed fat fs.disk fs'.disk := by
  simp only [putDentry, relocEnt, Option.bind_eq_bind, Option.bind_eq_some_iff,
    Option.map_eq_some_iff] at hrun
  obtain ⟨_, ⟨⟨r, d₁, e₁⟩, hreloc, rfl⟩, ⟨put, d₂⟩, hwrite, hend⟩ := hrun
  obtain rfl := Option.some.inj hend
  exact (relocClus_strayed hg h.sound h.fileChain (h.file.cursor h.nonempty) hfull hreloc).later
    (later_relocClus hreloc) (later_rwClusWrite hwrite)

/-! ## The slots of an entry -/

variable {filename : ℕ → Byte} {checksum : Byte} {entcnt off' : ℕ}

theorem emakeLongs_succ
    (hrun : emakeLongs fat i filename checksum entcnt (n + 1) fs off = some (fs', off')) :
    ∃ fs₁, (∃ de, putDentry fat fs i off de = some fs₁) ∧
      emakeLongs fat i filename checksum entcnt n fs₁ ((off + 32) % 2 ^ 32) = some (fs', off') := by
  rw [emakeLongs] at hrun
  obtain ⟨fs₁, hput, hrest⟩ := Option.bind_eq_some_iff.mp hrun
  exact ⟨fs₁, ⟨_, hput⟩, hrest⟩

theorem later_emakeLongs
    (hrun : emakeLongs fat i filename checksum entcnt n fs off = some (fs', off')) :
    Later fs.disk fs'.disk := by
  induction n generalizing fs off with
  | zero =>
      obtain ⟨rfl, -⟩ := Prod.mk.inj (Option.some.inj hrun)
      exact Logged.refl _ _ _
  | succ n ih =>
      obtain ⟨fs₁, ⟨de, hput⟩, hrest⟩ := emakeLongs_succ hrun
      exact (later_putDentry hput).trans (ih hrest)

/-- The clusters for the slots are free; those for the last one still are behind the loop. -/
theorem DirectoryClus.emakeLongs_fits (hg : Geometry fat) (h : DirectoryClus fat fs i cs)
    (hoff : off % 32 = 0)
    (hroom : slotsReach fat n off - cs.length ≤ (freeClusters fat fs.disk).card)
    (hrun : emakeLongs fat i filename checksum entcnt n fs off = some (fs', off')) :
    ∃ new, Grown fat i cs new fs fs' ∧ off' % 32 = 0 ∧
      off' / fat.bytsPerClus + 1 - (cs ++ new).length ≤ (freeClusters fat fs'.disk).card := by
  induction n generalizing fs off cs with
  | zero =>
      obtain ⟨rfl, rfl⟩ := Prod.mk.inj (Option.some.inj hrun)
      refine ⟨[], Grown.refl h, hoff, ?_⟩
      rw [List.append_nil]
      exact hroom
  | succ n ih =>
      obtain ⟨fs₁, ⟨de, hput⟩, hrest⟩ := emakeLongs_succ hrun
      rw [slotsReach] at hroom
      obtain ⟨new, hgrown, hlen⟩ := h.putDentry_fits hg hoff (by omega) hput
      have hfree := hgrown.free
      obtain ⟨new', hgrown', hoff', hlast⟩ := ih hgrown.clus (by omega)
        (by rw [List.length_append]; omega) hrest
      refine ⟨new ++ new', hgrown.trans hgrown', hoff', ?_⟩
      rw [← List.append_assoc]
      exact hlast

/-- The loop strays, or leaves it to the last slot. -/
theorem DirectoryClus.emakeLongs_strayed (hg : Geometry fat) (h : DirectoryClus fat fs i cs)
    (hoff : off % 32 = 0)
    (hfull : (freeClusters fat fs.disk).card < slotsReach fat n off - cs.length)
    (hrun : emakeLongs fat i filename checksum entcnt n fs off = some (fs', off')) :
    Strayed fat fs.disk fs'.disk ∨ ∃ new, Grown fat i cs new fs fs' ∧
      (freeClusters fat fs'.disk).card < off' / fat.bytsPerClus + 1 - (cs ++ new).length := by
  induction n generalizing fs off cs with
  | zero =>
      obtain ⟨rfl, rfl⟩ := Prod.mk.inj (Option.some.inj hrun)
      refine .inr ⟨[], Grown.refl h, ?_⟩
      rw [List.append_nil]
      exact hfull
  | succ n ih =>
      obtain ⟨fs₁, ⟨de, hput⟩, hrest⟩ := emakeLongs_succ hrun
      rw [slotsReach] at hfull
      by_cases hshort : (freeClusters fat fs.disk).card < off / fat.bytsPerClus + 1 - cs.length
      · exact .inl ((h.putDentry_strayed hg hshort hput).later (later_putDentry hput)
          (later_emakeLongs hrest))
      · obtain ⟨new, hgrown, hlen⟩ := h.putDentry_fits hg hoff (by omega) hput
        have hfree := hgrown.free
        rcases ih hgrown.clus (by omega) (by rw [List.length_append]; omega) hrest with
          hstrayed | ⟨new', hgrown', hlast⟩
        · exact .inl (hstrayed.earlier (later_putDentry hput) (later_emakeLongs hrest))
        · refine .inr ⟨new ++ new', hgrown.trans hgrown', ?_⟩
          rw [← List.append_assoc]
          exact hlast

/-- A call of `emake` writes one slot, or the long-name slots and one behind them. -/
theorem emake_cases (hrun : emake fat fs i ep off = some fs') :
    off % 32 = 0 ∧ (off ≤ 32 ∧ (∃ de, putDentry fat fs i off de = some fs') ∨
      32 < off ∧ ∃ checksum fs₁ off', emakeLongs fat i (fs.ent ep).filename checksum
        (longSlots (strlen (fs.ent ep).filename)) (longSlots (strlen (fs.ent ep).filename)) fs off =
          some (fs₁, off') ∧ ∃ de, putDentry fat fs₁ i off' de = some fs') := by
  rw [emake, Option.ite_none_left_eq_some] at hrun
  obtain ⟨hok, hrun⟩ := hrun
  refine ⟨not_not.mp (not_or.mp hok).2, ?_⟩
  by_cases hdot : off ≤ 32
  · rw [if_pos hdot] at hrun
    exact .inl ⟨hdot, _, hrun⟩
  · rw [if_neg hdot] at hrun
    obtain ⟨⟨fs₁, off'⟩, hlongs, hput⟩ := Option.bind_eq_some_iff.mp hrun
    rw [List.length_map, List.length_range] at hlongs
    exact .inr ⟨by omega, _, fs₁, off', hlongs, _, hput⟩

theorem later_emake (hrun : emake fat fs i ep off = some fs') : Later fs.disk fs'.disk := by
  obtain ⟨-, ⟨-, de, hput⟩ | ⟨-, checksum, fs₁, off', hlongs, de, hput⟩⟩ := emake_cases hrun
  · exact later_putDentry hput
  · exact (later_emakeLongs hlongs).trans (later_putDentry hput)

theorem DirectoryClus.emake_fits (hg : Geometry fat) (h : DirectoryClus fat fs i cs)
    (hroom : emakeReach fat (fs.ent ep).filename off - cs.length ≤ (freeClusters fat fs.disk).card)
    (hrun : emake fat fs i ep off = some fs') :
    ∃ new, Grown fat i cs new fs fs' ∧
      (off ≤ 32 → new.length = off / fat.bytsPerClus + 1 - cs.length) := by
  rw [emakeReach] at hroom
  obtain ⟨hoff, ⟨hdot, de, hput⟩ | ⟨hdot, checksum, fs₁, off', hlongs, de, hput⟩⟩ :=
    emake_cases hrun
  · rw [if_pos hdot] at hroom
    obtain ⟨new, hgrown, hlen⟩ := h.putDentry_fits hg hoff hroom hput
    exact ⟨new, hgrown, fun _ => hlen⟩
  · rw [if_neg (by omega)] at hroom
    obtain ⟨new, hgrown, hoff', hlast⟩ := h.emakeLongs_fits hg hoff hroom hlongs
    obtain ⟨new', hgrown', -⟩ := hgrown.clus.putDentry_fits hg hoff' hlast hput
    exact ⟨new ++ new', hgrown.trans hgrown', fun hle => absurd hle (by omega)⟩

/-- `emake` that has to append more clusters than are free strays. -/
theorem DirectoryClus.emake_strayed (hg : Geometry fat) (h : DirectoryClus fat fs i cs)
    (hfull : (freeClusters fat fs.disk).card < emakeReach fat (fs.ent ep).filename off - cs.length)
    (hrun : emake fat fs i ep off = some fs') : Strayed fat fs.disk fs'.disk := by
  rw [emakeReach] at hfull
  obtain ⟨hoff, ⟨hdot, de, hput⟩ | ⟨hdot, checksum, fs₁, off', hlongs, de, hput⟩⟩ :=
    emake_cases hrun
  · rw [if_pos hdot] at hfull
    exact h.putDentry_strayed hg hfull hput
  · rw [if_neg (by omega)] at hfull
    rcases h.emakeLongs_strayed hg hoff hfull hlongs with hstrayed | ⟨new, hgrown, hlast⟩
    · exact hstrayed.later (later_emakeLongs hlongs) (later_putDentry hput)
    · exact (hgrown.clus.putDentry_strayed hg hlast hput).earlier (later_emakeLongs hlongs)
        (later_putDentry hput)

/-! ## A new entry -/

variable {name : List Byte} {attr : ℕ}

/-- What `ealloc` does before the slots of the new entry: a new directory gets a cluster with
`.` and `..` in it. -/
def eallocFirst (fat : Fat32) (fs : FileSystem) (dp ep : ℕ) (name : List Byte) (attr off : ℕ) :
    Option FileSystem :=
  let entry := newEntry fs dp ep name attr off
  if attr = attrDirectory then do
    let (clus, d) := allocClus fat fs.disk
    let fs := { eallocEntry fs dp ep name attr off with disk := d }.set ep
      { entry with
        attr := entry.attr ||| attrDirectory
        firstClus := clus
        curClus := clus }
    let fs ← emake fat fs ep ep 0
    emake fat fs ep dp 32
  else some ((eallocEntry fs dp ep name attr off).set ep
    { entry with attr := entry.attr ||| attrArchive })

theorem eallocNew_eq (fat : Fat32) (fs : FileSystem) (dp ep : ℕ) (name : List Byte) (attr off : ℕ) :
    eallocNew fat fs dp ep name attr off =
      (eallocFirst fat fs dp ep name attr off).bind fun fs =>
        (emake fat fs dp ep off).map fun fs => fs.set ep { fs.ent ep with valid := 1 } := by
  simp only [eallocNew, eallocFirst, newEntry, Option.bind_eq_bind, Option.map_eq_bind]
  split
  · rw [Option.bind_assoc]
    rfl
  · rfl

/-- How many clusters a new entry of `dp` adds. -/
def newEntryAdds (fat : Fat32) (name : List Byte) (attr len off : ℕ) : ℕ :=
  emakeReach fat (cstring (strncpy (cstring name) fat32MaxFilename 0)) off - len +
    if attr = attrDirectory then 1 else 0

theorem later_eallocFirst (hrun : eallocFirst fat fs dp ep name attr off = some fs') :
    Later fs.disk fs'.disk := by
  rw [eallocFirst] at hrun
  simp only at hrun
  split at hrun
  · obtain ⟨fs₁, hself, hup⟩ := Option.bind_eq_some_iff.mp hrun
    exact ((later_allocClus fat fs.disk).trans (later_emake hself)).trans (later_emake hup)
  · obtain rfl := Option.some.inj hrun
    exact Logged.refl _ _ _

theorem DirectoryClus.edup (h : DirectoryClus fat fs i cs) :
    DirectoryClus fat (K210Os.edup fs i) i cs := by
  refine ⟨h.sound, ?_, h.nonempty, ?_⟩
  · rw [K210Os.edup, FileSystem.set_ent_self]
    exact ⟨h.file.chain, h.file.long, h.file.size_lt, h.file.cursor⟩
  · rw [K210Os.edup, FileSystem.set_ent_self]
    exact h.directory

/-- `.` and `..` do not leave the only cluster of a new directory. -/
theorem DirectoryClus.emake_dot (hg : Geometry fat) {c : ℕ} (h : DirectoryClus fat fs i [c])
    (hoff : off ≤ 32) (hrun : emake fat fs i ep off = some fs') : Grown fat i [c] [] fs fs' := by
  have hreach : off / fat.bytsPerClus + 1 = 1 := by
    have hpos := hg.sectors_pos
    rw [Nat.div_eq_of_lt (by rw [hg.cluster]; omega)]
  obtain ⟨new, hgrown, hlen⟩ := h.emake_fits hg (by
    rw [emakeReach, if_pos hoff, hreach]
    exact Nat.zero_le _) hrun
  have hnil : new = [] := List.eq_nil_of_length_eq_zero (by rw [hlen hoff, hreach]; rfl)
  rwa [hnil] at hgrown

theorem DirectoryClus.eallocFirst_fits (hg : Geometry fat) (h : DirectoryClus fat fs dp cs)
    (hne : ep ≠ dp)
    (hroom : (if attr = attrDirectory then 1 else 0) ≤ (freeClusters fat fs.disk).card)
    (hrun : eallocFirst fat fs dp ep name attr off = some fs') :
    DirectoryClus fat fs' dp cs ∧
      (freeClusters fat fs'.disk).card + (if attr = attrDirectory then 1 else 0) =
        (freeClusters fat fs.disk).card ∧
      (fs'.ent ep).filename = cstring (strncpy (cstring name) fat32MaxFilename 0) ∧
      Logged Set.univ (DataClus fat) fs.disk fs'.disk := by
  obtain ⟨hname, hattr, hsize, hfirst, hcur, hcnt⟩ := newEntry_fields fs dp ep name attr off
  have hother : ∀ (d : Disk) (e : Dirent),
      ({ eallocEntry fs dp ep name attr off with disk := d }.set ep e).ent dp =
        (K210Os.edup fs dp).ent dp := fun d e => by
    rw [FileSystem.set_ent_of_ne _ _ hne.symm, eallocEntry_eq]
    exact FileSystem.set_ent_of_ne _ _ hne.symm
  rw [eallocFirst] at hrun
  by_cases hdir : attr = attrDirectory
  · rw [if_pos hdir] at hrun hroom ⊢
    obtain ⟨c, d, halloc, ha⟩ :=
      allocClus_of_free hg h.sound.reserved (Finset.card_pos.mp hroom)
    have hstep := ha.fileStep hg h.sound
    have hcard : (freeClusters fat d).card = (freeClusters fat fs.disk).card - 1 := hstep.card_free
    simp only [halloc] at hrun
    obtain ⟨fs₂, hself, hup⟩ := Option.bind_eq_some_iff.mp hrun
    generalize hfs₁ : { eallocEntry fs dp ep name attr off with disk := d }.set ep
      { newEntry fs dp ep name attr off with
        attr := (newEntry fs dp ep name attr off).attr ||| attrDirectory
        firstClus := c
        curClus := c } = fs₁ at hself
    have hdisk₁ : fs₁.disk = d := by rw [← hfs₁]; rfl
    have hent₁ := hother d { newEntry fs dp ep name attr off with
      attr := (newEntry fs dp ep name attr off).attr ||| attrDirectory
      firstClus := c
      curClus := c }
    rw [hfs₁] at hent₁
    have hep : DirectoryClus fat fs₁ ep [c] := by
      rw [← hfs₁]
      refine ⟨hstep.sound, ?_, List.cons_ne_nil _ _, ?_⟩
      · rw [FileSystem.set_ent_self]
        refine ⟨.inr hstep.chain, by simp [hsize], by simp [hsize], fun _ => ?_⟩
        rw [OnChain]
        simp [hcnt]
      · rw [FileSystem.set_ent_self, Dirent.isDirectory]
        dsimp only
        rw [hattr, hdir]
        decide
    have hgrown := (hep.emake_dot hg (by decide) hself).trans
      ((hep.emake_dot hg (by decide) hself).clus.emake_dot hg le_rfl hup)
    have hout : ∀ x ∈ cs, x ∉ ({y | y ∈ [c]} : Set ℕ) := fun x hx hxc => by
      obtain rfl := List.mem_singleton.mp hxc
      exact h.fileChain.not_free hx ha.free
    have hkeeps : Keeps fat {y | y ∈ [c]} {y | y ∈ [c]} (K210Os.edup fs dp).disk fs₁.disk := by
      rw [hdisk₁]
      exact hstep.keeps
    have hdp₁ : DirectoryClus fat fs₁ dp cs :=
      h.edup.congr (hdisk₁ ▸ hstep.sound) hkeeps hout hent₁
    refine ⟨hdp₁.congr hgrown.clus.sound hgrown.keeps hout (hgrown.other dp hne.symm), ?_, ?_, ?_⟩
    · have hfree := hgrown.free
      rw [hdisk₁] at hfree
      simp only [List.append_nil, List.length_nil, Nat.add_zero] at hfree
      omega
    · rw [(hgrown.names ep).2, ← hfs₁, FileSystem.set_ent_self]
      exact hname
    · have hlog := hgrown.logged
      rw [hdisk₁] at hlog
      exact hstep.logged.trans hlog
  · rw [if_neg hdir] at hrun ⊢
    obtain rfl := Option.some.inj hrun
    refine ⟨h.edup.congr h.sound (Keeps.refl fat ∅ ∅ fs.disk) (by simp) (hother fs.disk _), rfl, ?_,
      Logged.refl _ _ _⟩
    rw [FileSystem.set_ent_self]
    exact hname

/-- A new entry whose clusters are free. -/
theorem DirectoryClus.eallocNew_fits (hg : Geometry fat) (h : DirectoryClus fat fs dp cs)
    (hne : ep ≠ dp)
    (hroom : newEntryAdds fat name attr cs.length off ≤ (freeClusters fat fs.disk).card)
    (hrun : eallocNew fat fs dp ep name attr off = some fs') :
    Logged Set.univ (DataClus fat) fs.disk fs'.disk := by
  rw [newEntryAdds] at hroom
  rw [eallocNew_eq] at hrun
  obtain ⟨fs₁, hfirst, hrun⟩ := Option.bind_eq_some_iff.mp hrun
  obtain ⟨fs₂, hslots, rfl⟩ := Option.map_eq_some_iff.mp hrun
  obtain ⟨hdp, hfree, hname, hlog⟩ := h.eallocFirst_fits hg hne (by omega) hfirst
  obtain ⟨new, hgrown, -⟩ := hdp.emake_fits hg (by rw [hname]; omega) hslots
  exact hlog.trans hgrown.logged

/-- A new entry for which too few clusters are free. -/
theorem DirectoryClus.eallocNew_strayed (hg : Geometry fat) (h : DirectoryClus fat fs dp cs)
    (hne : ep ≠ dp)
    (hfull : (freeClusters fat fs.disk).card < newEntryAdds fat name attr cs.length off)
    (hrun : eallocNew fat fs dp ep name attr off = some fs') : Strayed fat fs.disk fs'.disk := by
  rw [newEntryAdds] at hfull
  rw [eallocNew_eq] at hrun
  obtain ⟨fs₁, hfirst, hrun⟩ := Option.bind_eq_some_iff.mp hrun
  obtain ⟨fs₂, hslots, rfl⟩ := Option.map_eq_some_iff.mp hrun
  have hlater := later_eallocFirst hfirst
  have hlast : Later fs₁.disk fs₂.disk := later_emake hslots
  show Strayed fat fs.disk fs₂.disk
  by_cases hroom : (if attr = attrDirectory then 1 else 0) ≤ (freeClusters fat fs.disk).card
  · obtain ⟨hdp, hfree, hname, -⟩ := h.eallocFirst_fits hg hne hroom hfirst
    exact (hdp.emake_strayed hg (by rw [hname]; omega) hslots).earlier hlater hlast
  · -- no cluster for the new directory itself
    have hdir : attr = attrDirectory := by
      by_contra hfile
      rw [if_neg hfile] at hroom
      exact hroom (Nat.zero_le _)
    rw [if_pos hdir] at hroom
    have hnone : freeClusters fat fs.disk = ∅ := Finset.card_eq_zero.mp (by omega)
    rw [eallocFirst, if_pos hdir] at hfirst
    obtain ⟨fs₃, hself, hup⟩ := Option.bind_eq_some_iff.mp hfirst
    exact (allocClus_strayed hg h.sound hnone).later (later_allocClus fat fs.disk)
      ((later_emake hself).trans ((later_emake hup).trans hlast))

/-! ## What a lookup leaves of its directory -/

/-- From `fs` to `fs'` the position in directory `dp` moved on its chain, references were taken
and given back, and other entries changed. -/
structure Searched (dp : ℕ) (cs : List ℕ) (fs fs' : FileSystem) : Prop where
  disk : fs'.disk = fs.disk
  lru : fs'.lru = fs.lru
  filename : (fs'.ent dp).filename = (fs.ent dp).filename
  attr : (fs'.ent dp).attr = (fs.ent dp).attr
  firstClus : (fs'.ent dp).firstClus = (fs.ent dp).firstClus
  fileSize : (fs'.ent dp).fileSize = (fs.ent dp).fileSize
  valid : (fs'.ent dp).valid = (fs.ent dp).valid
  parent : (fs'.ent dp).parent = (fs.ent dp).parent
  cursor : OnChain (fs'.ent dp) cs
  held : 0 < (fs'.ent dp).ref

theorem Searched.refl (hcur : OnChain (fs.ent dp) cs) (hheld : 0 < (fs.ent dp).ref) :
    Searched dp cs fs fs :=
  ⟨rfl, rfl, rfl, rfl, rfl, rfl, rfl, rfl, hcur, hheld⟩

theorem Searched.trans (h : Searched dp cs fs fs') (k : Searched dp cs fs' fs'') :
    Searched dp cs fs fs'' :=
  ⟨k.disk.trans h.disk, k.lru.trans h.lru, k.filename.trans h.filename, k.attr.trans h.attr,
    k.firstClus.trans h.firstClus, k.fileSize.trans h.fileSize, k.valid.trans h.valid,
    k.parent.trans h.parent, k.cursor, k.held⟩

/-- A change of another entry. -/
theorem Searched.set (h : Searched dp cs fs fs') (hne : i ≠ dp) (e : Dirent) :
    Searched dp cs fs (fs'.set i e) := by
  have hent : (fs'.set i e).ent dp = fs'.ent dp := FileSystem.set_ent_of_ne _ _ hne.symm
  constructor
  case disk => exact h.disk
  case lru => exact h.lru
  all_goals rw [hent]
  exacts [h.filename, h.attr, h.firstClus, h.fileSize, h.valid, h.parent, h.cursor, h.held]

theorem Searched.edup (h : Searched dp cs fs fs') (i : ℕ) :
    Searched dp cs fs (K210Os.edup fs' i) := by
  by_cases hi : i = dp
  · subst hi
    have hent : (K210Os.edup fs' i).ent i = { fs'.ent i with ref := (fs'.ent i).ref + 1 } :=
      FileSystem.set_ent_self _ _ _
    constructor
    case disk => exact h.disk
    case lru => exact h.lru
    all_goals rw [hent]
    exacts [h.filename, h.attr, h.firstClus, h.fileSize, h.valid, h.parent, h.cursor,
      Int.add_pos h.held one_pos]
  · exact h.set hi _

theorem Searched.move (h : Searched dp cs fs fs') {c q : ℕ} (hc : cs[q]? = some c) :
    Searched dp cs fs (fs'.set dp ((fs'.ent dp).at c q)) := by
  have hent : (fs'.set dp ((fs'.ent dp).at c q)).ent dp = (fs'.ent dp).at c q :=
    FileSystem.set_ent_self _ _ _
  constructor
  case disk => exact h.disk
  case lru => exact h.lru
  all_goals rw [hent]
  exacts [h.filename, h.attr, h.firstClus, h.fileSize, h.valid, h.parent, hc, h.held]

theorem DirectoryClus.searched (h : DirectoryClus fat fs dp cs) (k : Searched dp cs fs fs') :
    DirectoryClus fat fs' dp cs where
  sound := by
    rw [k.disk]
    exact h.sound
  file := by
    refine ⟨?_, ?_, ?_, fun _ => k.cursor⟩
    · rw [k.disk, k.firstClus]
      exact h.file.chain
    · rw [k.fileSize]
      exact h.file.long
    · rw [k.fileSize]
      exact h.file.size_lt
  nonempty := h.nonempty
  directory := by
    rw [Dirent.isDirectory, k.attr]
    exact h.directory

theorem DirectoryClus.linkChain (hg : Geometry fat) (h : DirectoryClus fat fs i cs) :
    LinkChain fat fs.disk (fs.ent i).firstClus cs :=
  (h.fileChain.marked h.sound).link hg

/-- `reloc_clus` without allocation moves the position only. -/
theorem DirectoryClus.relocEnt_moves (hg : Geometry fat) (h : DirectoryClus fat fs dp cs) {r : ℕ}
    (hrun : relocEnt fat fs dp off false = some (r, fs')) :
    ∃ c q, cs[q]? = some c ∧ fs' = fs.set dp ((fs.ent dp).at c q) := by
  have hchain := h.linkChain hg
  have hcur := h.file.cursor h.nonempty
  rw [relocEnt] at hrun
  rcases Nat.lt_or_ge (off / fat.bytsPerClus) cs.length with hin | hout
  · have hc := List.getElem?_eq_getElem hin
    rw [hchain.relocClus_found hcur hc] at hrun
    exact ⟨_, _, hc, (Prod.mk.inj (Option.some.inj hrun)).2.symm⟩
  · rw [hchain.relocClus_missing hcur hout] at hrun
    exact ⟨_, _, hchain.head_eq, (Prod.mk.inj (Option.some.inj hrun)).2.symm⟩

theorem DirectoryClus.enextLoop_moves (hg : Geometry fat) (h : DirectoryClus fat fs dp cs)
    (hheld : 0 < (fs.ent dp).ref) {fuel : ℕ} {s s' : Enext} {code : ℤ} {info : Option Dentry}
    (hrun : enextLoop fat dp fuel fs off s = some (code, s', info, fs')) :
    ∃ c q, cs[q]? = some c ∧ fs' = fs.set dp ((fs.ent dp).at c q) := by
  induction fuel generalizing fs off s with
  | zero => cases hrun
  | succ fuel ih =>
      rw [enextLoop] at hrun
      obtain ⟨⟨r, fs₁⟩, hreloc, hrun⟩ := Option.bind_eq_some_iff.mp hrun
      obtain ⟨c, q, hc, rfl⟩ := h.relocEnt_moves hg hreloc
      have hsearched := (Searched.refl (h.file.cursor h.nonempty) hheld).move hc
      dsimp only at hrun
      split at hrun
      · obtain ⟨-, -, -, rfl⟩ := by simpa using hrun
        exact ⟨c, q, hc, rfl⟩
      obtain ⟨⟨got, de⟩, -, hrun⟩ := Option.bind_eq_some_iff.mp hrun
      dsimp only at hrun
      split at hrun
      · obtain ⟨-, -, -, rfl⟩ := by simpa using hrun
        exact ⟨c, q, hc, rfl⟩
      obtain ⟨next, -, hrun⟩ := Option.bind_eq_some_iff.mp hrun
      cases next with
      | more s₁ =>
          obtain ⟨c', q', hc', rfl⟩ := ih (h.searched hsearched) hsearched.held hrun
          refine ⟨c', q', hc', ?_⟩
          rw [FileSystem.set_set, FileSystem.set_ent_self]
          rfl
      | done code₁ s₁ info₁ =>
          obtain ⟨-, -, -, rfl⟩ := by simpa using hrun
          exact ⟨c, q, hc, rfl⟩

/-- `enext` reads into `ep`. -/
theorem DirectoryClus.enext_searched (hg : Geometry fat) (h : DirectoryClus fat fs dp cs)
    (hheld : 0 < (fs.ent dp).ref) (hne : ep ≠ dp) {code : ℤ} {count count' : ℕ}
    (hrun : enext fat fs dp ep off count = some (code, count', fs')) :
    Searched dp cs fs fs' ∧ (fs'.ent ep).valid = 0 := by
  have hsame := Searched.refl (h.file.cursor h.nonempty) hheld
  rw [enext, Option.ite_none_left_eq_some] at hrun
  obtain ⟨hok, hrun⟩ := hrun
  have hfree : (fs.ent ep).valid = 0 := by
    by_contra hused
    exact hok (.inr (.inl hused))
  split at hrun
  · obtain ⟨-, -, rfl⟩ := by simpa using hrun
    exact ⟨hsame, hfree⟩
  obtain ⟨⟨code₁, s, info, fs₁⟩, hloop, hrun⟩ := Option.bind_eq_some_iff.mp hrun
  obtain ⟨c, q, hc, rfl⟩ := h.enextLoop_moves hg hheld hloop
  obtain ⟨-, -, rfl⟩ := by simpa using hrun
  refine ⟨(hsame.move hc).set hne _, ?_⟩
  rw [FileSystem.set_ent_self, FileSystem.set_ent_of_ne _ _ hne]
  cases info <;> exact hfree

theorem DirectoryClus.dirlookupLoop_searched (hg : Geometry fat) (h : DirectoryClus fat fs dp cs)
    (hheld : 0 < (fs.ent dp).ref) (hne : ep ≠ dp) {fuel count : ℕ} {poff : Bool}
    {stored stored' found : Option ℕ}
    (hrun : dirlookupLoop fat name dp ep fuel fs off count poff stored =
      some (found, stored', fs')) : Searched dp cs fs fs' := by
  induction fuel generalizing fs off count poff stored with
  | zero => cases hrun
  | succ fuel ih =>
      rw [dirlookupLoop] at hrun
      obtain ⟨⟨code, count₁, fs₁⟩, hnext, hrun⟩ := Option.bind_eq_some_iff.mp hrun
      obtain ⟨hsearched, hfree⟩ := h.enext_searched hg hheld hne hnext
      by_cases hcode : code = -1
      · simp only [hcode, ne_eq, not_true_eq_false, if_false] at hrun
        obtain ⟨fs₂, hput, hrun⟩ := Option.bind_eq_some_iff.mp hrun
        obtain ⟨-, -, rfl⟩ := by simpa using hrun
        rw [eputFuel, eput, if_neg (by simp [hfree])] at hput
        obtain rfl := Option.some.inj hput
        exact hsearched.set hne _
      · simp only [hcode, ne_eq, not_false_eq_true, if_true, one_ne_zero, if_false] at hrun
        split at hrun
        · obtain ⟨-, -, rfl⟩ := by simpa using hrun
          exact (hsearched.edup dp).set hne _
        · exact hsearched.trans (ih (h.searched hsearched) hsearched.held hrun)

theorem edup_valid (fs : FileSystem) (i j : ℕ) :
    ((K210Os.edup fs i).ent j).valid = (fs.ent j).valid := by
  rw [K210Os.edup]
  rcases eq_or_ne j i with rfl | hne
  · rw [FileSystem.set_ent_self]
  · rw [FileSystem.set_ent_of_ne _ _ hne]

/-- `eget` returns a valid entry of the name, or where there is none takes another entry than the
directory's. -/
theorem eget_searched (hcur : OnChain (fs.ent dp) cs) (hheld : 0 < (fs.ent dp).ref)
    (hrun : eget fs dp name = some (ep, fs')) :
    Searched dp cs fs fs' ∧
      ((fs'.ent ep).valid = 1 ∧ ep ∈ fs.lru ∧ egetHit fs dp name ep ∨
        ep ≠ dp ∧ ∀ i ∈ fs.lru, ¬ egetHit fs dp name i) := by
  have hsame := Searched.refl hcur hheld
  rw [eget] at hrun
  cases hfind : fs.lru.find? (egetHit fs dp name) with
  | some i =>
      rw [hfind] at hrun
      obtain ⟨rfl, hfs⟩ := Prod.mk.inj (Option.some.inj hrun)
      have hhit := List.find?_some hfind
      have hvalid : (fs.ent i).valid = 1 := by
        simp only [egetHit, Bool.and_eq_true, beq_iff_eq] at hhit
        exact hhit.1.1
      rw [← hfs]
      refine ⟨?_, .inl ⟨?_, List.mem_of_find?_eq_some hfind, hhit⟩⟩
      · split
        · exact (hsame.edup _).edup _
        · exact hsame.edup _
      · split
        · rw [edup_valid, edup_valid, hvalid]
        · rw [edup_valid, hvalid]
  | none =>
      rw [hfind] at hrun
      obtain ⟨i, hfree, hi⟩ := Option.map_eq_some_iff.mp hrun
      obtain ⟨rfl, rfl⟩ := Prod.mk.inj hi
      have hne : i ≠ dp := by
        rintro rfl
        have hzero := List.find?_some hfree
        rw [beq_iff_eq] at hzero
        omega
      exact ⟨hsame.set hne _, .inr ⟨hne, List.find?_eq_none.mp hfind⟩⟩

/-- A lookup leaves the disk and the clusters of its directory; one that finds nothing has not
had an entry for the name in the cache. -/
theorem DirectoryClus.dirlookup_searched (hg : Geometry fat) (h : DirectoryClus fat fs dp cs)
    (hheld : 0 < (fs.ent dp).ref) {poff : Bool} {found stored : Option ℕ}
    (hrun : dirlookup fat fs dp name poff = some (found, stored, fs')) :
    Searched dp cs fs fs' ∧ (found = none → (fs.ent dp).valid = 1 →
      ∀ i ∈ fs.lru, ¬ egetHit fs dp name i) := by
  have hcur := h.file.cursor h.nonempty
  have hsame := Searched.refl hcur hheld
  rw [dirlookup, Option.ite_none_left_eq_some] at hrun
  obtain ⟨-, hrun⟩ := hrun
  split at hrun
  · obtain ⟨rfl, -, rfl⟩ := by simpa using hrun
    exact ⟨hsame.edup _, fun hnone => absurd hnone (Option.some_ne_none _)⟩
  split at hrun
  · obtain ⟨rfl, -, rfl⟩ := by simpa using hrun
    exact ⟨hsame.edup _, fun hnone => absurd hnone (Option.some_ne_none _)⟩
  split at hrun
  next hinvalid =>
    obtain ⟨rfl, -, rfl⟩ := by simpa using hrun
    exact ⟨hsame, fun _ hvalid => absurd hvalid hinvalid⟩
  next =>
    obtain ⟨⟨ep, fs₁⟩, hget, hrun⟩ := Option.bind_eq_some_iff.mp hrun
    obtain ⟨htaken, hself⟩ := eget_searched hcur hheld hget
    dsimp only at hrun
    by_cases hvalid : (fs₁.ent ep).valid = 1
    · rw [if_pos hvalid] at hrun
      obtain ⟨rfl, -, rfl⟩ := by simpa using hrun
      exact ⟨htaken, fun hnone => absurd hnone (Option.some_ne_none _)⟩
    · rw [if_neg hvalid] at hrun
      obtain ⟨⟨r, fs₂⟩, hreloc, hloop⟩ := Option.bind_eq_some_iff.mp hrun
      obtain ⟨hne, hmiss⟩ := hself.resolve_left fun hhit => hvalid hhit.1
      obtain ⟨c, q, hc, rfl⟩ := (h.searched htaken).relocEnt_moves hg hreloc
      have hmoved := htaken.move hc
      exact ⟨hmoved.trans ((h.searched hmoved).dirlookupLoop_searched hg hmoved.held hne hloop),
        fun _ _ => hmiss⟩

/-! ## The calls -/

/-- How many clusters a call of `ealloc` adds: none where it fails at once or finds the name. -/
def eallocAdds (fat : Fat32) (fs : FileSystem) (dp : ℕ) (name : List Byte) (attr len : ℕ) : ℕ :=
  if (fs.ent dp).valid ≠ 1 then 0
  else
    match formatname name with
    | none => 0
    | some name =>
        match dirlookup fat fs dp name true with
        | some (none, stored, _) => newEntryAdds fat name attr len (stored.getD 0)
        | _ => 0

/-- What is wanted of a call of `ealloc` that returns. -/
def EallocSafe (fat : Fat32) (fs : FileSystem) (dp : ℕ) (cs : List ℕ) (name : List Byte)
    (attr : ℕ) : Prop :=
  ∀ found fs', ealloc fat fs dp name attr = some (found, fs') →
    SafeCall fat {c | c ∈ cs} (eallocAdds fat fs dp name attr cs.length) (found = none) fs.disk
      fs'.disk

/-- A call of `ealloc` that returns writes nothing, or is the one of a new entry. -/
theorem DirectoryClus.ealloc_cases (hg : Geometry fat) (h : DirectoryClus fat fs dp cs)
    (hheld : 0 < (fs.ent dp).ref) {found : Option ℕ}
    (hrun : ealloc fat fs dp name attr = some (found, fs')) :
    fs'.disk = fs.disk ∧ eallocAdds fat fs dp name attr cs.length = 0 ∨
      ∃ name' off ep fs₁, DirectoryClus fat fs₁ dp cs ∧ fs₁.disk = fs.disk ∧ ep ≠ dp ∧
        eallocAdds fat fs dp name attr cs.length = newEntryAdds fat name' attr cs.length off ∧
        eallocNew fat fs₁ dp ep name' attr off = some fs' := by
  rw [eallocAdds]
  by_cases hvalid : (fs.ent dp).valid = 1
  · rw [if_neg (not_not.mpr hvalid)]
    cases hname : formatname name with
    | none =>
        rw [ealloc, if_neg (by simp [h.directory]), if_neg (not_not.mpr hvalid), hname] at hrun
        obtain ⟨-, rfl⟩ := Prod.mk.inj (Option.some.inj hrun)
        exact .inl ⟨rfl, rfl⟩
    | some name' =>
        have hcall := hrun
        rw [ealloc, if_neg (by simp [h.directory]), if_neg (not_not.mpr hvalid), hname] at hrun
        obtain ⟨⟨found₁, stored, fs₁⟩, hlookup, hrun⟩ := Option.bind_eq_some_iff.mp hrun
        obtain ⟨hsearched, hmiss⟩ := h.dirlookup_searched hg hheld hlookup
        dsimp only at hrun ⊢
        rw [hlookup]
        cases found₁ with
        | some ep =>
            obtain ⟨-, rfl⟩ := Prod.mk.inj (Option.some.inj hrun)
            exact .inl ⟨hsearched.disk, rfl⟩
        | none =>
            rw [if_neg (by simp)] at hrun
            obtain ⟨⟨ep, fs₂⟩, hget, hrun⟩ := Option.bind_eq_some_iff.mp hrun
            obtain ⟨htaken, hself⟩ := eget_searched hsearched.cursor hsearched.held hget
            have href : ¬ (fs₂.ent ep).ref < 1 := fun hlow => by
              dsimp only at hrun
              rw [if_pos hlow] at hrun
              cases hrun
            rw [ealloc_of_not_found h.directory hvalid hname hlookup hget href] at hcall
            obtain ⟨fs₃, hnew, heq⟩ := Option.map_eq_some_iff.mp hcall
            obtain ⟨-, rfl⟩ := Prod.mk.inj heq
            have hne : ep ≠ dp := by
              rintro rfl
              refine (hself.resolve_right fun hother => hother.1 rfl).elim fun _ hhit => ?_
              refine hmiss rfl hvalid ep (hsearched.lru ▸ hhit.1) ?_
              have heq : egetHit fs₁ ep name' ep = egetHit fs ep name' ep := by
                rw [egetHit, egetHit, hsearched.valid, hsearched.parent, hsearched.filename]
              exact heq ▸ hhit.2
            exact .inr ⟨name', _, ep, fs₂, h.searched (hsearched.trans htaken),
              htaken.disk.trans hsearched.disk, hne, rfl, hnew⟩
  · rw [if_pos hvalid]
    rw [ealloc, if_neg (by simp [h.directory]), if_pos hvalid] at hrun
    obtain ⟨-, rfl⟩ := Prod.mk.inj (Option.some.inj hrun)
    exact .inl ⟨rfl, rfl⟩

theorem eallocSafe_iff (hg : Geometry fat) (h : DirectoryClus fat fs dp cs)
    (hheld : 0 < (fs.ent dp).ref) :
    EallocSafe fat fs dp cs name attr ↔ ((ealloc fat fs dp name attr).isSome →
      eallocAdds fat fs dp name attr cs.length ≤ (freeClusters fat fs.disk).card) := by
  constructor
  · intro hsafe hreturns
    obtain ⟨⟨found, fs'⟩, hrun⟩ := Option.isSome_iff_exists.mp hreturns
    have hcall := hsafe found fs' hrun
    by_contra hfull
    rcases h.ealloc_cases hg hheld hrun with
      ⟨-, hzero⟩ | ⟨name', off, ep, fs₁, hclus, hdisk, hne, hadds, hnew⟩
    · omega
    · rw [hadds] at hfull hcall
      have hstrayed := hclus.eallocNew_strayed hg hne (by rw [hdisk]; omega) hnew
      rw [hdisk] at hstrayed
      exact hstrayed.not_safeCall (fun c hc => h.fileChain.range c hc) (by omega) hcall
  · intro hroom found fs' hrun
    have hroom := hroom (by rw [hrun]; rfl)
    rcases h.ealloc_cases hg hheld hrun with
      ⟨hdisk, -⟩ | ⟨name', off, ep, fs₁, hclus, hdisk, hne, hadds, hnew⟩
    · rw [hdisk]
      exact (Logged.refl ∅ (DataClus fat) fs.disk).safeCall (fun _ hc => hc) hroom
    · have hlog := hclus.eallocNew_fits hg hne (by rw [hdisk, ← hadds]; exact hroom) hnew
      rw [hdisk] at hlog
      exact hlog.safeCall (fun _ hc => hc) hroom

/-- The calls that allocate take only clusters of the data region, and write nothing else, where
the volume has as many free clusters as they add, and only there. -/
theorem allocation_safe_iff (hg : Geometry fat) (hs : SoundFat fat fs.disk)
    (h : FileOk fat fs.disk (fs.ent i) cs) :
    (∀ data off n, EwriteSafe fat fs.disk (fs.ent i) cs data off n ↔
      ewriteAdds fat (fs.ent i) data cs.length off n ≤ (freeClusters fat fs.disk).card) ∧
    (cs ≠ [] → ∀ off, RelocSafe fat fs.disk (fs.ent i) cs off ↔
      off / fat.bytsPerClus + 1 - cs.length ≤ (freeClusters fat fs.disk).card) ∧
    (cs ≠ [] → (fs.ent i).isDirectory = true → 0 < (fs.ent i).ref → ∀ name attr,
      EallocSafe fat fs i cs name attr ↔ ((ealloc fat fs i name attr).isSome →
        eallocAdds fat fs i name attr cs.length ≤ (freeClusters fat fs.disk).card)) :=
  ⟨fun _ _ _ => ewriteSafe_iff hg hs h,
    fun hne _ => relocSafe_iff hg hs (h.fileChain hne) (h.cursor hne),
    fun hne hdir hheld _ _ => eallocSafe_iff hg ⟨hs, h, hne, hdir⟩ hheld⟩

/-! ## Volumes with one free cluster, and with none -/

theorem pair_directoryClus : DirectoryClus pairFat pairDirectory 0 [2] := by
  have hmark : fatEntry pairFat pairDirectory.disk 2 = fat32Feoc := by decide
  refine ⟨⟨by decide, by decide⟩, ⟨.inr ⟨.cons (by decide) (.stop ?_), by simp, ?_⟩, by decide,
    by decide, fun _ => rfl⟩, by simp, by decide⟩
  · show fat32Eoc ≤ fatEntry pairFat pairDirectory.disk 2
    rw [hmark]
    decide
  · intro c hc
    rw [List.mem_singleton.mp hc]
    exact ⟨le_rfl, by decide⟩

/-- Every call that adds one cluster is safe. -/
theorem allocation_safe_pair :
    (∀ data off n, EwriteSafe pairFat pairDisk (pairDirectory.ent 0) [2] data off n ↔
      ewriteAdds pairFat (pairDirectory.ent 0) data 1 off n ≤
        (freeClusters pairFat pairDisk).card) ∧
    (∀ off, RelocSafe pairFat pairDisk (pairDirectory.ent 0) [2] off ↔
      off / 512 + 1 - 1 ≤ (freeClusters pairFat pairDisk).card) ∧
    ∀ name attr, EallocSafe pairFat pairDirectory 0 [2] name attr ↔
      ((ealloc pairFat pairDirectory 0 name attr).isSome →
        eallocAdds pairFat pairDirectory 0 name attr 1 ≤ (freeClusters pairFat pairDisk).card) := by
  have hg : Geometry pairFat := by constructor <;> decide
  obtain ⟨hewrite, hreloc, healloc⟩ :=
    allocation_safe_iff hg pair_directoryClus.sound pair_directoryClus.file
  exact ⟨hewrite, hreloc (by simp), healloc (by simp) (by decide) (by decide)⟩

/-- The clusters 2 and 3 are in use. -/
def fullDisk : Disk := ⟨store32 pairDisk.data 524 0x0FFFFFFF, [], []⟩

/-- `ewrite` behind the file gets number 4 from the padding of the FAT, tells no failure, and
writes behind the end of the volume. -/
theorem ewrite_leaves_volume :
    ((ewrite pairFat fullDisk pairEntry ⟨fun _ => 1, fun _ _ => true⟩ 512 1).map fun r =>
      (r.1, r.2.1.taken, r.2.1.written)) = some (1, [4], [4, 1, 4, 1]) ∧
    ¬ EwriteSafe pairFat fullDisk pairEntry [2] ⟨fun _ => 1, fun _ _ => true⟩ 512 1 := by
  have hrun : ((ewrite pairFat fullDisk pairEntry ⟨fun _ => 1, fun _ _ => true⟩ 512 1).map fun r =>
      (r.1, r.2.1.taken, r.2.1.written)) = some (1, [4], [4, 1, 4, 1]) := by decide +kernel
  refine ⟨hrun, ?_⟩
  rintro ⟨code, d', entry', hcall, htaken, -⟩
  rw [hcall] at hrun
  obtain ⟨-, htakes⟩ : code = 1 ∧ d'.taken = [4] ∧ _ := by simpa using hrun
  have hfour : (4 : ℕ) ∈ takenSince fullDisk d' := by
    rw [takenSince, htakes.1]
    decide
  exact absurd (htaken 4 hfour).2 (by decide)

end K210Os
