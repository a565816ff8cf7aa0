import K210Os.Directory
import K210Os.FileRuns

/-!
# Who writes the clusters of directories

The calls that open, read, write, make and close files, on the entries of one volume.
A system call is a sequence of these steps, each under the lock of its entry; what the
name lookup finds, and where, is the choice of the step. An entry has its number for
good: one that left the cache keeps its fields, and `load` reads them again from its
slot.
-/

namespace K210Os

open Transition

def oWronly : ℕ := 0x001
def oRdwr : ℕ := 0x002
def oAppend : ℕ := 0x004
def oTrunc : ℕ := 0x400

/-- A file of type `FD_ENTRY`. -/
structure OpenEntry where
  ep : ℕ
  off : ℕ
  readable : Bool
  writable : Bool

/-- The volume, and the open files of all processes. -/
structure OpenVolume (φ : Type*) where
  fs : FileSystem
  file : φ → Option OpenEntry

/-- `data` is the memory of the process with what its copies do. `ealloc` is that of a name
that was not found, with `off` the place for its slots; `scan` is `reloc_clus` of
`enext`, and `load` is `dirlookup` that finds the short-name slot of an entry at `slot`. -/
inductive VolumeCall (φ : Type*)
  | fileread (f : φ) (data : Transfer) (n : BitVec 32)
  | filewrite (f : φ) (data : Transfer) (n : BitVec 32)
  | fileopen (f : φ) (ep omode : ℕ)
  | fileclose (f : φ)
  | ealloc (dp ep : ℕ) (name : List Byte) (dir : Bool) (off : ℕ)
  | eupdate (ep : ℕ)
  | scan (dp off : ℕ)
  | load (dp ep off slot : ℕ)

/-- `ealloc` behind the lookup, with the entry that `eget` took. -/
def eallocNew (fat : Fat32) (fs : FileSystem) (dp ep : ℕ) (name : List Byte) (attr off : ℕ) :
    Option FileSystem := do
  let fs := eallocEntry fs dp ep name attr off
  let entry := fs.ent ep
  let fs ←
    if attr = attrDirectory then do
      let (clus, d) := allocClus fat fs.disk
      let fs := { fs with disk := d }.set ep
        { entry with
          attr := entry.attr ||| attrDirectory
          firstClus := clus
          curClus := clus }
      let fs ← emake fat fs ep ep 0
      emake fat fs ep dp 32
    else some (fs.set ep { entry with attr := entry.attr ||| attrArchive })
  let fs ← emake fat fs dp ep off
  return fs.set ep { fs.ent ep with valid := 1 }

/-- What `dirlookup` keeps of the slot that it found. -/
def loadEntry (fat : Fat32) (fs : FileSystem) (dp ep off slot : ℕ) : Option FileSystem := do
  let (off2, fs) ← relocEnt fat fs dp slot false
  let (_, de) ← rwClusRead fat fs.disk (fs.ent dp).curClus (kernelCopy []) off2 32
  return fs.set ep
    { readEntryInfo (fs.ent ep) de with parent := dp, off := off, valid := 1, dirty := false }

namespace OpenVolume

variable {φ : Type*} [DecidableEq φ]

def setFile (s : OpenVolume φ) (f : φ) (o : Option OpenEntry) : OpenVolume φ :=
  { s with file := Function.update s.file f o }

/-- The volume with the disk and the entry that a call on entry `ep` left. -/
def setEntry (s : OpenVolume φ) (ep : ℕ) (d : Disk) (entry : Dirent) : OpenVolume φ :=
  { s with fs := { s.fs with disk := d }.set ep entry }

def fileread (fat : Fat32) (s : OpenVolume φ) (f : φ) (data : Transfer) (n : BitVec 32) :
    Option (OpenVolume φ) :=
  match s.file f with
  | none => none
  | some o =>
      if !o.readable then some s
      else
        (eread fat s.fs.disk (s.fs.ent o.ep) data o.off n.toNat).map fun (r, _, d, entry) =>
          let s := s.setEntry o.ep d entry
          if 0 < r ∧ r < 2 ^ 31 then s.setFile f (some { o with off := (o.off + r) % 2 ^ 32 })
          else s

/-- `ewrite(..) == n` compares 32-bit integers. -/
def filewrite (fat : Fat32) (s : OpenVolume φ) (f : φ) (data : Transfer) (n : BitVec 32) :
    Option (OpenVolume φ) :=
  match s.file f with
  | none => none
  | some o =>
      if !o.writable then some s
      else
        (ewrite fat s.fs.disk (s.fs.ent o.ep) data o.off n.toNat).map fun (code, d, entry) =>
          let s := s.setEntry o.ep d entry
          if BitVec.ofInt 32 code = n then
            s.setFile f (some { o with off := (o.off + n.toNat) % 2 ^ 32 })
          else s

/-- `fileopen` behind the lookup; `filealloc` returned `f`. -/
def fileopen (fat : Fat32) (s : OpenVolume φ) (f : φ) (ep omode : ℕ) : Option (OpenVolume φ) :=
  if (s.file f).isSome then none
  else
    let truncated :=
      if !(s.fs.ent ep).isDirectory ∧ omode &&& oTrunc ≠ 0 then
        etrunc fat s.fs.disk (s.fs.ent ep)
      else some (s.fs.disk, s.fs.ent ep)
    truncated.map fun (d, entry) =>
      (s.setEntry ep d entry).setFile f
        (some
          { ep
            off := if omode &&& oAppend ≠ 0 then entry.fileSize else 0
            readable := omode &&& oWronly = 0
            writable := omode &&& oWronly ≠ 0 ∨ omode &&& oRdwr ≠ 0 })

def step (fat : Fat32) (s : OpenVolume φ) : VolumeCall φ → Option (OpenVolume φ)
  | .fileread f data n => s.fileread fat f data n
  | .filewrite f data n => s.filewrite fat f data n
  | .fileopen f ep omode => s.fileopen fat f ep omode
  | .fileclose f => some (s.setFile f none)
  | .ealloc dp ep name dir off =>
      if !(s.fs.ent dp).isDirectory then none
      else
        (eallocNew fat s.fs dp ep name (if dir then attrDirectory else 0) off).map fun fs =>
          { s with fs }
  | .eupdate ep => (K210Os.eupdate fat s.fs ep).map fun fs => { s with fs }
  | .scan dp off =>
      if !(s.fs.ent dp).isDirectory then none
      else (relocEnt fat s.fs dp off false).map fun (_, fs) => { s with fs }
  | .load dp ep off slot =>
      if !(s.fs.ent dp).isDirectory then none
      else (loadEntry fat s.fs dp ep off slot).map fun fs => { s with fs }

end OpenVolume

/-- What `ealloc` does behind a lookup that found nothing. -/
theorem ealloc_of_not_found {fat : Fat32} {fs fs₁ fs₂ : FileSystem} {dp ep attr : ℕ}
    {name name' : List Byte} {stored : Option ℕ} (hdir : (fs.ent dp).isDirectory = true)
    (hvalid : (fs.ent dp).valid = 1) (hname : formatname name = some name')
    (hlookup : dirlookup fat fs dp name' true = some (none, stored, fs₁))
    (hget : eget fs₁ dp name' = some (ep, fs₂)) (href : ¬ (fs₂.ent ep).ref < 1) :
    ealloc fat fs dp name attr =
      (eallocNew fat fs₂ dp ep name' attr (stored.getD 0)).map fun fs => (some ep, fs) := by
  simp only [ealloc, hdir, hvalid, hname, hlookup, hget, href, eallocNew, Option.bind_eq_bind,
    Option.bind_some, Option.isSome_none]
  simp only [Bool.not_true, Bool.false_eq_true, if_false, ne_eq, not_true_eq_false]
  split <;> simp only [Option.map_bind, Function.comp_def, Option.pure_def, Option.map_some]

/-! ## Steps inside the clusters of some entries -/

def FileSystem.files (fs : FileSystem) : Files ℕ := ⟨fs.disk, fs.ent⟩

/-- The entries have clusters of their own, and a directory has at least one. -/
structure VolumeOk (fat : Fat32) (fs : FileSystem) (chains : ℕ → List ℕ) : Prop where
  files : WellFormed fat fs.files chains
  directory : ∀ i, (fs.ent i).isDirectory = true → chains i ≠ []

/-- The clusters of the entries of `own`, and the free ones. -/
def reach (fat : Fat32) (own : Set ℕ) (fs : FileSystem) (chains : ℕ → List ℕ) : Set ℕ :=
  {c | (∃ i ∈ own, c ∈ chains i) ∨ c ∈ freeClusters fat fs.disk}

/-- From `fs` to `fs'` only clusters of the entries of `own` and free ones were used. -/
structure StaysWithin (fat : Fat32) (own : Set ℕ) (fs fs' : FileSystem) (chains chains' : ℕ → List ℕ) :
    Prop where
  ok : VolumeOk fat fs' chains'
  chain : ∀ j ∉ own, chains' j = chains j
  reach : reach fat own fs' chains' ⊆ reach fat own fs chains
  byte : ∀ x ∈ DataClus fat, x ∉ K210Os.reach fat own fs chains → ∀ k < 512 * fat.secPerClus,
    clusByte fat fs'.disk x k = clusByte fat fs.disk x k

section
variable {fat : Fat32} {fs fs' fs'' : FileSystem} {chains chains' chains'' : ℕ → List ℕ}
  {own own' : Set ℕ} {i dp ep off : ℕ} {d' : Disk} {e : Dirent} {cs new : List ℕ} {g : ℕ → Byte}

theorem StaysWithin.refl (h : VolumeOk fat fs chains) : StaysWithin fat own fs fs chains chains :=
  ⟨h, fun _ _ => rfl, fun _ h => h, fun _ _ _ _ _ => rfl⟩

theorem StaysWithin.trans (h : StaysWithin fat own fs fs' chains chains')
    (k : StaysWithin fat own fs' fs'' chains' chains'') :
    StaysWithin fat own fs fs'' chains chains'' where
  ok := k.ok
  chain j hj := (k.chain j hj).trans (h.chain j hj)
  reach := k.reach.trans h.reach
  byte x hx hout b hb := (k.byte x hx (fun hin => hout (h.reach hin)) b hb).trans
    (h.byte x hx hout b hb)

theorem reach_mono (hown : own ⊆ own') : reach fat own fs chains ⊆ reach fat own' fs chains := by
  rintro c (⟨i, hi, hc⟩ | hfree)
  · exact .inl ⟨i, hown hi, hc⟩
  · exact .inr hfree

theorem StaysWithin.mono (h : StaysWithin fat own fs fs' chains chains') (hown : own ⊆ own') :
    StaysWithin fat own' fs fs' chains chains' where
  ok := h.ok
  chain j hj := h.chain j fun hin => hj (hown hin)
  reach := by
    rintro c (⟨i, hi, hc⟩ | hfree)
    · by_cases hin : i ∈ own
      · exact reach_mono hown (h.reach (.inl ⟨i, hin, hc⟩))
      · rw [h.chain i hin] at hc
        exact .inl ⟨i, hi, hc⟩
    · exact reach_mono hown (h.reach (.inr hfree))
  byte x hx hout := h.byte x hx fun hin => hout (reach_mono hown hin)

/-- A cluster of an entry outside `own` is not reached. -/
theorem VolumeOk.not_reach (h : VolumeOk fat fs chains) (hi : i ∉ own) {c : ℕ}
    (hc : c ∈ chains i) : c ∉ reach fat own fs chains := by
  rintro (⟨j, hj, hmem⟩ | hfree)
  · have hne : j ≠ i := by
      rintro rfl
      exact hi hj
    exact h.files.apart hne hc (.inl hmem)
  · have hchain := (h.files.file i).fileChain (List.ne_nil_of_mem hc)
    exact hchain.not_free hc hfree

/-- Changing one entry, on its own clusters and free ones. -/
theorem VolumeOk.change (own taken : Set ℕ) (h : VolumeOk fat fs chains) (hs : SoundFat fat d')
    (hf : FileOk fat d' e cs) (hk : Keeps fat own taken fs.disk d')
    (hown : ∀ c ∈ own, c ∈ chains i ∨ c ∈ freeClusters fat fs.disk)
    (hcs : ∀ c ∈ cs, c ∈ chains i ∨ c ∈ freeClusters fat fs.disk)
    (hfree : ∀ c ∈ freeClusters fat d', c ∈ chains i ∨ c ∈ freeClusters fat fs.disk)
    (hdir : e.isDirectory = true → cs ≠ []) :
    StaysWithin fat {i} fs ({ fs with disk := d' }.set i e) chains (Function.update chains i cs) := by
  have hin : ∀ {c}, (c ∈ chains i ∨ c ∈ freeClusters fat fs.disk) →
      c ∈ K210Os.reach fat {i} fs chains := fun hc => hc.imp_left fun hmem => ⟨i, rfl, hmem⟩
  constructor
  case ok =>
    refine ⟨(h.files.change hs hf hk hown hcs).1, fun j hj => ?_⟩
    by_cases heq : j = i
    · subst j
      rw [Function.update_self]
      exact hdir (by simpa [FileSystem.set] using hj)
    · rw [Function.update_of_ne heq]
      exact h.directory j (by simpa [FileSystem.set, heq] using hj)
  case chain =>
    intro j hj
    exact Function.update_of_ne hj _ _
  case reach =>
    rintro c (⟨j, rfl, hc⟩ | hc)
    · rw [Function.update_self] at hc
      exact hin (hcs c hc)
    · exact hin (hfree c hc)
  case byte =>
    intro x hx hout k hk'
    exact hk.byte x hx (fun hmem => hout (hin (hown x hmem))) k hk'

variable (own) in
/-- Other fields of an entry, on the same disk. -/
theorem VolumeOk.set (h : VolumeOk fat fs chains) (hf : FileOk fat fs.disk e (chains i))
    (hdir : e.isDirectory = true → chains i ≠ []) :
    StaysWithin fat own fs (fs.set i e) chains chains := by
  have hstep := h.change ∅ ∅ h.files.sound hf (Keeps.refl fat ∅ ∅ fs.disk)
    (by simp) (fun c hc => .inl hc) (fun c hc => .inr hc) hdir
  rw [Function.update_eq_self] at hstep
  exact ⟨hstep.ok, fun _ _ => rfl, fun _ hc => hc, fun _ _ _ _ _ => rfl⟩

variable (own) in
/-- Fields that say nothing about the clusters of an entry. -/
theorem VolumeOk.touch (h : VolumeOk fat fs chains) (hfirst : e.firstClus = (fs.ent i).firstClus)
    (hsize : e.fileSize = (fs.ent i).fileSize) (hcur : e.curClus = (fs.ent i).curClus)
    (hcnt : e.clusCnt = (fs.ent i).clusCnt) (hattr : e.attr = (fs.ent i).attr) :
    StaysWithin fat own fs (fs.set i e) chains chains := by
  have hfile : FileOk fat fs.disk (fs.ent i) (chains i) := h.files.file i
  refine h.set own ⟨?_, ?_, ?_, fun hne => ?_⟩ fun hdir => h.directory i ?_
  · rw [hfirst]
    exact hfile.chain
  · rw [hsize]
    exact hfile.long
  · rw [hsize]
    exact hfile.size_lt
  · rw [OnChain, hcnt, hcur]
    exact hfile.cursor hne
  · rwa [Dirent.isDirectory, ← hattr]

variable (new) in
/-- The chain of an entry grows. -/
theorem VolumeOk.grow (h : VolumeOk fat fs chains) (first : ℕ)
    (hstep : FileStep fat first (chains i) new g fs.disk d')
    (hf : FileOk fat d' e (chains i ++ new))
    (hdir : e.isDirectory = true → chains i ++ new ≠ []) :
    StaysWithin fat {i} fs ({ fs with disk := d' }.set i e) chains
      (Function.update chains i (chains i ++ new)) := by
  have hown : ∀ c ∈ chains i ++ new, c ∈ chains i ∨ c ∈ freeClusters fat fs.disk := fun c hc =>
    (List.mem_append.mp hc).imp_right (hstep.fresh c)
  refine h.change _ _ hstep.sound hf hstep.keeps hown hown (fun c hc => .inr ?_) hdir
  rw [hstep.free] at hc
  exact (Finset.mem_sdiff.mp hc).1

/-! ## Slots of a directory -/

/-- A slot does not cross the end of a cluster. -/
theorem slot_inside (hg : Geometry fat) (hoff : off % 32 = 0) :
    off % fat.bytsPerClus + 32 ≤ fat.bytsPerClus := by
  have hpos := bytsPerClus_pos hg
  have hmod := Nat.mod_lt off hpos
  have hdvd : 32 ∣ fat.bytsPerClus := ⟨16 * fat.secPerClus, by rw [hg.cluster]; omega⟩
  have hrest : off % fat.bytsPerClus % 32 = 0 := by
    rw [Nat.mod_mod_of_dvd off hdvd]
    exact hoff
  obtain ⟨k, hk⟩ := hdvd
  omega

/-- The entries have the same attributes and names. -/
def SameNames (fs fs' : FileSystem) : Prop :=
  ∀ j, (fs'.ent j).attr = (fs.ent j).attr ∧ (fs'.ent j).filename = (fs.ent j).filename

theorem SameNames.trans (h : SameNames fs fs') (k : SameNames fs' fs'') : SameNames fs fs'' :=
  fun j => ⟨(k j).1.trans (h j).1, (k j).2.trans (h j).2⟩

theorem sameNames_set {d : Disk} (hattr : e.attr = (fs.ent i).attr)
    (hname : e.filename = (fs.ent i).filename) :
    SameNames fs ({ fs with disk := d }.set i e) := by
  intro j
  by_cases hj : j = i
  · subst j
    simp [FileSystem.set, hattr, hname]
  · simp [FileSystem.set, hj]

/-- The clusters that an entry has or can get. -/
def room (fat : Fat32) (fs : FileSystem) (chains : ℕ → List ℕ) (i : ℕ) : ℕ :=
  (chains i).length + (freeClusters fat fs.disk).card

/-- `fs'` came from `fs` by writing slots of directory `dp` up to the one at `last`. -/
structure SlotsPut (fat : Fat32) (dp last : ℕ) (fs fs' : FileSystem)
    (chains chains' : ℕ → List ℕ) : Prop where
  within : StaysWithin fat {dp} fs fs' chains chains'
  names : SameNames fs fs'
  room : room fat fs' chains' dp = room fat fs chains dp
  length : (chains' dp).length ≤ max (chains dp).length (last / fat.bytsPerClus + 1)
  nonempty : chains' dp ≠ []

theorem SlotsPut.trans {last : ℕ} (h : SlotsPut fat dp last fs fs' chains chains')
    (k : SlotsPut fat dp last fs' fs'' chains' chains'') :
    SlotsPut fat dp last fs fs'' chains chains'' where
  within := h.within.trans k.within
  names := h.names.trans k.names
  room := k.room.trans h.room
  length := by
    have := h.length
    have := k.length
    omega
  nonempty := k.nonempty

theorem putDentry_slots (h : VolumeOk fat fs chains) (hne : chains dp ≠ []) (de : Dentry)
    (hoff : off % 32 = 0) (last : ℕ) (hlast : off ≤ last)
    (hroom : last / fat.bytsPerClus + 1 ≤ room fat fs chains dp) :
    ∃ fs' chains', putDentry fat fs dp off de = some fs' ∧
      SlotsPut fat dp last fs fs' chains chains' := by
  have hg := h.files.geometry
  have hs : SoundFat fat fs.disk := h.files.sound
  have hfile : FileOk fat fs.disk (fs.ent dp) (chains dp) := h.files.file dp
  have hchain := hfile.fileChain hne
  have hunit : off / fat.bytsPerClus ≤ last / fat.bytsPerClus := Nat.div_le_div_right hlast
  rw [room] at hroom
  obtain ⟨new, d₁, c, hreloc, hc, hlen, hext⟩ :=
    relocClus_alloc hg hs hchain (hfile.cursor hne) off (by omega)
  obtain ⟨d₂, hwrite, hw⟩ := rwClusWrite_eq hg
    (hext.chain.range _ (List.mem_of_getElem? hc)) d₁ (kernelCopy de) (fun _ _ => rfl)
    (by omega : 0 < 32) (slot_inside hg hoff)
  have hstep := (hext.fileStep hg hchain).trans
    (hw.fileStep hg hext.sound hext.chain hc (slot_inside hg hoff))
  rw [List.append_nil] at hstep
  have hfile' : FileOk fat d₂ ((fs.ent dp).at c (off / fat.bytsPerClus)) (chains dp ++ new) := by
    refine ⟨.inr hstep.chain, hfile.long.trans ?_, hfile.size_lt, fun _ => hc⟩
    exact Nat.mul_le_mul_right _ (by rw [List.length_append]; omega)
  have hne' : chains dp ++ new ≠ [] := fun hnil => hne (List.append_eq_nil_iff.mp hnil).1
  have hwithin := h.grow _ _ hstep hfile' fun _ => hne'
  refine ⟨_, _, ?_, hwithin, sameNames_set rfl rfl, ?_, ?_, ?_⟩
  · have hcur : ((fs.ent dp).at c (off / fat.bytsPerClus)).curClus = c := rfl
    simp only [putDentry, relocEnt, hreloc, Option.map_some, Option.bind_eq_bind,
      Option.bind_some, FileSystem.set, Function.update_self, hcur, hwrite]
    rfl
  · have hcard := hstep.card_free
    have hle : new.length ≤ (freeClusters fat fs.disk).card := by omega
    simp only [room, Function.update_self, List.length_append]
    change (chains dp).length + new.length + (freeClusters fat d₂).card = _
    omega
  · simp only [Function.update_self, List.length_append]
    omega
  · rwa [Function.update_self]

theorem emakeLongs_slots (filename : ℕ → Byte) (checksum : Byte) (entcnt : ℕ) {last : ℕ} (n : ℕ)
    {fs : FileSystem} {chains : ℕ → List ℕ} {off : ℕ} (h : VolumeOk fat fs chains)
    (hne : chains dp ≠ []) (hoff : off % 32 = 0) (hlast : off + 32 * n ≤ last)
    (hroom : last / fat.bytsPerClus + 1 ≤ room fat fs chains dp) :
    ∃ fs' off' chains', emakeLongs fat dp filename checksum entcnt n fs off = some (fs', off') ∧
      off' % 32 = 0 ∧ off' ≤ last ∧
      SlotsPut fat dp last fs fs' chains chains' := by
  induction n generalizing fs chains off with
  | zero =>
      refine ⟨fs, off, chains, rfl, hoff, by omega, StaysWithin.refl h, fun _ => ⟨rfl, rfl⟩, rfl,
        Nat.le_max_left _ _, hne⟩
  | succ n ih =>
      obtain ⟨fs₁, chains₁, hput, hslot⟩ := putDentry_slots h hne
        (longDentry (if n + 1 = entcnt then (n + 1) ||| lastLongEntry else n + 1) checksum
          fun k => filename (n * charLongName + k)) hoff last (by omega) hroom
      have hnext : (off + 32) % 2 ^ 32 ≤ off + 32 := Nat.mod_le _ _
      obtain ⟨fs', off', chains', hrest, hoff', hlast', hslots⟩ := ih hslot.within.ok
        hslot.nonempty (show (off + 32) % 2 ^ 32 % 32 = 0 by omega) (by omega)
        (by rw [hslot.room]; exact hroom)
      refine ⟨fs', off', chains', ?_, hoff', hlast', hslot.trans hslots⟩
      simp only [emakeLongs, hput, Option.bind_eq_bind, Option.bind_some, hrest]

/-- The last slot that `emake` writes. -/
def emakeLast (filename : ℕ → Byte) (off : ℕ) : ℕ :=
  if off ≤ 32 then off else off + 32 * longSlots (strlen filename)

theorem emake_slots (h : VolumeOk fat fs chains) (hdir : (fs.ent dp).isDirectory = true)
    (ep : ℕ) (hoff : off % 32 = 0)
    (hroom : emakeLast (fs.ent ep).filename off / fat.bytsPerClus + 1 ≤ room fat fs chains dp) :
    ∃ fs' chains', emake fat fs dp ep off = some fs' ∧
      SlotsPut fat dp (emakeLast (fs.ent ep).filename off) fs fs' chains chains' := by
  have hne := h.directory dp hdir
  by_cases hdot : off ≤ 32
  · have hlast : emakeLast (fs.ent ep).filename off = off := by rw [emakeLast, if_pos hdot]
    rw [hlast] at hroom ⊢
    simp only [emake, hdir, hoff, Bool.not_true, Bool.false_eq_true, ne_eq, not_true_eq_false,
      or_self, if_false, if_pos hdot]
    exact putDentry_slots h hne _ hoff _ le_rfl hroom
  · have hlast : emakeLast (fs.ent ep).filename off =
        off + 32 * longSlots (strlen (fs.ent ep).filename) := by rw [emakeLast, if_neg hdot]
    obtain ⟨fs₁, off₁, chains₁, hlongs, hoff₁, hlast₁, hslots⟩ :=
      emakeLongs_slots (fs.ent ep).filename
        (calChecksum (generateShortname ((List.range (strlen (fs.ent ep).filename)).map
          (fs.ent ep).filename))) (longSlots (strlen (fs.ent ep).filename))
        (longSlots (strlen (fs.ent ep).filename)) h hne hoff hlast.ge hroom
    obtain ⟨fs', chains', hput, hslot⟩ := putDentry_slots hslots.within.ok hslots.nonempty
      (shortDentry (strncpy (cstring (generateShortname ((List.range
        (strlen (fs.ent ep).filename)).map (fs.ent ep).filename))) charShortName 0)
        (fs₁.ent ep).attr (fs₁.ent ep).firstClus (fs₁.ent ep).fileSize) hoff₁ _ hlast₁
      (by rw [hslots.room]; exact hroom)
    refine ⟨fs', chains', ?_, hslots.trans hslot⟩
    simp only [emake, hdir, hoff, Bool.not_true, Bool.false_eq_true, ne_eq, not_true_eq_false,
      or_self, if_false, if_neg hdot, List.length_map, List.length_range, hlongs,
      Option.bind_eq_bind, Option.bind_some, hput]

/-! ## Moving and updating -/

theorem sameNames_refl (fs : FileSystem) : SameNames fs fs := fun _ => ⟨rfl, rfl⟩

/-- Moving the position of an entry to cluster `c` of its chain. -/
theorem VolumeOk.move (h : VolumeOk fat fs chains) {c q : ℕ} (hne : chains dp ≠ [])
    (hc : (chains dp)[q]? = some c) :
    StaysWithin fat own fs (fs.set dp ((fs.ent dp).at c q)) chains chains := by
  have hfile : FileOk fat fs.disk (fs.ent dp) (chains dp) := h.files.file dp
  exact h.set _ ⟨hfile.chain, hfile.long, hfile.size_lt, fun _ => hc⟩ fun _ => hne

theorem relocEnt_found (h : VolumeOk fat fs chains) {c : ℕ}
    (hc : (chains dp)[off / fat.bytsPerClus]? = some c) :
    relocEnt fat fs dp off false =
      some (off % fat.bytsPerClus, fs.set dp ((fs.ent dp).at c (off / fat.bytsPerClus))) := by
  have hne : chains dp ≠ [] := List.ne_nil_of_mem (List.mem_of_getElem? hc)
  have hfile : FileOk fat fs.disk (fs.ent dp) (chains dp) := h.files.file dp
  have hreloc : relocClus fat fs.disk (fs.ent dp) off false =
      some (off % fat.bytsPerClus, fs.disk, (fs.ent dp).at c (off / fat.bytsPerClus)) :=
    relocClus_found h.files.geometry h.files.sound (hfile.fileChain hne) (hfile.cursor hne) hc false
  rw [relocEnt, hreloc]
  rfl

variable (own) in
/-- `reloc_clus` without allocation leaves the clusters as they are. -/
theorem relocEnt_stays (h : VolumeOk fat fs chains) (hne : chains dp ≠ []) (off : ℕ) :
    ∃ r c q, relocEnt fat fs dp off false = some (r, fs.set dp ((fs.ent dp).at c q)) ∧
      StaysWithin fat own fs (fs.set dp ((fs.ent dp).at c q)) chains chains := by
  have hfile : FileOk fat fs.disk (fs.ent dp) (chains dp) := h.files.file dp
  have hchain := hfile.fileChain hne
  rcases Nat.lt_or_ge (off / fat.bytsPerClus) (chains dp).length with hin | hout
  · have hc := List.getElem?_eq_getElem hin
    exact ⟨_, _, _, relocEnt_found h hc, h.move hne hc⟩
  · have hreloc : relocClus fat fs.disk (fs.ent dp) off false =
        some (minusOne, fs.disk, (fs.ent dp).at (fs.ent dp).firstClus 0) :=
      relocClus_missing h.files.geometry h.files.sound hchain (hfile.cursor hne) hout
    refine ⟨minusOne, (fs.ent dp).firstClus, 0, ?_, h.move hne hchain.head_eq⟩
    rw [relocEnt, hreloc]
    rfl

/-- A slot of a directory. -/
def slotAt (fat : Fat32) (d : Disk) (cs : List ℕ) (off : ℕ) : Dentry :=
  (List.range 32).map fun k => chainByte fat d cs (off + k)

/-- Reading at the position that `reloc_clus` found delivers the bytes of the chain. -/
theorem rwClusRead_slot (h : VolumeOk fat fs chains) {c n : ℕ}
    (hc : (chains dp)[off / fat.bytsPerClus]? = some c) (hn : 0 < n)
    (hin : off % fat.bytsPerClus + n ≤ fat.bytsPerClus) :
    rwClusRead fat fs.disk c (kernelCopy []) (off % fat.bytsPerClus) n =
      some (n, (List.range n).map fun k => chainByte fat fs.disk (chains dp) (off + k)) := by
  have hne : chains dp ≠ [] := List.ne_nil_of_mem (List.mem_of_getElem? hc)
  have hfile : FileOk fat fs.disk (fs.ent dp) (chains dp) := h.files.file dp
  have hrange := (hfile.fileChain hne).range _ (List.mem_of_getElem? hc)
  rw [rwClusRead_eq h.files.geometry hrange fs.disk (kernelCopy []) (fun _ _ => rfl) hn hin]
  congr 2
  refine List.map_congr_left fun k hk => ?_
  exact (chainByte_unit h.files.geometry hc hin (List.mem_range.mp hk)).symm

variable (own) in
/-- Going to an offset inside a chain and reading there. -/
theorem relocEnt_read (h : VolumeOk fat fs chains) (hlt : off < (chains dp).length * fat.bytsPerClus) :
    ∃ fs' c, relocEnt fat fs dp off false = some (off % fat.bytsPerClus, fs') ∧
      fs'.disk = fs.disk ∧ (fs'.ent dp).curClus = c ∧
      (chains dp)[off / fat.bytsPerClus]? = some c ∧
      (∀ n, 0 < n → off % fat.bytsPerClus + n ≤ fat.bytsPerClus →
        rwClusRead fat fs.disk c (kernelCopy []) (off % fat.bytsPerClus) n =
          some (n, (List.range n).map fun k => chainByte fat fs.disk (chains dp) (off + k))) ∧
      StaysWithin fat own fs fs' chains chains ∧ SameNames fs fs' := by
  have hq := (Nat.div_lt_iff_lt_mul (bytsPerClus_pos h.files.geometry)).mpr hlt
  have hc := List.getElem?_eq_getElem hq
  refine ⟨_, (chains dp)[off / fat.bytsPerClus], relocEnt_found h hc, rfl, ?_, hc, fun n hn hin => ?_,
    h.move (List.ne_nil_of_mem (List.mem_of_getElem? hc)) hc, sameNames_set rfl rfl⟩
  · simp [FileSystem.set, Dirent.at]
  · exact rwClusRead_slot h hc hn hin

/-- Writing inside a cluster of an entry. -/
theorem VolumeOk.write (h : VolumeOk fat fs chains) {c q a n : ℕ} {src : ℕ → Byte}
    (hc : (chains dp)[q]? = some c) (hw : ClusWrite fat c a n src fs.disk d')
    (ha : a + n ≤ fat.bytsPerClus) :
    StaysWithin fat {dp} fs { fs with disk := d' } chains chains := by
  have hne : chains dp ≠ [] := List.ne_nil_of_mem (List.mem_of_getElem? hc)
  have hfile : FileOk fat fs.disk (fs.ent dp) (chains dp) := h.files.file dp
  have hstep := hw.fileStep h.files.geometry h.files.sound (hfile.fileChain hne) hc ha
  have hfile' : FileOk fat d' (fs.ent dp) (chains dp ++ []) := by
    have hchain := hstep.chain
    rw [List.append_nil] at hchain ⊢
    exact ⟨.inr hchain, hfile.long, hfile.size_lt, hfile.cursor⟩
  have hwithin := h.grow _ _ hstep hfile' fun _ => by rwa [List.append_nil]
  rw [List.append_nil, Function.update_eq_self] at hwithin
  rwa [show ({ fs with disk := d' } : FileSystem).set dp (fs.ent dp) = { fs with disk := d' } by
    simp [FileSystem.set]] at hwithin

/-- The slots of an entry lie in its directory: the first one, and the one behind as many as
the first one says. -/
def SlotsInside (fat : Fat32) (fs : FileSystem) (ep : ℕ) : Prop :=
  ∀ cs, ChainOf fat fs.disk (fs.ent (fs.ent ep).parent).firstClus cs →
    let off := (fs.ent ep).off
    let entcnt := dropLast (chainByte fat fs.disk cs off).toNat
    off % 32 = 0 ∧ off < cs.length * fat.bytsPerClus ∧
      (off + entcnt <<< 5) % 2 ^ 32 < cs.length * fat.bytsPerClus

theorem eupdate_within (h : VolumeOk fat fs chains) (hslots : SlotsInside fat fs ep) :
    ∃ fs', eupdate fat fs ep = some fs' ∧
      StaysWithin fat {(fs.ent ep).parent} fs fs' chains chains ∧ SameNames fs fs' := by
  by_cases hskip : (!(fs.ent ep).dirty) = true ∨ (fs.ent ep).valid ≠ 1
  · exact ⟨fs, by rw [eupdate]; simp only [if_pos hskip], StaysWithin.refl h, sameNames_refl fs⟩
  have hg := h.files.geometry
  have hpos := bytsPerClus_pos hg
  obtain ⟨halign, hlt₁, hlt₂⟩ :=
    hslots (chains (fs.ent ep).parent) (h.files.file (fs.ent ep).parent).chain
  generalize hcnt : dropLast (chainByte fat fs.disk (chains (fs.ent ep).parent)
    (fs.ent ep).off).toNat = entcnt at hlt₂
  generalize hslot₂ : ((fs.ent ep).off + entcnt <<< 5) % 2 ^ 32 = slot at hlt₂
  have halign₂ : slot % 32 = 0 := by
    rw [← hslot₂, Nat.shiftLeft_eq]
    omega
  -- the first slot says where the short-name slot is
  obtain ⟨fs₁, c₁, hreloc₁, hdisk₁, hcur₁, -, hread₁, hw₁, hn₁⟩ :=
    relocEnt_read {(fs.ent ep).parent} h hlt₁
  obtain ⟨fs₂, c₂, hreloc₂, hdisk₂, hcur₂, hc₂, hread₂, hw₂, hn₂⟩ :=
    relocEnt_read {(fs.ent ep).parent} hw₁.ok hlt₂
  rw [hdisk₁] at hdisk₂ hread₂
  have horder := hread₁ 1 Nat.one_pos (Nat.mod_lt _ hpos)
  have hslot := hread₂ 32 (by omega) (slot_inside hg halign₂)
  have hrange : c₂ ∈ DataClus fat :=
    ((h.files.file _).fileChain (List.ne_nil_of_mem (List.mem_of_getElem? hc₂))).range c₂
      (List.mem_of_getElem? hc₂)
  obtain ⟨d', hwrite, hput⟩ := rwClusWrite_eq hg hrange fs₂.disk
    (kernelCopy (Dentry.withFields (slotAt fat fs.disk (chains (fs.ent ep).parent) slot)
      (fs.ent ep).firstClus (fs.ent ep).fileSize)) (fun _ _ => rfl) (by omega : 0 < 32)
    (slot_inside hg halign₂)
  have hw₃ := hw₂.ok.write hc₂ hput (slot_inside hg halign₂)
  have hw₄ := hw₃.ok.touch {(fs.ent ep).parent} (i := ep)
    (e := { fs₂.ent ep with dirty := false }) rfl rfl rfl rfl rfl
  refine ⟨_, ?_, ((hw₁.trans hw₂).trans hw₃).trans hw₄, ?_⟩
  · have hbyte : Dentry.byte ((List.range 1).map fun k =>
        chainByte fat fs.disk (chains (fs.ent ep).parent) ((fs.ent ep).off + k)) 0 =
        chainByte fat fs.disk (chains (fs.ent ep).parent) (fs.ent ep).off := rfl
    rw [hdisk₂] at hwrite
    rw [eupdate]
    simp only [if_neg hskip, hreloc₁, hdisk₁, hcur₁, horder, Option.bind_eq_bind, Option.bind_some,
      hbyte, hcnt, hslot₂, hreloc₂, hdisk₂, hcur₂, hslot]
    rw [← slotAt, hwrite]
    rfl
  · exact (hn₁.trans hn₂).trans (sameNames_set rfl rfl)

/-- The slot at `slot` of the directory says of entry `ep` what the entry keeps. -/
def SlotTells (fat : Fat32) (fs : FileSystem) (dp ep slot : ℕ) : Prop :=
  ∀ cs, ChainOf fat fs.disk (fs.ent dp).firstClus cs →
    let info := readEntryInfo (fs.ent ep) (slotAt fat fs.disk cs slot)
    slot % 32 = 0 ∧ slot < cs.length * fat.bytsPerClus ∧ info.attr = (fs.ent ep).attr ∧
      info.firstClus = (fs.ent ep).firstClus ∧ info.fileSize = (fs.ent ep).fileSize

theorem loadEntry_within {slot : ℕ} (off : ℕ) (h : VolumeOk fat fs chains)
    (htells : SlotTells fat fs dp ep slot) :
    ∃ fs', loadEntry fat fs dp ep off slot = some fs' ∧ fs'.disk = fs.disk ∧
      VolumeOk fat fs' chains ∧ ∀ j, (fs'.ent j).attr = (fs.ent j).attr := by
  have hg := h.files.geometry
  obtain ⟨halign, hlt, hattr, hfirst, hsize⟩ := htells (chains dp) (h.files.file dp).chain
  obtain ⟨fs₁, c, hreloc, hdisk, hcur, -, hread, hw, hn⟩ := relocEnt_read ∅ h hlt
  have hslot := hread 32 (by omega) (slot_inside hg halign)
  rw [← slotAt] at hslot
  have hfile : FileOk fat fs.disk (fs.ent ep) (chains ep) := h.files.file ep
  generalize hloaded : { readEntryInfo (fs₁.ent ep) (slotAt fat fs.disk (chains dp) slot) with
    parent := dp, off := off, valid := 1, dirty := false } = loaded
  have hfile' : FileOk fat fs₁.disk loaded (chains ep) := by
    rw [hdisk, ← hloaded]
    refine ⟨hfirst ▸ hfile.chain, hsize ▸ hfile.long, hsize ▸ hfile.size_lt, fun hne => ?_⟩
    have hhead := (hfile.fileChain hne).head_eq
    rwa [← hfirst] at hhead
  have hattr' : loaded.attr = (fs.ent ep).attr := by
    rw [← hloaded]
    exact hattr
  have hok := hw.ok.set ∅ hfile' fun hdir =>
    h.directory ep (by rwa [Dirent.isDirectory, ← hattr'])
  refine ⟨fs₁.set ep loaded, ?_, hdisk, hok.ok, fun j => ?_⟩
  · simp only [loadEntry, hreloc, hdisk, hcur, hslot, Option.bind_eq_bind, Option.bind_some,
      hloaded]
    rfl
  · by_cases hj : j = ep
    · subst j
      simpa [FileSystem.set] using hattr'
    · simpa [FileSystem.set, hj] using (hn j).1

/-! ## A new entry -/

/-- The entry that `ealloc` fills in, before it gets a cluster. -/
def newEntry (fs : FileSystem) (dp ep : ℕ) (name : List Byte) (attr off : ℕ) : Dirent :=
  (eallocEntry fs dp ep name attr off).ent ep

theorem eallocEntry_eq (fs : FileSystem) (dp ep : ℕ) (name : List Byte) (attr off : ℕ) :
    eallocEntry fs dp ep name attr off =
      (edup fs dp).set ep (newEntry fs dp ep name attr off) := by
  simp [newEntry, eallocEntry, FileSystem.set]

theorem newEntry_fields (fs : FileSystem) (dp ep : ℕ) (name : List Byte) (attr off : ℕ) :
    (newEntry fs dp ep name attr off).filename =
        cstring (strncpy (cstring name) fat32MaxFilename 0) ∧
      (newEntry fs dp ep name attr off).attr = attr % 256 ∧
      (newEntry fs dp ep name attr off).fileSize = 0 ∧
      (newEntry fs dp ep name attr off).firstClus = 0 ∧
      (newEntry fs dp ep name attr off).curClus = 0 ∧
      (newEntry fs dp ep name attr off).clusCnt = 0 := by
  simp [newEntry, eallocEntry, FileSystem.set]

variable (own) in
theorem edup_within (h : VolumeOk fat fs chains) (i : ℕ) :
    StaysWithin fat own fs (edup fs i) chains chains :=
  h.touch own rfl rfl rfl rfl rfl

theorem sameNames_edup (fs : FileSystem) (i : ℕ) : SameNames fs (edup fs i) :=
  sameNames_set (d := fs.disk) rfl rfl

/-- A new file has no cluster. -/
theorem newFile_within (dp off : ℕ) (h : VolumeOk fat fs chains) (hep : chains ep = [])
    (name : List Byte) :
    StaysWithin fat own (edup fs dp) ((eallocEntry fs dp ep name 0 off).set ep
      { newEntry fs dp ep name 0 off with
        attr := (newEntry fs dp ep name 0 off).attr ||| attrArchive }) chains chains := by
  obtain ⟨-, hattr, hsize, hfirst, -⟩ := newEntry_fields fs dp ep name 0 off
  have hset : (eallocEntry fs dp ep name 0 off).set ep
      { newEntry fs dp ep name 0 off with
        attr := (newEntry fs dp ep name 0 off).attr ||| attrArchive } =
      (edup fs dp).set ep { newEntry fs dp ep name 0 off with
        attr := (newEntry fs dp ep name 0 off).attr ||| attrArchive } := by
    rw [eallocEntry_eq]
    simp [FileSystem.set]
  rw [hset]
  refine (edup_within own h dp).ok.set own
    ⟨.inl ⟨hfirst, hep⟩, ?_, ?_, fun hne => absurd hep hne⟩ ?_
  · simp [hsize]
  · simp [hsize]
  · intro hdir
    simp [Dirent.isDirectory, hattr, attrArchive, attrDirectory] at hdir

/-- A new directory has one cluster. -/
theorem newDirectory_within (dp off : ℕ) (h : VolumeOk fat fs chains) (hep : chains ep = [])
    (name : List Byte)
    (hfree : (freeClusters fat fs.disk).Nonempty) :
    ∃ c d, allocClus fat fs.disk = (c, d) ∧
      (freeClusters fat d).card + 1 = (freeClusters fat fs.disk).card ∧
      StaysWithin fat {ep} (edup fs dp)
        ({ eallocEntry fs dp ep name attrDirectory off with disk := d }.set ep
          { newEntry fs dp ep name attrDirectory off with
            attr := (newEntry fs dp ep name attrDirectory off).attr ||| attrDirectory
            firstClus := c
            curClus := c }) chains (Function.update chains ep [c]) := by
  have hg := h.files.geometry
  obtain ⟨c, d, halloc, ha⟩ := allocClus_of_free hg h.files.sound.reserved hfree
  have hstep := ha.fileStep hg h.files.sound
  obtain ⟨-, hattr, hsize, hfirst, hcur, hcnt⟩ := newEntry_fields fs dp ep name attrDirectory off
  have hcard : (freeClusters fat d).card + 1 = (freeClusters fat fs.disk).card := by
    have hpos := Finset.card_pos.mpr hfree
    have hless : (freeClusters fat d).card = (freeClusters fat fs.disk).card - 1 := hstep.card_free
    omega
  have hset : { eallocEntry fs dp ep name attrDirectory off with disk := d }.set ep
      { newEntry fs dp ep name attrDirectory off with
        attr := (newEntry fs dp ep name attrDirectory off).attr ||| attrDirectory
        firstClus := c
        curClus := c } =
      { edup fs dp with disk := d }.set ep
      { newEntry fs dp ep name attrDirectory off with
        attr := (newEntry fs dp ep name attrDirectory off).attr ||| attrDirectory
        firstClus := c
        curClus := c } := by
    rw [eallocEntry_eq]
    simp [FileSystem.set]
  refine ⟨c, d, halloc, hcard, ?_⟩
  rw [hset]
  have hgrow := (edup_within {ep} h dp).ok.grow [c] c (i := ep)
    (g := chainByte fat fs.disk [])
    (e := { newEntry fs dp ep name attrDirectory off with
      attr := (newEntry fs dp ep name attrDirectory off).attr ||| attrDirectory
      firstClus := c
      curClus := c }) (by rw [hep]; exact hstep)
    ⟨.inr (by rw [hep]; exact hstep.chain), by simp [hsize], by simp [hsize], fun _ => by
      rw [OnChain, hep, hcnt]
      rfl⟩ (fun _ => by rw [hep]; simp)
  rwa [hep, List.nil_append] at hgrow

/-- `emake` panics at an offset inside a slot, and so does `ealloc`. -/
theorem eallocNew_aligned {name : List Byte} {attr : ℕ}
    (hrun : eallocNew fat fs dp ep name attr off = some fs') : off % 32 = 0 := by
  by_contra hoff
  have hpanic : ∀ fs : FileSystem, emake fat fs dp ep off = none := fun fs => by
    simp [emake, hoff]
  simp [eallocNew, hpanic] at hrun

/-- Room for the slots of a name in directory `dp`, and for the cluster of a new directory. -/
def HasSlotRoom (fat : Fat32) (fs : FileSystem) (dp : ℕ) (name : List Byte) (dir : Bool)
    (off : ℕ) : Prop :=
  ∀ cs, ChainOf fat fs.disk (fs.ent dp).firstClus cs →
    emakeLast (cstring (strncpy (cstring name) fat32MaxFilename 0)) off / fat.bytsPerClus + 1 -
      cs.length + (if dir then 1 else 0) ≤ (freeClusters fat fs.disk).card

/-- The last slots that `ealloc` writes are those in the parent directory. -/
theorem eallocNew_emake {fs₂ : FileSystem} {chains₂ : ℕ → List ℕ} (name : List Byte)
    (hdir : (fs.ent dp).isDirectory = true) (hne : dp ≠ ep) (hoff : off % 32 = 0)
    (hw : StaysWithin fat {dp, ep} fs fs₂ chains chains₂)
    (hattr : ∀ j ≠ ep, (fs₂.ent j).attr = (fs.ent j).attr)
    (hname : (fs₂.ent ep).filename = cstring (strncpy (cstring name) fat32MaxFilename 0))
    (hroom : emakeLast (cstring (strncpy (cstring name) fat32MaxFilename 0)) off /
      fat.bytsPerClus + 1 ≤ room fat fs₂ chains₂ dp) :
    ∃ fs' chains', emake fat fs₂ dp ep off = some fs' ∧
      StaysWithin fat {dp, ep} fs (fs'.set ep { fs'.ent ep with valid := 1 }) chains chains' ∧
      ∀ j ≠ ep, ((fs'.set ep { fs'.ent ep with valid := 1 }).ent j).attr = (fs.ent j).attr := by
  have hdir' : (fs₂.ent dp).isDirectory = true := by
    rw [Dirent.isDirectory, hattr dp hne]
    exact hdir
  obtain ⟨fs', chains', hrun, hslots⟩ :=
    emake_slots hw.ok hdir' ep hoff (by rw [hname]; exact hroom)
  have hvalid := hslots.within.ok.touch {dp, ep} (i := ep)
    (e := { fs'.ent ep with valid := 1 }) rfl rfl rfl rfl rfl
  refine ⟨fs', chains', hrun, (hw.trans (hslots.within.mono (by simp))).trans hvalid,
    fun j hj => ?_⟩
  rw [FileSystem.set_ent_of_ne _ _ hj]
  exact (hslots.names j).1.trans (hattr j hj)

theorem eallocNew_within (h : VolumeOk fat fs chains) (hdir : (fs.ent dp).isDirectory = true)
    (hoff : off % 32 = 0) (hfresh : (fs.ent ep).firstClus = 0)
    (hepdir : (fs.ent ep).isDirectory = false) {name : List Byte} (dir : Bool)
    (hroom : HasSlotRoom fat fs dp name dir off) :
    ∃ fs' chains',
      eallocNew fat fs dp ep name (if dir then attrDirectory else 0) off = some fs' ∧
      StaysWithin fat {dp, ep} fs fs' chains chains' ∧
      ∀ j ≠ ep, (fs'.ent j).attr = (fs.ent j).attr := by
  have hg := h.files.geometry
  have hne : dp ≠ ep := by
    rintro rfl
    rw [hdir] at hepdir
    exact absurd hepdir (by decide)
  have hep : chains ep = [] := (h.files.file ep).chain.unique (.inl ⟨hfresh, rfl⟩)
  have hroom := hroom (chains dp) (h.files.file dp).chain
  have hedup : StaysWithin fat {dp, ep} fs (edup fs dp) chains chains := edup_within _ h dp
  have hsame : ∀ j, ((edup fs dp).ent j).attr = (fs.ent j).attr := fun j =>
    (sameNames_edup fs dp j).1
  cases dir with
  | false =>
      have hw := hedup.trans (newFile_within dp off h hep name)
      obtain ⟨hname, -⟩ := newEntry_fields fs dp ep name 0 off
      obtain ⟨fs', chains', hrun, hwithin, hattr⟩ := eallocNew_emake name hdir hne hoff hw
        (fun j hj => by
          rw [eallocEntry_eq, FileSystem.set_set, FileSystem.set_ent_of_ne _ _ hj, hsame])
        (by rw [FileSystem.set_ent_self]; exact hname) (by
          simp only [Bool.false_eq_true, if_false] at hroom
          change _ ≤ (chains dp).length + (freeClusters fat fs.disk).card
          omega)
      refine ⟨_, chains', ?_, hwithin, hattr⟩
      have hfile : ¬ (0 = attrDirectory) := by decide
      simp only [eallocNew, Bool.false_eq_true, if_false, if_neg hfile]
      rw [← newEntry]
      simp only [Option.bind_eq_bind, Option.bind_some, hrun]
      rfl
  | true =>
      simp only [if_true] at hroom
      obtain ⟨c, d, halloc, hcard, hnew⟩ := newDirectory_within dp off h hep name
        (Finset.card_pos.mp (by omega))
      obtain ⟨hname, hattrNew, -⟩ := newEntry_fields fs dp ep name attrDirectory off
      generalize hfs₂ : { eallocEntry fs dp ep name attrDirectory off with disk := d }.set ep
        { newEntry fs dp ep name attrDirectory off with
          attr := (newEntry fs dp ep name attrDirectory off).attr ||| attrDirectory
          firstClus := c
          curClus := c } = fs₂ at hnew
      have hself : (fs₂.ent ep).isDirectory = true ∧
          (fs₂.ent ep).filename = cstring (strncpy (cstring name) fat32MaxFilename 0) := by
        rw [← hfs₂, FileSystem.set_ent_self, Dirent.isDirectory]
        simp only [hattrNew, hname]
        exact ⟨by decide, trivial⟩
      have hothers : ∀ j ≠ ep, (fs₂.ent j).attr = (fs.ent j).attr := fun j hj => by
        rw [← hfs₂, FileSystem.set_ent_of_ne _ _ hj, eallocEntry_eq]
        change (((edup fs dp).set ep _).ent j).attr = _
        rw [FileSystem.set_ent_of_ne _ _ hj, hsame]
      have hdisk₂ : fs₂.disk = d := by
        rw [← hfs₂]
        rfl
      -- "." and ".." stay in the new cluster
      have hclus : 32 / fat.bytsPerClus = 0 := by
        have := hg.sectors_pos
        exact Nat.div_eq_of_lt (by rw [hg.cluster]; omega)
      obtain ⟨fs₃, chains₃, hrun₃, hslots₃⟩ := emake_slots hnew.ok hself.1 ep (Nat.zero_mod 32)
        (by simp [emakeLast, room])
      have hroom₃ : room fat fs₃ chains₃ ep = 1 + (freeClusters fat d).card := by
        rw [hslots₃.room, room, Function.update_self, hdisk₂, List.length_singleton]
      obtain ⟨fs₄, chains₄, hrun₄, hslots₄⟩ := emake_slots hslots₃.within.ok
        (by rw [Dirent.isDirectory, (hslots₃.names ep).1]; exact hself.1) dp (Nat.mod_self 32)
        (by rw [hroom₃]; simp [emakeLast, hclus])
      have hlen₃ := hslots₃.length
      have hlen₄ := hslots₄.length
      have hpos₄ := List.length_pos_iff.mpr hslots₄.nonempty
      have hroom₄ := hslots₄.room
      simp only [emakeLast, le_refl, if_true, hclus, Nat.zero_div, Function.update_self,
        List.length_singleton, Nat.zero_le] at hlen₃ hlen₄
      rw [hroom₃, room] at hroom₄
      have hwithin₄ : StaysWithin fat {dp, ep} fs fs₄ chains chains₄ :=
        hedup.trans (((hnew.trans hslots₃.within).trans hslots₄.within).mono (by simp))
      have hnames := hslots₃.names.trans hslots₄.names
      have hchain₄ : chains₄ dp = chains dp := by
        have hout : dp ∉ ({ep} : Set ℕ) := hne
        rw [hslots₄.within.chain dp hout, hslots₃.within.chain dp hout,
          Function.update_of_ne hne]
      obtain ⟨fs', chains', hrun, hwithin, hattr⟩ := eallocNew_emake name hdir hne hoff
        hwithin₄ (fun j hj => (hnames j).1.trans (hothers j hj))
        ((hnames ep).2.trans hself.2) (by rw [room, hchain₄]; omega)
      refine ⟨_, chains', ?_, hwithin, hattr⟩
      simp only [eallocNew, if_true]
      rw [← newEntry]
      have hdisk : (eallocEntry fs dp ep name attrDirectory off).disk = fs.disk := rfl
      simp only [hdisk, halloc, hfs₂, hrun₃, hrun₄, Option.bind_eq_bind, Option.bind_some, hrun]
      rfl

/-! ## Calls on open files -/

/-- Every cluster of a directory other than `except` has its bytes. -/
def DirectoriesKept (fat : Fat32) (fs fs' : FileSystem) (except : Option ℕ) : Prop :=
  ∀ dp, (fs.ent dp).isDirectory = true → some dp ≠ except →
    ∀ cs, ChainOf fat fs.disk (fs.ent dp).firstClus cs → ∀ c ∈ cs, ∀ k < fat.bytsPerClus,
      clusByte fat fs'.disk c k = clusByte fat fs.disk c k

theorem directoriesKept_of_disk (hdisk : fs'.disk = fs.disk) (except : Option ℕ) :
    DirectoriesKept fat fs fs' except := by
  intro dp _ _ cs _ c _ k _
  rw [hdisk]

theorem StaysWithin.directoriesKept (h : VolumeOk fat fs chains)
    (hw : StaysWithin fat own fs fs' chains chains') {except : Option ℕ}
    (hown : ∀ i ∈ own, (fs.ent i).isDirectory = true → some i = except) :
    DirectoriesKept fat fs fs' except := by
  intro dp hdir hexcept cs hcs c hc k hk
  obtain rfl : chains dp = cs := (h.files.file dp).chain.unique hcs
  have hout : dp ∉ own := fun hin => hexcept (hown dp hin hdir)
  have hrange := ((h.files.file dp).fileChain (h.directory dp hdir)).range c hc
  exact hw.byte c hrange (h.not_reach hout hc) k (by rwa [← h.files.geometry.cluster])

/-- Giving the clusters of a file back. -/
theorem etrunc_within (h : VolumeOk fat fs chains) (hdir : (fs.ent ep).isDirectory = false) :
    ∃ d e, etrunc fat fs.disk (fs.ent ep) = some (d, e) ∧ e.attr = (fs.ent ep).attr ∧
      StaysWithin fat {ep} fs ({ fs with disk := d }.set ep e) chains
        (Function.update chains ep []) := by
  have hfile : FileOk fat fs.disk (fs.ent ep) (chains ep) := h.files.file ep
  obtain ⟨d, hrun, hs, hk, -⟩ := etrunc_spec h.files.geometry h.files.sound hfile
  refine ⟨d, _, hrun, rfl, h.change _ _ hs ⟨.inl ⟨rfl, rfl⟩, by simp, by simp, fun hne => absurd rfl hne⟩
    hk (fun c hc => .inl hc) (by simp) (fun c hc => ?_) fun hdir' => ?_⟩
  · by_cases hmem : c ∈ chains ep
    · exact .inl hmem
    · obtain ⟨hrange, hzero⟩ := mem_freeClusters.mp hc
      rw [hk.entry c hrange.2 hmem] at hzero
      exact .inr (mem_freeClusters.mpr ⟨hrange, hzero⟩)
  · rw [Dirent.isDirectory] at hdir hdir'
    exact absurd hdir' (by rw [hdir]; decide)

theorem sameAttr_set {d : Disk} (hattr : e.attr = (fs.ent i).attr) (j : ℕ) :
    (({ fs with disk := d }.set i e).ent j).attr = (fs.ent j).attr := by
  by_cases hj : j = i
  · subst j
    rw [FileSystem.set_ent_self, hattr]
  · rw [FileSystem.set_ent_of_ne _ _ hj]

/-- `eread` changes nothing on the disk. -/
theorem eread_within (h : VolumeOk fat fs chains) (ep : ℕ) (data : Transfer) (off : ℕ) {n : ℕ}
    (hn : n < 2 ^ 32) :
    ∃ r bytes e, eread fat fs.disk (fs.ent ep) data off n = some (r, bytes, fs.disk, e) ∧
      e.attr = (fs.ent ep).attr ∧ StaysWithin fat {ep} fs (fs.set ep e) chains chains := by
  have hfile : FileOk fat fs.disk (fs.ent ep) (chains ep) := h.files.file ep
  by_cases hskip : off > (fs.ent ep).fileSize ∨ (off + n) % 2 ^ 32 < off ∨
      (fs.ent ep).isDirectory = true
  · refine ⟨0, [], fs.ent ep, by rw [eread, if_pos hskip], rfl, ?_⟩
    exact h.touch _ rfl rfl rfl rfl rfl
  · simp only [not_or, not_lt, Bool.not_eq_true] at hskip
    obtain ⟨hoff, hwrap, hdir⟩ := hskip
    have hsize := hfile.size_lt
    obtain ⟨c, q, got, len, hrun, hok, -⟩ := eread_delivers data (n := n)
      h.files.geometry h.files.sound hfile hdir hoff (by omega)
    exact ⟨got, _, _, hrun, rfl, h.set _ hok (h.directory ep)⟩

/-- `ewrite` uses clusters of its entry and free ones. -/
theorem ewrite_within (h : VolumeOk fat fs chains) (ep : ℕ) (data : Transfer) (off n : ℕ)
    (hroom : HasRoom fat fs.disk (fs.ent ep) off n) :
    ∃ code d e chains', ewrite fat fs.disk (fs.ent ep) data off n = some (code, d, e) ∧
      e.attr = (fs.ent ep).attr ∧
      StaysWithin fat {ep} fs ({ fs with disk := d }.set ep e) chains chains' := by
  have hfile : FileOk fat fs.disk (fs.ent ep) (chains ep) := h.files.file ep
  by_cases hacc : off ≤ (fs.ent ep).fileSize ∧ off + n < 2 ^ 32 ∧ (fs.ent ep).isReadOnly = false
  · obtain ⟨new, d, e, put, len, hrun, hok, -, -, hattr, hstep⟩ :=
      ewrite_grows data h.files.geometry h.files.sound hfile hacc.2.2 hacc.1 hacc.2.1
        (hroom hacc.1 hacc.2.1 _ hfile.chain)
    refine ⟨put, d, e, _, hrun, hattr, h.grow _ _ hstep hok fun hdir => ?_⟩
    have hdir' : (fs.ent ep).isDirectory = true := by rwa [Dirent.isDirectory, ← hattr]
    exact fun hnil => h.directory ep hdir' (List.append_eq_nil_iff.mp hnil).1
  · have hrefused : ewrite fat fs.disk (fs.ent ep) data off n = some (-1, fs.disk, fs.ent ep) := by
      rw [ewrite, if_pos]
      by_contra hin
      simp only [not_or, Bool.not_eq_true] at hin
      exact hacc ⟨by omega, by omega, hin.2.2.2⟩
    refine ⟨-1, fs.disk, fs.ent ep, chains, hrefused, rfl, h.touch _ rfl rfl rfl rfl rfl⟩

end

namespace OpenVolume

variable {φ : Type*} [DecidableEq φ] {fat : Fat32} {s t u : OpenVolume φ} {chains : ℕ → List ℕ}

/-- The directory whose slots a call writes with `emake` or `eupdate`. -/
def slotsOf (s : OpenVolume φ) : VolumeCall φ → Option ℕ
  | .ealloc dp _ _ _ _ => some dp
  | .eupdate ep => some (s.fs.ent ep).parent
  | _ => none

/-- What the runs ask of a call: no directory is opened for writing, a cluster is free
whenever one is appended, a new entry is new, `eupdate` finds its slots, and a slot that is
loaded tells what its entry kept. -/
def Allowed (fat : Fat32) (s : OpenVolume φ) : VolumeCall φ → Prop
  | .filewrite f _ n => ∀ o, s.file f = some o → o.writable = true →
      HasRoom fat s.fs.disk (s.fs.ent o.ep) o.off n.toNat
  | .fileopen _ ep omode => (s.fs.ent ep).isDirectory = true →
      omode &&& oWronly = 0 ∧ omode &&& oRdwr = 0
  | .ealloc dp ep name dir off =>
      (s.fs.ent ep).firstClus = 0 ∧ (s.fs.ent ep).isDirectory = false ∧
        (∀ f o, s.file f = some o → o.ep ≠ ep) ∧ HasSlotRoom fat s.fs dp name dir off
  | .eupdate ep => SlotsInside fat s.fs ep
  | .load dp ep _ slot => SlotTells fat s.fs dp ep slot
  | .fileread .. | .fileclose .. | .scan .. => True

def AllowedStep (fat : Fat32) (s : OpenVolume φ) (call : VolumeCall φ) (t : OpenVolume φ) : Prop :=
  Allowed fat s call ∧ s.step fat call = some t

/-- The entries have clusters of their own, and no directory is open for writing. -/
structure Ok (fat : Fat32) (s : OpenVolume φ) (chains : ℕ → List ℕ) : Prop where
  volume : VolumeOk fat s.fs chains
  closed : ∀ f o, s.file f = some o → o.writable = true → (s.fs.ent o.ep).isDirectory = false

omit [DecidableEq φ] in
theorem Ok.next (h : Ok fat s chains) {fs : FileSystem} {chains' : ℕ → List ℕ}
    (hok : VolumeOk fat fs chains')
    (hattr : ∀ f o, s.file f = some o → (fs.ent o.ep).attr = (s.fs.ent o.ep).attr) :
    Ok fat { s with fs } chains' := by
  refine ⟨hok, fun f o ho hw => ?_⟩
  rw [Dirent.isDirectory, hattr f o ho]
  exact h.closed f o ho hw

theorem Ok.setFile (h : Ok fat s chains) (f : φ) {o : OpenEntry}
    (hwritable : o.writable = true → (s.fs.ent o.ep).isDirectory = false) :
    Ok fat (s.setFile f (some o)) chains := by
  refine ⟨h.volume, fun f' o' ho' hw => ?_⟩
  by_cases hf : f' = f
  · subst f'
    obtain rfl : o = o' := by simpa [OpenVolume.setFile] using ho'
    exact hwritable hw
  · exact h.closed f' o' (by simpa [OpenVolume.setFile, hf] using ho') hw

/-- A call on the entry of an open file, with the offset that it leaves there. -/
theorem Ok.setEntry (h : Ok fat s chains) {f : φ} {o : OpenEntry} (ho : s.file f = some o)
    {d : Disk} {e : Dirent} {chains' : ℕ → List ℕ} (hattr : e.attr = (s.fs.ent o.ep).attr)
    (hw : StaysWithin fat {o.ep} s.fs ({ s.fs with disk := d }.set o.ep e) chains chains') (off : ℕ) :
    Ok fat (s.setEntry o.ep d e) chains' ∧
      Ok fat ((s.setEntry o.ep d e).setFile f (some { o with off := off })) chains' := by
  have hnext : Ok fat (s.setEntry o.ep d e) chains' :=
    h.next hw.ok fun _ o' _ => sameAttr_set hattr o'.ep
  refine ⟨hnext, hnext.setFile f fun hwritable => ?_⟩
  exact hnext.closed f o ho hwritable

theorem Ok.fileread (h : Ok fat s chains) {f : φ} {data : Transfer} {n : BitVec 32}
    (hrun : s.fileread fat f data n = some t) :
    ∃ chains', Ok fat t chains' ∧ DirectoriesKept fat s.fs t.fs none := by
  rw [OpenVolume.fileread] at hrun
  cases ho : s.file f with
  | none => simp [ho] at hrun
  | some o =>
      simp only [ho] at hrun
      split at hrun
      · obtain rfl := Option.some.inj hrun
        exact ⟨chains, h, directoriesKept_of_disk rfl _⟩
      · obtain ⟨r, bytes, e, hread, hattr, hw⟩ := eread_within h.volume o.ep data o.off n.isLt
        rw [hread, Option.map_some] at hrun
        obtain rfl := Option.some.inj hrun
        obtain ⟨hentry, hfile⟩ := h.setEntry ho hattr hw ((o.off + r) % 2 ^ 32)
        refine ⟨chains, ?_, directoriesKept_of_disk ?_ _⟩
        · split
          · exact hfile
          · exact hentry
        · split <;> rfl

/-- The write of a file that is open for writing is no write of a directory. -/
theorem Ok.filewrite (h : Ok fat s chains) {f : φ} {data : Transfer} {n : BitVec 32}
    (hallowed : Allowed fat s (.filewrite f data n)) (hrun : s.filewrite fat f data n = some t) :
    ∃ chains', Ok fat t chains' ∧ DirectoriesKept fat s.fs t.fs none := by
  rw [OpenVolume.filewrite] at hrun
  cases ho : s.file f with
  | none => simp [ho] at hrun
  | some o =>
      simp only [ho] at hrun
      split at hrun
      · obtain rfl := Option.some.inj hrun
        exact ⟨chains, h, directoriesKept_of_disk rfl _⟩
      next hwritable =>
        have hw : o.writable = true := by simpa using hwritable
        have hdir := h.closed f o ho hw
        obtain ⟨code, d, e, chains', hwrite, hattr, hwithin⟩ :=
          ewrite_within h.volume o.ep data o.off n.toNat (hallowed o ho hw)
        rw [hwrite, Option.map_some] at hrun
        obtain rfl := Option.some.inj hrun
        obtain ⟨hentry, hfile⟩ := h.setEntry ho hattr hwithin ((o.off + n.toNat) % 2 ^ 32)
        have hkept : DirectoriesKept fat s.fs (s.setEntry o.ep d e).fs none := by
          apply hwithin.directoriesKept h.volume
          rintro i rfl hidir
          rw [hdir] at hidir
          exact absurd hidir (by decide)
        refine ⟨chains', ?_, ?_⟩
        · split
          · exact hfile
          · exact hentry
        · split <;> exact hkept

theorem Ok.fileopen (h : Ok fat s chains) {f : φ} {ep omode : ℕ}
    (hallowed : Allowed fat s (.fileopen f ep omode)) (hrun : s.fileopen fat f ep omode = some t) :
    ∃ chains', Ok fat t chains' ∧ DirectoriesKept fat s.fs t.fs none := by
  rw [OpenVolume.fileopen] at hrun
  split at hrun
  · simp at hrun
  · -- the disk and the entry after a possible truncation
    obtain ⟨d, e, chains', htrunc, hattr, hwithin, hkept⟩ : ∃ d e chains',
        (if !(s.fs.ent ep).isDirectory ∧ omode &&& oTrunc ≠ 0 then
          etrunc fat s.fs.disk (s.fs.ent ep)
        else some (s.fs.disk, s.fs.ent ep)) = some (d, e) ∧ e.attr = (s.fs.ent ep).attr ∧
        StaysWithin fat {ep} s.fs ({ s.fs with disk := d }.set ep e) chains chains' ∧
        DirectoriesKept fat s.fs ({ s.fs with disk := d }.set ep e) none := by
      split
      next htrunc =>
        have hdir : (s.fs.ent ep).isDirectory = false := by simpa using htrunc.1
        obtain ⟨d, e, hrun, hattr, hwithin⟩ := etrunc_within h.volume hdir
        refine ⟨d, e, _, hrun, hattr, hwithin, hwithin.directoriesKept h.volume ?_⟩
        rintro i rfl hidir
        rw [hdir] at hidir
        exact absurd hidir (by decide)
      next =>
        exact ⟨s.fs.disk, s.fs.ent ep, chains, rfl, rfl, h.volume.touch _ rfl rfl rfl rfl rfl,
          directoriesKept_of_disk rfl _⟩
    simp only [htrunc, Option.map_some] at hrun
    obtain rfl := Option.some.inj hrun
    have hnext : Ok fat (s.setEntry ep d e) chains' :=
      h.next hwithin.ok fun _ o _ => sameAttr_set hattr o.ep
    refine ⟨chains', hnext.setFile f fun hwritable => ?_, hkept⟩
    -- a directory is not opened for writing
    change ((({ s.fs with disk := d }.set ep e).ent ep).isDirectory) = false
    rw [Dirent.isDirectory, sameAttr_set hattr, ← Dirent.isDirectory]
    by_contra hdir
    obtain ⟨hwronly, hrdwr⟩ := hallowed (by simpa using hdir)
    simp [hwronly, hrdwr] at hwritable

theorem Ok.step (h : Ok fat s chains) {call : VolumeCall φ} (hstep : AllowedStep fat s call t) :
    ∃ chains', Ok fat t chains' ∧ DirectoriesKept fat s.fs t.fs (s.slotsOf call) := by
  obtain ⟨hallowed, hrun⟩ := hstep
  cases call with
  | fileread f data n => exact h.fileread hrun
  | filewrite f data n => exact h.filewrite hallowed hrun
  | fileopen f ep omode => exact h.fileopen hallowed hrun
  | fileclose f =>
      obtain rfl := Option.some.inj hrun
      refine ⟨chains, ⟨h.volume, fun f' o ho => ?_⟩, directoriesKept_of_disk rfl _⟩
      by_cases hf : f' = f
      · subst f'
        simp [OpenVolume.setFile] at ho
      · exact h.closed f' o (by simpa [OpenVolume.setFile, hf] using ho)
  | ealloc dp ep name dir off =>
      obtain ⟨hfresh, hepdir, hclosed, hroom⟩ := hallowed
      simp only [OpenVolume.step] at hrun
      split at hrun
      · simp at hrun
      next hdir =>
        simp only [Option.map_eq_some_iff] at hrun
        obtain ⟨fs', hnew, rfl⟩ := hrun
        obtain ⟨fs'', chains', hnew', hwithin, hattr⟩ := eallocNew_within h.volume
          (by simpa using hdir) (eallocNew_aligned hnew) hfresh hepdir dir hroom
        obtain rfl := Option.some.inj (hnew.symm.trans hnew')
        refine ⟨chains', h.next hwithin.ok fun f o ho => hattr o.ep (hclosed f o ho),
          hwithin.directoriesKept h.volume ?_⟩
        rintro i (rfl | rfl) hidir
        · rfl
        · rw [hepdir] at hidir
          exact absurd hidir (by decide)
  | eupdate ep =>
      obtain ⟨fs', hupdate, hwithin, hnames⟩ := eupdate_within h.volume hallowed
      simp only [OpenVolume.step, hupdate, Option.map_some] at hrun
      obtain rfl := Option.some.inj hrun
      refine ⟨chains, h.next hwithin.ok fun _ o _ => (hnames o.ep).1,
        hwithin.directoriesKept h.volume ?_⟩
      rintro i rfl _
      rfl
  | scan dp off =>
      simp only [OpenVolume.step] at hrun
      split at hrun
      · simp at hrun
      next hdir =>
        obtain ⟨r, c, q, hreloc, hwithin⟩ := relocEnt_stays ∅ h.volume
          (h.volume.directory dp (by simpa using hdir)) off
        simp only [hreloc, Option.map_some] at hrun
        obtain rfl := Option.some.inj hrun
        exact ⟨chains, h.next hwithin.ok fun _ o _ =>
          sameAttr_set (d := s.fs.disk) (i := dp) (e := (s.fs.ent dp).at c q) rfl o.ep,
          directoriesKept_of_disk rfl _⟩
  | load dp ep off slot =>
      simp only [OpenVolume.step] at hrun
      split at hrun
      · simp at hrun
      · obtain ⟨fs', hload, hdisk, hok, hattr⟩ := loadEntry_within off h.volume hallowed
        simp only [hload, Option.map_some] at hrun
        obtain rfl := Option.some.inj hrun
        exact ⟨chains, h.next hok fun _ o _ => hattr o.ep, directoriesKept_of_disk hdisk _⟩

theorem Ok.run (h : Ok fat s chains) {calls : List (VolumeCall φ)}
    (hrun : Run (AllowedStep fat) s calls t) : ∃ chains', Ok fat t chains' :=
  hrun.invariant (I := fun s => ∃ chains, Ok fat s chains)
    (fun _ _ _ h hstep => by
      obtain ⟨chains, h⟩ := h
      obtain ⟨chains', h', -⟩ := h.step hstep
      exact ⟨chains', h'⟩) ⟨chains, h⟩

/-- In a run that opens no directory for writing, a directory's clusters change only when
`emake` or `eupdate` writes slots of that directory. -/
theorem directories_kept (h : Ok fat s chains) {calls : List (VolumeCall φ)}
    (hrun : Run (AllowedStep fat) s calls t) {call : VolumeCall φ}
    (hstep : AllowedStep fat t call u) : DirectoriesKept fat t.fs u.fs (t.slotsOf call) := by
  obtain ⟨chains', h'⟩ := h.run hrun
  obtain ⟨-, -, hkept⟩ := h'.step hstep
  exact hkept

/-! ## A root directory and a file -/

/-- The disk on which the first of the two clusters is the root directory. -/
def rootDisk : Disk :=
  ⟨store32 (store32 (store32 (fun _ => 0) 512 0x0FFFFFF8) 516 0x0FFFFFFF) 520 0x0FFFFFFF, [], []⟩

/-- Entry 0 is the root directory, the others are empty files; no file is open. -/
def rootVolume : OpenVolume Unit where
  fs :=
    { disk := rootDisk
      ent := fun i => if i = 0 then ⟨fun _ => 0, 0x10, 2, 0, 2, 0, false, 1, 1, 0, 0⟩ else emptyFile
      lru := [] }
  file _ := none

theorem rootVolume_ok : Ok smallFat rootVolume fun i => if i = 0 then [2] else [] where
  volume :=
    { files :=
        { geometry := smallFat_geometry
          sound := ⟨by decide +kernel, by decide +kernel⟩
          file := fun i => by
            by_cases hi : i = 0
            · subst i
              refine ⟨.inr ⟨.cons (by decide) (.stop (by decide +kernel)), by simp, ?_⟩, ?_, ?_, ?_⟩
              · simp only [if_true, List.mem_singleton, forall_eq]
                exact ⟨le_rfl, by decide⟩
              · exact Nat.zero_le _
              · exact Nat.two_pow_pos _
              · exact fun _ => rfl
            · simp only [FileSystem.files, rootVolume, if_neg hi]
              exact ⟨.inl ⟨rfl, rfl⟩, Nat.zero_le _, Nat.two_pow_pos _, fun hne => absurd rfl hne⟩
          disjoint := fun i j hij => by
            by_cases hi : i = 0
            · have hj : j ≠ 0 := fun hj => hij (hi.trans hj.symm)
              simp [hi, hj]
            · simp [hi] }
      directory := fun i hi => by
        by_cases h0 : i = 0
        · simp [h0]
        · simp only [rootVolume, if_neg h0] at hi
          exact absurd hi (by decide) }
  closed _ _ h := by simp [rootVolume] at h

/-- One byte of a process. -/
def oneByte : Transfer := Transfer.of [1]

/-- A byte written to the file leaves the root directory. -/
theorem file_write_keeps_root :
    ∃ t u, Run (AllowedStep smallFat) rootVolume [.fileopen () 1 oWronly] t ∧
      AllowedStep smallFat t (.filewrite () oneByte 1) u ∧
      DirectoriesKept smallFat t.fs u.fs (t.slotsOf (.filewrite () oneByte 1)) := by
  generalize ht : (rootVolume.setEntry 1 rootDisk emptyFile).setFile ()
    (some ⟨1, 0, false, true⟩) = t
  have hopen : rootVolume.step smallFat (.fileopen () 1 oWronly) = some t := by
    rw [← ht]
    rfl
  have hroom : HasRoom smallFat t.fs.disk (t.fs.ent 1) 0 1 := by
    rw [← ht]
    exact hasRoom_of_chain (.inl ⟨rfl, rfl⟩) (by decide +kernel)
  have hrun : Run (AllowedStep smallFat) rootVolume [.fileopen () 1 oWronly] t :=
    .single ⟨fun hdir => absurd hdir (by decide), hopen⟩
  obtain ⟨u, hwrite⟩ : ∃ u, t.step smallFat (.filewrite () oneByte 1) = some u := by
    rw [← Option.isSome_iff_exists, ← ht]
    decide +kernel
  have hstep : AllowedStep smallFat t (.filewrite () oneByte 1) u := by
    refine ⟨fun o ho _ => ?_, hwrite⟩
    obtain rfl : ⟨1, 0, false, true⟩ = o := by simpa [← ht, OpenVolume.setFile] using ho
    exact hroom
  exact ⟨t, u, hrun, hstep, directories_kept rootVolume_ok hrun hstep⟩

/-- A byte written through the opened root directory changes its cluster. -/
theorem root_overwritten :
    ¬ ∀ (s t u : OpenVolume Unit) (chains : ℕ → List ℕ) (calls : List (VolumeCall Unit))
        (call : VolumeCall Unit), Ok smallFat s chains →
        Run (fun s call t => s.step smallFat call = some t) s calls t →
        t.step smallFat call = some u → DirectoriesKept smallFat t.fs u.fs (t.slotsOf call) := by
  intro hclaim
  have hcalls : ((rootVolume.step smallFat (.fileopen () 0 oWronly)).bind fun t =>
      (t.step smallFat (.filewrite () oneByte 1)).map fun u =>
        ((t.fs.ent 0).isDirectory, (t.fs.ent 0).firstClus, fatEntry smallFat t.fs.disk 2,
          clusByte smallFat t.fs.disk 2 0, clusByte smallFat u.fs.disk 2 0)) =
      some (true, 2, 0x0FFFFFFF, 0, 1) := by
    decide +kernel
  simp only [Option.bind_eq_some_iff, Option.map_eq_some_iff, Prod.mk.injEq] at hcalls
  obtain ⟨t, hopen, u, hwrite, hdir, hfirst, hentry, hbefore, hafter⟩ := hcalls
  have hchain : ChainOf smallFat t.fs.disk (t.fs.ent 0).firstClus [2] := by
    rw [hfirst]
    refine .inr ⟨.cons (by decide) (.stop (by rw [hentry]; decide)), by simp, ?_⟩
    simp only [List.mem_singleton, forall_eq]
    exact ⟨le_rfl, by decide⟩
  have hkept := hclaim _ t u _ _ _ rootVolume_ok (.single hopen) hwrite 0 hdir (by simp [slotsOf])
    [2] hchain 2 (by simp) 0 (by decide)
  rw [hbefore, hafter] at hkept
  exact absurd hkept (by decide)

end OpenVolume

end K210Os
