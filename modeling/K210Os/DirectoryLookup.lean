import K210Os.FreeSlots

/-!
# Looking up a name in a directory

`dirlookup` of a name that is not in the entry cache goes through the files of the directory
and returns the first one with that name. What lies behind the files may be anything that
`enext` passes over.
-/

namespace K210Os

/-- Slots in which `enext` finds nothing. -/
def Barren (tail : List Dentry) : Prop :=
  ∀ s : Enext, s.cnt = 0 → s.counting = true → ∃ s', scanSlots tail s = some (-1, s', none)

/-- The first file of that name. -/
def lookupFile (files : List DirFile) (name : List Byte) : Option DirFile :=
  files.find? fun f => strncmpEq (cstring name) f.filename fat32MaxFilename 0

/-- Slots that hold the files, one behind the other, and nothing else. -/
structure Holds (slots : List Dentry) (files : List DirFile) : Prop where
  wellFormed : ∀ f ∈ files, f.WellFormed
  slots : ∃ tail, slots = files.flatMap DirFile.slots ++ tail ∧ Barren tail

/-- A name that has to be looked for on the disk. -/
structure Sought (fs : FileSystem) (dp : ℕ) (name : List Byte) : Prop where
  nonempty : name ≠ []
  chars : ∀ c ∈ name, c ≠ 0
  dot : name ≠ [0x2E]
  dotdot : name ≠ [0x2E, 0x2E]
  uncached : fs.lru.find? (egetHit fs dp name) = none
  held : (fs.ent dp).ref ≠ 0
  free : ∃ i ∈ fs.lru, (fs.ent i).ref = 0

/-- Entry `ep` has the data of the file. -/
structure Shows (fs : FileSystem) (ep : ℕ) (f : DirFile) : Prop where
  attr : (fs.ent ep).attr = (f.short.byte 11).toNat
  firstClus : (fs.ent ep).firstClus = f.short.value 20 2 <<< 16 ||| f.short.value 26 2
  fileSize : (fs.ent ep).fileSize = f.short.value 28 4

section Lookup
variable {fat : Fat32} {fs : FileSystem} {cs : List ℕ} {dp ep k count fuel : ℕ} {name : List Byte}
  {poff : Bool} {stored : Option ℕ} {f : DirFile} {files : List DirFile} {rest tail : List Dentry}

theorem Listing.WellFormed.holds {l : Listing} (hl : l.WellFormed) : Holds l.slots l.files :=
  ⟨hl.files, l.gap ++ l.rest, rfl, fun s _ _ => hl.scan_end s⟩

/-- The round on a file with the name. -/
theorem OpenDirectory.lookup_hit (h : OpenDirectory fat fs dp cs) (hep : (fs.ent ep).valid = 0)
    (hf : f.WellFormed) (hdrop : (dirSlots fat fs.disk cs).drop k = f.own ++ rest)
    (hhit : strncmpEq (cstring name) f.filename fat32MaxFilename 0 = true) (fuel : ℕ)
    (poff : Bool) (stored : Option ℕ) :
    ∃ fs', dirlookupLoop fat name dp ep (fuel + 1) fs (32 * k) count poff stored =
        some (some ep, stored, fs') ∧ fs'.disk = fs.disk ∧ Shows fs' ep f := by
  obtain ⟨counting, hscan⟩ := hf.scan rest (enextStart fs ep count) rfl rfl
  rw [← hdrop] at hscan
  obtain ⟨c, q, -, hround⟩ := h.dirlookupLoop_round hep name fuel k count poff stored
  have hname : strncmpEq (cstring name) (f.readName (enextStart fs ep count).filename)
      fat32MaxFilename 0 = true := by
    rw [f.strncmpEq_readName fun x hx => enextStart_zero fs ep count hx]
    exact hhit
  rw [hround, hscan]
  simp only [Option.bind_some, hname, if_true]
  rw [if_neg (by decide)]
  refine ⟨_, rfl, rfl, ?_⟩
  have hne : ep ≠ dp := h.ne hep
  constructor <;>
    · rw [FileSystem.set_ent_self, edup, FileSystem.set_ent_of_ne _ _ hne, afterEnext_entry]
      rfl

/-- The rounds on the files, up to the first with the name. -/
theorem OpenDirectory.lookup_listed (hfiles : ∀ f ∈ files, f.WellFormed) (htail : Barren tail)
    (hname : name ≠ []) (hchars : ∀ c ∈ name, c ≠ 0) (h : OpenDirectory fat fs dp cs)
    (hep : (fs.ent ep).valid = 0) (k count fuel : ℕ) (poff : Bool) (stored : Option ℕ)
    (hdrop : (dirSlots fat fs.disk cs).drop k = files.flatMap DirFile.slots ++ tail)
    (hfuel : (files.flatMap DirFile.slots).length < fuel) :
    ∃ stored' fs', dirlookupLoop fat name dp ep fuel fs (32 * k) count poff stored =
        some ((lookupFile files name).map fun _ => ep, stored', fs') ∧ fs'.disk = fs.disk ∧
      ∀ f, lookupFile files name = some f → Shows fs' ep f := by
  induction files generalizing fs k count fuel with
  | nil =>
    obtain ⟨s', hscan⟩ := htail (enextStart fs ep count) rfl rfl
    obtain ⟨fuel, rfl⟩ : ∃ n, fuel = n + 1 := ⟨fuel - 1, by omega⟩
    obtain ⟨c, q, -, hround⟩ := h.dirlookupLoop_round hep name fuel k count poff stored
    rw [hround, hdrop, List.flatMap_nil, List.nil_append, hscan]
    exact ⟨_, _, rfl, rfl, fun f hf => nomatch hf⟩
  | cons f files ih =>
    have hf := hfiles f List.mem_cons_self
    rw [List.flatMap_cons, List.append_assoc] at hdrop
    rw [List.flatMap_cons, List.length_append] at hfuel
    cases hmatch : strncmpEq (cstring name) f.filename fat32MaxFilename 0 with
    | false =>
      obtain ⟨fs₁, fuel₁, count₁, hfuel₁, hrun, hopen, hep₁, hdisk⟩ :=
        h.lookup_file hep hf hdrop hname hchars hmatch count fuel (by omega) poff stored
      have hrest : lookupFile (f :: files) name = lookupFile files name := by
        simp [lookupFile, hmatch]
      rw [hrun, hrest, ← hdisk]
      apply ih (fun f hf => hfiles f (List.mem_cons_of_mem _ hf)) hopen hep₁
      · rw [hdisk, ← List.drop_drop, hdrop, List.drop_left]
      · omega
    | true =>
      have hfirst : lookupFile (f :: files) name = some f := by simp [lookupFile, hmatch]
      have hpos := List.length_pos_iff.mpr f.own_ne_nil
      have hlen : f.slots.length = f.gap.length + f.own.length := by
        rw [DirFile.slots, List.length_append]
      rw [hfirst]
      by_cases hgap : f.gap = []
      · have hown : f.slots = f.own := by rw [DirFile.slots, hgap, List.nil_append]
        obtain ⟨fuel, rfl⟩ : ∃ n, fuel = n + 1 := ⟨fuel - 1, by omega⟩
        rw [hown] at hdrop
        obtain ⟨fs', hrun, hdisk, hshows⟩ := h.lookup_hit hep hf hdrop hmatch fuel poff stored
        exact ⟨stored, fs', hrun, hdisk, fun g hg => Option.some.inj hg ▸ hshows⟩
      · -- the deleted slots in front of the file take a round of their own
        obtain ⟨fuel, rfl⟩ : ∃ n, fuel = n + 2 := ⟨fuel - 2, by
          have := List.length_pos_iff.mpr hgap
          omega⟩
        obtain ⟨fs₁, hrun₁, hopen₁, hep₁, hdisk₁⟩ :=
          h.lookup_gap hep hf hgap hdrop hname hchars (fuel + 1) poff stored
        have hbehind : (dirSlots fat fs₁.disk cs).drop (k + f.gap.length) =
            f.own ++ (files.flatMap DirFile.slots ++ tail) := by
          rw [hdisk₁, ← List.drop_drop, hdrop, DirFile.slots, List.append_assoc, List.drop_left]
        obtain ⟨fs', hrun, hdisk, hshows⟩ :=
          hopen₁.lookup_hit hep₁ hf hbehind hmatch fuel poff stored
        rw [hrun₁]
        exact ⟨stored, fs', hrun, hdisk.trans hdisk₁, fun g hg => Option.some.inj hg ▸ hshows⟩

/-- `dirlookup` of a name that is not cached goes to the slots with a fresh entry. -/
theorem OpenDirectory.dirlookup_eq (h : OpenDirectory fat fs dp cs) (hname : Sought fs dp name)
    (poff : Bool) : ∃ ep fs₁, dirlookup fat fs dp name poff =
        dirlookupLoop fat name dp ep slotFuel fs₁ 0 0 poff none ∧
      OpenDirectory fat fs₁ dp cs ∧ (fs₁.ent ep).valid = 0 ∧ fs₁.disk = fs.disk := by
  have hdot : strncmpEq (cstring name) (cstring [0x2E]) fat32MaxFilename 0 = false :=
    Bool.eq_false_iff.mpr fun h => hname.dot (strncmpEq_cstring hname.chars (by decide) (by decide) h)
  have hdotdot : strncmpEq (cstring name) (cstring [0x2E, 0x2E]) fat32MaxFilename 0 = false :=
    Bool.eq_false_iff.mpr fun h =>
      hname.dotdot (strncmpEq_cstring hname.chars (by decide) (by decide) h)
  obtain ⟨ep, href, htaken⟩ := eget_uncached hname.uncached hname.free
  have hne : ep ≠ dp := by
    rintro rfl
    exact hname.held href
  generalize hfs : fs.set ep { fs.ent ep with ref := 1, off := 0, valid := 0, dirty := false } = fs₁
    at htaken
  have hent : fs₁.ent dp = fs.ent dp := by
    rw [← hfs, FileSystem.set_ent_of_ne _ _ hne.symm]
  have hvalid : (fs₁.ent ep).valid = 0 := by rw [← hfs, FileSystem.set_ent_self]
  have hdisk : fs₁.disk = fs.disk := by
    rw [← hfs]
    rfl
  have hopen : OpenDirectory fat fs₁ dp cs := h.congr hdisk hent
  have hstart : cs[0 / fat.bytsPerClus]? = some (fs₁.ent dp).firstClus := by
    rw [Nat.zero_div]
    exact hopen.chain.head_eq
  refine ⟨ep, fs₁.set dp ((fs₁.ent dp).at (fs₁.ent dp).firstClus (0 / fat.bytsPerClus)), ?_,
    hopen.move hstart, ?_, hdisk⟩
  · rw [dirlookup, if_neg (by simp [h.directory]), hdot, hdotdot, if_neg Bool.false_ne_true,
      if_neg Bool.false_ne_true, if_neg (by simp [h.valid]), htaken]
    simp only [Option.bind_eq_bind, Option.bind_some, hvalid]
    rw [if_neg (by decide), hopen.relocEnt_found hstart, Option.bind_some]
  · rw [FileSystem.set_ent_of_ne _ _ hne]
    exact hvalid

/-- A lookup finds the first file of the name, and nothing where there is none. -/
theorem OpenDirectory.dirlookup_listed (h : OpenDirectory fat fs dp cs)
    (hslots : Holds (dirSlots fat fs.disk cs) files) (hname : Sought fs dp name) (poff : Bool) :
    ∃ ep stored fs', dirlookup fat fs dp name poff =
        some ((lookupFile files name).map fun _ => ep, stored, fs') ∧ fs'.disk = fs.disk ∧
      ∀ f, lookupFile files name = some f → Shows fs' ep f := by
  obtain ⟨ep, fs₁, hrun, hopen, hep, hdisk⟩ := h.dirlookup_eq hname poff
  obtain ⟨tail, htail, hbarren⟩ := hslots.slots
  have hlen := congrArg List.length htail
  rw [List.length_append] at hlen
  have hlt := h.slots_lt
  obtain ⟨stored, fs', hloop, hdisk', hshows⟩ := hopen.lookup_listed hslots.wellFormed hbarren
    hname.nonempty hname.chars hep 0 0 slotFuel poff none (by rw [hdisk]; exact htail)
    (by rw [slotFuel]; omega)
  exact ⟨ep, stored, fs', hrun.trans hloop, hdisk'.trans hdisk, hshows⟩

end Lookup

end K210Os
