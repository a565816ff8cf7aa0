import K210Os.FatChains
import K210Os.LongNames

/-!
# Directories as lists of slots

On a directory whose chain ends, `enext` is a scan of the list of its slots. Nothing is
assumed of the rest of the FAT or of the slots: a scan stops where `enext` would store
outside of a name or through the null `count`. On a chain that does not end neither does
`enext`.
-/

namespace K210Os

open LinkedChain

/-- A cluster is a number of sectors of 512 bytes. -/
structure ClusterSizes (fat : Fat32) : Prop where
  sector : fat.bytsPerSec = 512
  cluster : fat.bytsPerClus = 512 * fat.secPerClus
  sectors_pos : 0 < fat.secPerClus

theorem Geometry.sizes {fat : Fat32} (hg : Geometry fat) : ClusterSizes fat :=
  ⟨hg.sector, hg.cluster, hg.sectors_pos⟩

/-- The slot at an offset inside a cluster. -/
def clusterSlot (fat : Fat32) (d : Disk) (c off : ℕ) : Dentry :=
  (List.range 32).map fun k => d.data (512 * rwClusSec fat c off + off % 512 + k)

/-- The slot with number `k` of a chain of clusters. -/
def dirSlot (fat : Fat32) (d : Disk) (cs : List ℕ) (k : ℕ) : Dentry :=
  clusterSlot fat d (cs.getD (32 * k / fat.bytsPerClus) 0) (32 * k % fat.bytsPerClus)

/-- The slots of a directory. -/
def dirSlots (fat : Fat32) (d : Disk) (cs : List ℕ) : List Dentry :=
  (List.range (cs.length * fat.bytsPerClus / 32)).map (dirSlot fat d cs)

/-- Directory `dp` has a chain that ends, its position is on it, and its offsets have 32
bits. -/
structure OpenDirectory (fat : Fat32) (fs : FileSystem) (dp : ℕ) (cs : List ℕ) : Prop where
  sizes : ClusterSizes fat
  chain : LinkChain fat fs.disk (fs.ent dp).firstClus cs
  cursor : OnChain (fs.ent dp) cs
  small : cs.length * fat.bytsPerClus < 2 ^ 32
  directory : (fs.ent dp).isDirectory = true
  valid : (fs.ent dp).valid = 1

/-- The loop of `enext` on the slots that are left. -/
def scanSlots : List Dentry → Enext → Option (ℤ × Enext × Option Dentry)
  | [], s => some (-1, s, none)
  | de :: des, s =>
      match enextSlot de s with
      | none => none
      | some (.more s) => scanSlots des s
      | some (.done code s info) => some (code, s, info)

/-! ## One slot -/

section Slot
variable {fat : Fat32} {d : Disk} {cs : List ℕ} {c k off : ℕ}

theorem ClusterSizes.dvd (h : ClusterSizes fat) : 32 ∣ fat.bytsPerClus :=
  ⟨16 * fat.secPerClus, by rw [h.cluster]; omega⟩

theorem ClusterSizes.pos (h : ClusterSizes fat) : 0 < fat.bytsPerClus := by
  have := h.sectors_pos
  rw [h.cluster]
  omega

theorem ClusterSizes.slot_inside (h : ClusterSizes fat) (hoff : off % 32 = 0) :
    off % fat.bytsPerClus % 32 = 0 ∧ off % fat.bytsPerClus + 32 ≤ fat.bytsPerClus := by
  have hmod := Nat.mod_lt off h.pos
  have hrest : off % fat.bytsPerClus % 32 = 0 := by
    rw [Nat.mod_mod_of_dvd off h.dvd]
    exact hoff
  obtain ⟨m, hm⟩ := h.dvd
  omega

theorem rwClusRead_clusterSlot (h : ClusterSizes fat) (hoff : off % 32 = 0)
    (hin : off + 32 ≤ fat.bytsPerClus) :
    rwClusRead fat d c (kernelCopy []) off 32 = some (32, clusterSlot fat d c off) := by
  have hfit : ¬ (off + 32) % 2 ^ 32 > fat.bytsPerClus := by
    have := Nat.mod_le (off + 32) (2 ^ 32)
    omega
  have hsec : rwClusSec fat c off < 2 ^ 32 := Nat.mod_lt _ (by decide)
  obtain ⟨len, -, hall, hrun⟩ := rwClusReadLoop_eq (d := d) (n := 32) _ 32
    (rwClusSec fat c off) (off % 512) 0 (by omega) (by omega) (by omega)
  have hkernel : ∀ i m, (kernelCopy []).ok i m = true := fun _ _ => rfl
  rw [hall hkernel, Nat.mod_mod, Nat.zero_add] at hrun
  rw [rwClusRead, if_neg hfit, h.sector, hrun]
  rfl

theorem length_dirSlots : (dirSlots fat d cs).length = cs.length * fat.bytsPerClus / 32 := by
  rw [dirSlots, List.length_map, List.length_range]

theorem ClusterSizes.lt_slots (h : ClusterSizes fat) :
    k < (dirSlots fat d cs).length ↔ 32 * k < cs.length * fat.bytsPerClus := by
  obtain ⟨m, hm⟩ := (h.dvd).mul_left cs.length
  rw [length_dirSlots, hm]
  omega

theorem dirSlots_drop (hk : k < (dirSlots fat d cs).length) :
    (dirSlots fat d cs).drop k = dirSlot fat d cs k :: (dirSlots fat d cs).drop (k + 1) := by
  rw [List.drop_eq_getElem_cons hk]
  simp [dirSlots]

end Slot

/-! ## A call -/

section Call
variable {fat : Fat32} {fs : FileSystem} {cs : List ℕ} {dp ep off c q fuel count : ℕ} {s : Enext}

theorem OpenDirectory.congr (h : OpenDirectory fat fs dp cs) {fs' : FileSystem}
    (hdisk : fs'.disk = fs.disk) (hent : fs'.ent dp = fs.ent dp) :
    OpenDirectory fat fs' dp cs := by
  constructor
  case sizes => exact h.sizes
  case chain =>
    rw [hdisk, hent]
    exact h.chain
  case cursor =>
    rw [hent]
    exact h.cursor
  case small => exact h.small
  case directory =>
    rw [hent]
    exact h.directory
  case valid =>
    rw [hent]
    exact h.valid

/-- Moving the position along the chain. -/
theorem OpenDirectory.move (h : OpenDirectory fat fs dp cs) (hc : cs[q]? = some c) :
    OpenDirectory fat (fs.set dp ((fs.ent dp).at c q)) dp cs := by
  have hent : (fs.set dp ((fs.ent dp).at c q)).ent dp = (fs.ent dp).at c q :=
    FileSystem.set_ent_self _ _ _
  constructor
  case sizes => exact h.sizes
  case chain =>
    rw [hent]
    exact h.chain
  case cursor =>
    rw [hent]
    exact hc
  case small => exact h.small
  case directory =>
    rw [hent]
    exact h.directory
  case valid =>
    rw [hent]
    exact h.valid

theorem OpenDirectory.relocEnt_found (h : OpenDirectory fat fs dp cs)
    (hc : cs[off / fat.bytsPerClus]? = some c) :
    relocEnt fat fs dp off false =
      some (off % fat.bytsPerClus, fs.set dp ((fs.ent dp).at c (off / fat.bytsPerClus))) := by
  rw [relocEnt, h.chain.relocClus_found h.cursor hc false]
  rfl

theorem OpenDirectory.relocEnt_missing (h : OpenDirectory fat fs dp cs)
    (hout : cs.length ≤ off / fat.bytsPerClus) :
    relocEnt fat fs dp off false =
      some (minusOne, fs.set dp ((fs.ent dp).at (fs.ent dp).firstClus 0)) := by
  rw [relocEnt, h.chain.relocClus_missing h.cursor hout]
  rfl

theorem OpenDirectory.outside (h : OpenDirectory fat fs dp cs) {k : ℕ}
    (hk : (dirSlots fat fs.disk cs).length ≤ k) : cs.length ≤ 32 * k / fat.bytsPerClus := by
  have hnot := mt h.sizes.lt_slots.mpr (Nat.not_lt.mpr hk)
  exact (Nat.le_div_iff_mul_le h.sizes.pos).mpr (Nat.le_of_not_lt hnot)

/-- What a round of `enext` reads inside the directory. -/
theorem OpenDirectory.read_slot (h : OpenDirectory fat fs dp cs) {k : ℕ}
    (hk : k < (dirSlots fat fs.disk cs).length) : ∃ c q off2, cs[q]? = some c ∧
      relocEnt fat fs dp (32 * k) false = some (off2, fs.set dp ((fs.ent dp).at c q)) ∧
      off2 ≠ minusOne ∧
      rwClusRead fat fs.disk c (kernelCopy []) off2 32 =
        some (32, dirSlot fat fs.disk cs k) ∧
      (32 * k + 32) % 2 ^ 32 = 32 * (k + 1) := by
  have hlt := h.sizes.lt_slots.mp hk
  have hsmall := h.small
  obtain ⟨haligned, hin⟩ := h.sizes.slot_inside (show 32 * k % 32 = 0 by omega)
  have hq := (Nat.div_lt_iff_lt_mul h.sizes.pos).mpr hlt
  have hc := List.getElem?_eq_getElem hq
  refine ⟨_, _, _, hc, h.relocEnt_found hc, ?_, ?_, ?_⟩
  · rw [minusOne]
    omega
  · rw [rwClusRead_clusterSlot h.sizes haligned hin, dirSlot, List.getD_eq_getElem?_getD, hc]
    rfl
  · rw [length_dirSlots] at hk
    omega

/-- One round of `enext` inside the directory. -/
theorem OpenDirectory.enextLoop_slot (h : OpenDirectory fat fs dp cs) (fuel : ℕ) {k : ℕ}
    (hk : k < (dirSlots fat fs.disk cs).length) : ∃ c q, cs[q]? = some c ∧
      enextLoop fat dp (fuel + 1) fs (32 * k) s =
        (enextSlot (dirSlot fat fs.disk cs k) s).bind fun next =>
          match next with
          | .more s => enextLoop fat dp fuel (fs.set dp ((fs.ent dp).at c q)) (32 * (k + 1)) s
          | .done code s info => some (code, s, info, fs.set dp ((fs.ent dp).at c q)) := by
  obtain ⟨c, q, off2, hc, hreloc, hmark, hread, hnext⟩ := h.read_slot hk
  have hcur : ((fs.set dp ((fs.ent dp).at c q)).ent dp).curClus = c := by
    rw [FileSystem.set_ent_self]
    rfl
  refine ⟨c, q, hc, ?_⟩
  rw [enextLoop, hreloc]
  simp only [Option.bind_eq_bind, Option.bind_some, if_neg hmark, hcur, FileSystem.set_disk,
    hread, ne_eq, not_true, if_false, hnext]
  rfl

/-- The loop of `enext` is the scan of the slots from its offset on. -/
theorem OpenDirectory.enextLoop_eq (h : OpenDirectory fat fs dp cs) (k fuel : ℕ)
    (hfuel : (dirSlots fat fs.disk cs).length - k < fuel) (s : Enext) :
    ∃ c q, cs[q]? = some c ∧ enextLoop fat dp fuel fs (32 * k) s =
      (scanSlots ((dirSlots fat fs.disk cs).drop k) s).map fun r =>
        (r.1, r.2.1, r.2.2, fs.set dp ((fs.ent dp).at c q)) := by
  induction fuel generalizing fs k s with
  | zero => omega
  | succ fuel ih =>
      rcases Nat.lt_or_ge k (dirSlots fat fs.disk cs).length with hk | hk
      · obtain ⟨c, q, hc, hround⟩ := h.enextLoop_slot (s := s) fuel hk
        rw [hround, dirSlots_drop hk, scanSlots]
        cases hslot : enextSlot (dirSlot fat fs.disk cs k) s with
        | none => exact ⟨c, q, hc, rfl⟩
        | some next =>
            cases next with
            | done code s info => exact ⟨c, q, hc, rfl⟩
            | more s =>
                obtain ⟨c', q', hc', hrest⟩ := ih (h.move hc) (k + 1)
                  (by rw [FileSystem.set_disk]; omega) s
                refine ⟨c', q', hc', ?_⟩
                simp only [Option.bind_some]
                rw [hrest, FileSystem.set_disk, FileSystem.set_ent_self, FileSystem.set_set]
                rfl
      · refine ⟨_, 0, h.chain.head_eq, ?_⟩
        rw [enextLoop, h.relocEnt_missing (h.outside hk), List.drop_eq_nil_of_le hk]
        rfl

/-- The entry that a call leaves. -/
def enextEntry (entry : Dirent) (s : Enext) (info : Option Dentry) : Dirent :=
  info.elim { entry with filename := s.filename } (readEntryInfo { entry with filename := s.filename })

theorem OpenDirectory.ne (h : OpenDirectory fat fs dp cs) {ep : ℕ} (hep : (fs.ent ep).valid = 0) :
    ep ≠ dp := by
  rintro rfl
  rw [h.valid] at hep
  exact absurd hep (by decide)

theorem OpenDirectory.slots_lt (h : OpenDirectory fat fs dp cs) :
    (dirSlots fat fs.disk cs).length < 2 ^ 27 := by
  have hsmall := h.small
  rw [length_dirSlots]
  omega

/-- A call of `enext` is a scan of the slots from its offset on. -/
theorem OpenDirectory.enext_eq (h : OpenDirectory fat fs dp cs) {ep : ℕ}
    (hep : (fs.ent ep).valid = 0) (k count : ℕ) : ∃ c q, cs[q]? = some c ∧
      enext fat fs dp ep (32 * k) count =
        (scanSlots ((dirSlots fat fs.disk cs).drop k) (enextStart fs ep count)).map fun r =>
          (r.1, r.2.1.count,
            (fs.set dp ((fs.ent dp).at c q)).set ep (enextEntry (fs.ent ep) r.2.1 r.2.2)) := by
  have hslots := h.slots_lt
  obtain ⟨c, q, hc, hloop⟩ := h.enextLoop_eq k slotFuel (by rw [slotFuel]; omega)
    (enextStart fs ep count)
  refine ⟨c, q, hc, ?_⟩
  have hsame : (fs.set dp ((fs.ent dp).at c q)).ent ep = fs.ent ep :=
    FileSystem.set_ent_of_ne _ _ (h.ne hep)
  rw [enextStart] at hloop ⊢
  simp only [enext, h.directory, hep, h.valid, hloop, Nat.mul_mod_right, Bool.not_true, ne_eq,
    not_true, or_self, Bool.false_eq_true, if_false]
  cases scanSlots ((dirSlots fat fs.disk cs).drop k) _ with
  | none => rfl
  | some r =>
      simp only [Option.bind_eq_bind, Option.map_some, Option.bind_some, Option.pure_def, hsame]
      rfl

end Call

/-! ## Where a scan stops -/

section Scan
variable {de : Dentry} {des : List Dentry} {s s' : Enext} {info : Option Dentry} {code : ℤ}

/-- What holds of the count while a name is read, with `n` slots read so far. -/
structure CountOk (n : ℕ) (s : Enext) : Prop where
  empty : s.cnt ≤ n
  long : s.counting = false → 1 ≤ s.count ∧ s.count ≤ 21

theorem CountOk.more {n : ℕ} (h : CountOk n s) (hslot : enextSlot de s = some (.more s')) :
    CountOk (n + 1) s' := by
  obtain ⟨hempty, hlong⟩ := h
  unfold enextSlot at hslot
  dsimp only at hslot
  split_ifs at hslot with hend hdeleted hcnt hcounting hattr hpart hflag hcounting hcounting <;>
    cases hslot
  · exact ⟨Nat.succ_le_succ hempty, hlong⟩
  · exact ⟨Nat.le_succ_of_le hempty, hlong⟩
  · refine ⟨Nat.le_succ_of_le hempty, fun _ => ?_⟩
    show 1 ≤ dropLast _ + 1 ∧ dropLast _ + 1 ≤ 21
    omega

theorem CountOk.done {n : ℕ} (h : CountOk n s)
    (hslot : enextSlot de s = some (.done code s' info)) :
    code = -1 ∧ info = none ∨ code = 0 ∧ info = none ∧ 1 ≤ s'.count ∧ s'.count ≤ n ∨
      code = 1 ∧ info = some de ∧ 1 ≤ s'.count ∧ s'.count ≤ 21 := by
  obtain ⟨hempty, hlong⟩ := h
  unfold enextSlot at hslot
  dsimp only at hslot
  split_ifs at hslot with hend hdeleted hcnt hcounting hattr hpart hflag hcounting hcounting <;>
    cases hslot
  · exact .inl ⟨rfl, rfl⟩
  · exact .inr (.inl ⟨rfl, rfl, Nat.one_le_iff_ne_zero.mpr hcnt, hempty⟩)
  · exact .inr (.inr ⟨rfl, rfl, le_rfl, Nat.le_add_left 1 20⟩)
  · exact .inr (.inr ⟨rfl, rfl, hlong (by simpa using hcounting)⟩)

end Scan

/-! ## `dirlookup` -/

section Lookup
variable {fat : Fat32} {fs : FileSystem} {cs : List ℕ} {dp ep c q : ℕ} {filename : List Byte}
  {info : Option Dentry} {code : ℤ} {s : Enext}

/-- What a call of `enext` leaves of the entries. -/
def afterEnext (fs : FileSystem) (dp ep c q : ℕ) (s : Enext) (info : Option Dentry) : FileSystem :=
  (fs.set dp ((fs.ent dp).at c q)).set ep (enextEntry (fs.ent ep) s info)

theorem afterEnext_entry :
    (afterEnext fs dp ep c q s info).ent ep = enextEntry (fs.ent ep) s info :=
  FileSystem.set_ent_self _ _ _

theorem enextEntry_valid {entry : Dirent} : (enextEntry entry s info).valid = entry.valid := by
  cases info <;> rfl

theorem enextEntry_filename {entry : Dirent} :
    (enextEntry entry s info).filename = s.filename := by
  cases info <;> rfl

theorem OpenDirectory.after (h : OpenDirectory fat fs dp cs) (hep : (fs.ent ep).valid = 0)
    (hc : cs[q]? = some c) : OpenDirectory fat (afterEnext fs dp ep c q s info) dp cs := by
  exact (h.move hc).congr rfl (FileSystem.set_ent_of_ne _ _ (h.ne hep).symm)

theorem eput_free {fuel i : ℕ} (h : (fs.ent i).valid = 0) :
    eput fat (fuel + 1) fs i = some (edrop fs i) := by
  rw [eput, if_neg (by simp [h])]

/-- A round of `dirlookup` on what its call of `enext` scans. -/
theorem OpenDirectory.dirlookupLoop_round (h : OpenDirectory fat fs dp cs)
    (hep : (fs.ent ep).valid = 0) (filename : List Byte) (fuel k count : ℕ) (poff : Bool)
    (stored : Option ℕ) : ∃ c q, cs[q]? = some c ∧
      dirlookupLoop fat filename dp ep (fuel + 1) fs (32 * k) count poff
        stored =
      (scanSlots ((dirSlots fat fs.disk cs).drop k) (enextStart fs ep count)).bind fun r =>
        let fs' := afterEnext fs dp ep c q r.2.1 r.2.2
        if r.1 = -1 then
          some (none, if poff then some (32 * k) else stored, edrop fs' ep)
        else if strncmpEq (cstring filename) r.2.1.filename fat32MaxFilename 0 then
          let fs' := edup fs' dp
          some (some ep, stored,
            fs'.set ep { fs'.ent ep with parent := dp, off := 32 * k, valid := 1 })
        else dirlookupLoop fat filename dp ep fuel fs'
          ((32 * k + r.2.1.count <<< 5) % 2 ^ 32) r.2.1.count poff stored := by
  obtain ⟨c, q, hc, hcall⟩ := h.enext_eq hep k count
  refine ⟨c, q, hc, ?_⟩
  rw [dirlookupLoop, hcall]
  cases scanSlots ((dirSlots fat fs.disk cs).drop k) (enextStart fs ep count) with
  | none => rfl
  | some r =>
      have hafter : (fs.set dp ((fs.ent dp).at c q)).set ep (enextEntry (fs.ent ep) r.2.1 r.2.2) =
          afterEnext fs dp ep c q r.2.1 r.2.2 := rfl
      have hvalid : ((afterEnext fs dp ep c q r.2.1 r.2.2).ent ep).valid = 0 := by
        rw [afterEnext_entry, enextEntry_valid, hep]
      have hname : ((afterEnext fs dp ep c q r.2.1 r.2.2).ent ep).filename = r.2.1.filename := by
        rw [afterEnext_entry, enextEntry_filename]
      have hdrop : eput fat eputFuel (afterEnext fs dp ep c q r.2.1 r.2.2) ep =
          some (edrop (afterEnext fs dp ep c q r.2.1 r.2.2) ep) := eput_free hvalid
      simp only [Option.bind_eq_bind, Option.map_some, Option.bind_some, hafter, hname]
      by_cases hend : r.1 = -1
      · simp [hend, hdrop]
      · simp [hend]

end Lookup

/-! ## Directories whose chain ends -/

def pairDirectory : FileSystem where
  disk := pairDisk
  ent := fun i =>
    if i = 0 then { pairEntry with attr := attrDirectory }
    else { pairEntry with valid := 0, ref := 0 }
  lru := [1]

/-- A directory of one cluster. -/
theorem pair_open {fs : FileSystem} (hmark : readFat pairFat fs.disk 2 = fat32Feoc)
    (hent : fs.ent 0 = pairDirectory.ent 0) : OpenDirectory pairFat fs 0 [2] := by
  constructor
  case sizes => constructor <;> decide
  case chain =>
    rw [hent]
    refine ⟨.cons (by decide) (.stop ?_), by simp⟩
    show isEocSigned (readFat pairFat fs.disk 2) = true
    rw [hmark]
    decide
  case cursor =>
    rw [hent]
    rfl
  case small => decide
  all_goals
    rw [hent]
    decide

section Circle
variable {fat : Fat32} {d : Disk} {entry : Dirent} {c : ℕ}

end Circle

end K210Os
