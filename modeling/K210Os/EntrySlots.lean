import K210Os.DirectoryListing

/-!
# Updating and removing entries

`eupdate` and `eremove` take the number of slots of an entry from the first byte of its
first slot. It is the order of a long-name slot; of an entry without long name it is the
first character of the short name, and then the wrong slots are written.
-/

namespace K210Os

open LinkedChain

/-- A directory on clusters of the volume. -/
structure StoredDirectory (fat : Fat32) (fs : FileSystem) (dp : ℕ) (cs : List ℕ) : Prop
    extends OpenDirectory fat fs dp cs where
  geometry : Geometry fat
  range : ∀ c ∈ cs, c ∈ DataClus fat

/-- A slot with its first bytes overlaid. -/
def Dentry.put (de bytes : Dentry) (n : ℕ) : Dentry :=
  (List.range 32).map fun k => if k < n then bytes.byte k else de.byte k

/-- A slot that `eremove` marks. -/
def Dentry.erased (de : Dentry) : Dentry := de.put [BitVec.ofNat 8 emptyEntry] 1

/-- The slots with `m` of them marked, from number `k` on. -/
def eraseSlots (k m : ℕ) (slots : List Dentry) : List Dentry :=
  slots.take k ++ (((slots.drop k).take m).map Dentry.erased ++ slots.drop (k + m))

/-- What a scan reports of an entry: the offset and the number of its slots, and what `enext`
left in `ep`. -/
structure Report where
  off : ℕ
  count : ℕ
  filename : List Byte
  attr : ℕ
  firstClus : ℕ
  fileSize : ℕ

def Dirent.report (entry : Dirent) (off count : ℕ) : Report :=
  ⟨off, count, (List.range (fat32MaxFilename + 1)).map entry.filename, entry.attr, entry.firstClus,
    entry.fileSize⟩

/-- The calls of `enext` from `off` on, each behind the slots that the last one counted. -/
def scanLoop (fat : Fat32) (dp ep : ℕ) : ℕ → FileSystem → ℕ → ℕ → Option (List Report)
  | 0, _, _, _ => none
  | fuel + 1, fs, off, count => do
      let (code, count, fs) ← enext fat fs dp ep off count
      if code = -1 then return []
      let rest ← scanLoop fat dp ep fuel fs ((off + count <<< 5) % 2 ^ 32) count
      return if code = 1 then (fs.ent ep).report off count :: rest else rest

/-- The entries that a scan of the directory reports, read into a free entry `ep`. -/
def freshScan (fat : Fat32) (fs : FileSystem) (dp ep : ℕ) : Option (List Report) :=
  scanLoop fat dp ep slotFuel fs 0 0

def DirFile.report (f : DirFile) (off : ℕ) : Report :=
  (readEntryInfo ⟨f.filename, 0, 0, 0, 0, 0, false, 0, 0, 0, 0⟩ f.short).report off f.own.length

/-- A scan of `fs'` reports what one of `fs` does, but for the entry of `count` slots at `off`:
of it, the reports `own`. -/
def ScansOthers (fat : Fat32) (fs fs' : FileSystem) (dp off count : ℕ) (own : List ℕ) : Prop :=
  ∀ i, (fs.ent i).valid = 0 → ∃ before this after new,
    freshScan fat fs dp i = some (before ++ this :: after) ∧ this.off = off ∧ this.count = count ∧
      freshScan fat fs' dp i = some (before ++ (new ++ after)) ∧ new.map Report.off = own

/-- What `eupdate` and `eremove` promise of the entry `ep` whose slots are the `count` from number
`n` on. -/
structure SlotsRight (fat : Fat32) (fs : FileSystem) (dp : ℕ) (cs : List ℕ) (ep n count : ℕ) :
    Prop where
  update : (fs.ent ep).dirty = true → ∃ fs', eupdate fat fs ep = some fs' ∧
    dirSlots fat fs'.disk cs = (dirSlots fat fs.disk cs).modify (n + count - 1)
      (Dentry.withFields · (fs.ent ep).firstClus (fs.ent ep).fileSize) ∧
    ScansOthers fat fs fs' dp (32 * n) count [32 * n]
  remove : ∃ fs', eremove fat fs ep = some fs' ∧
    dirSlots fat fs'.disk cs = eraseSlots n count (dirSlots fat fs.disk cs) ∧
    ScansOthers fat fs fs' dp (32 * n) count []

/-- The reports of files whose slots begin at number `k`. -/
def reports : ℕ → List DirFile → List Report
  | _, [] => []
  | k, f :: files => f.report (32 * (k + f.gap.length)) :: reports (k + f.slots.length) files

/-! ## Writing slots -/

section Put
variable {fat : Fat32} {fs : FileSystem} {d d' : Disk} {cs : List ℕ} {dp c k m n : ℕ}
  {de bytes : Dentry}

theorem Dentry.length_put : (de.put bytes n).length = 32 := by
  rw [Dentry.put, List.length_map, List.length_range]

theorem Dentry.byte_put (hk : k < 32) :
    (de.put bytes n).byte k = if k < n then bytes.byte k else de.byte k := by
  simp [Dentry.byte, Dentry.put, hk]

theorem ext_byte {a b : Dentry} (ha : a.length = 32) (hb : b.length = 32)
    (h : ∀ k < 32, a.byte k = b.byte k) : a = b := by
  apply List.ext_getElem (ha.trans hb.symm)
  intro k hk hk'
  simpa [Dentry.byte, hk, hk'] using h k (by omega)

theorem Dentry.put_all (hbytes : bytes.length = 32) : de.put bytes 32 = bytes := by
  apply ext_byte Dentry.length_put hbytes
  intro k hk
  rw [Dentry.byte_put hk, if_pos hk]

theorem byte_clusterSlot {off : ℕ} (hk : k < 32) :
    (clusterSlot fat d c off).byte k = d.data (512 * rwClusSec fat c off + off % 512 + k) := by
  simp [Dentry.byte, clusterSlot, hk]

theorem length_dirSlot : (dirSlot fat d cs k).length = 32 := by
  rw [dirSlot, clusterSlot, List.length_map, List.length_range]

theorem StoredDirectory.nodup (h : StoredDirectory fat fs dp cs) : cs.Nodup := h.chain.chain.nodup

/-- The cluster and the place in it of a slot. -/
theorem StoredDirectory.place (h : StoredDirectory fat fs dp cs)
    (hk : k < (dirSlots fat d cs).length) : ∃ c, cs[32 * k / fat.bytsPerClus]? = some c ∧
      c ∈ DataClus fat ∧ 32 * k % fat.bytsPerClus + 32 ≤ 512 * fat.secPerClus ∧
      ∀ d j, j < 32 → (dirSlot fat d cs k).byte j = clusByte fat d c (32 * k % fat.bytsPerClus + j) := by
  have hq := (Nat.div_lt_iff_lt_mul h.sizes.pos).mpr (h.sizes.lt_slots.mp hk)
  have hc := List.getElem?_eq_getElem hq
  have hin := (h.sizes.slot_inside (show 32 * k % 32 = 0 by omega)).2
  rw [h.sizes.cluster] at hin
  have hmem := h.range _ (List.mem_of_getElem? hc)
  refine ⟨_, hc, hmem, by rw [h.sizes.cluster]; exact hin, fun d j hj => ?_⟩
  rw [dirSlot, List.getD_eq_getElem?_getD, hc, byte_clusterSlot hj, Option.getD_some, clusByte,
    rwClusSec_eq h.geometry hmem (by rw [h.sizes.cluster]; omega)]
  congr 1
  omega

/-- A write into a slot changes no other. -/
theorem StoredDirectory.dirSlots_put (h : StoredDirectory fat fs dp cs)
    (hm : m < (dirSlots fat d cs).length) (hc : cs[32 * m / fat.bytsPerClus]? = some c) (hn : n ≤ 32)
    (hput : ClusWrite fat c (32 * m % fat.bytsPerClus) n bytes.byte d d') :
    dirSlots fat d' cs = (dirSlots fat d cs).set m ((dirSlot fat d cs m).put bytes n) := by
  have hlen : (dirSlots fat d' cs).length = (dirSlots fat d cs).length := by
    rw [length_dirSlots, length_dirSlots]
  apply List.ext_getElem (by rw [List.length_set, hlen])
  intro k hk' _
  have hk := hlen ▸ hk'
  obtain ⟨cm, hcm, hmem, hinm, -⟩ := h.place hm
  obtain rfl : c = cm := Option.some.inj (hc.symm.trans hcm)
  obtain ⟨x, hx, hxmem, hinx, hbyte⟩ := h.place hk
  have hslot : ∀ j < 32, (dirSlot fat d' cs k).byte j =
      if x = c ∧ 32 * m % fat.bytsPerClus ≤ 32 * k % fat.bytsPerClus + j ∧
          32 * k % fat.bytsPerClus + j < 32 * m % fat.bytsPerClus + n then
        bytes.byte (32 * k % fat.bytsPerClus + j - 32 * m % fat.bytsPerClus)
      else (dirSlot fat d cs k).byte j := fun j hj => by
    rw [hbyte d' j hj, hbyte d j hj]
    exact hput.clusByte hmem hxmem (by omega) (by omega)
  rw [List.getElem_set, show (dirSlots fat d' cs)[k] = dirSlot fat d' cs k by simp [dirSlots],
    show (dirSlots fat d cs)[k] = dirSlot fat d cs k by simp [dirSlots]]
  split
  next heq =>
    subst heq
    obtain rfl : x = c := Option.some.inj (hx.symm.trans hc)
    apply ext_byte length_dirSlot Dentry.length_put
    intro j hj
    rw [hslot j hj, Dentry.byte_put hj, Nat.add_sub_cancel_left]
    by_cases hjn : j < n
    · rw [if_pos ⟨rfl, by omega, by omega⟩, if_pos hjn]
    · rw [if_neg (by omega), if_neg hjn]
  next hne =>
    apply ext_byte length_dirSlot length_dirSlot
    intro j hj
    rw [hslot j hj, if_neg]
    rintro ⟨rfl, hlo, hhi⟩
    have hq : 32 * k / fat.bytsPerClus = 32 * m / fat.bytsPerClus :=
      (List.getElem?_inj (List.getElem?_eq_some_iff.mp hx).1 h.nodup).mp (hx.trans hc.symm)
    have hmodk := (h.sizes.slot_inside (show 32 * k % 32 = 0 by omega)).1
    have hmodm := (h.sizes.slot_inside (show 32 * m % 32 = 0 by omega)).1
    have hk32 := Nat.div_add_mod (32 * k) fat.bytsPerClus
    have hm32 := Nat.div_add_mod (32 * m) fat.bytsPerClus
    rw [hq] at hk32
    omega

/-- The directory stands on the disk with the write. -/
theorem StoredDirectory.clusWrite (h : StoredDirectory fat fs dp cs) {a : ℕ} {src : ℕ → Byte}
    (hput : ClusWrite fat c a n src fs.disk d') : StoredDirectory fat { fs with disk := d' } dp cs where
  sizes := h.sizes
  chain := by
    refine ⟨h.chain.chain.congr fun x hx => ?_, h.chain.nonempty⟩
    have hle := (h.range x hx).2
    rw [readFat_eq h.geometry hle, readFat_eq h.geometry hle,
      hput.fatEntry h.geometry (lt_of_le_dataClusCnt h.geometry hle)]
  cursor := h.cursor
  small := h.small
  directory := h.directory
  valid := h.valid
  geometry := h.geometry
  range := h.range

/-- A write at the place of a slot. -/
theorem StoredDirectory.write (h : StoredDirectory fat fs dp cs)
    (hm : m < (dirSlots fat fs.disk cs).length) (hc : cs[32 * m / fat.bytsPerClus]? = some c)
    (bytes : Dentry) (hpos : 0 < n) (hn : n ≤ 32) :
    ∃ d', rwClusWrite fat fs.disk c (kernelCopy bytes) (32 * m % fat.bytsPerClus) n = some (n, d') ∧
      dirSlots fat d' cs =
        (dirSlots fat fs.disk cs).set m ((dirSlot fat fs.disk cs m).put bytes n) ∧
      StoredDirectory fat { fs with disk := d' } dp cs := by
  obtain ⟨x, hx, hmem, hin, -⟩ := h.place hm
  obtain rfl : c = x := Option.some.inj (hc.symm.trans hx)
  obtain ⟨d', hrun, hput⟩ := rwClusWrite_eq h.geometry hmem fs.disk (kernelCopy bytes)
    (fun _ _ => rfl) hpos (show 32 * m % fat.bytsPerClus + n ≤ fat.bytsPerClus by
      rw [h.sizes.cluster] at hin ⊢
      omega)
  exact ⟨d', hrun, h.dirSlots_put hm hc hn hput, h.clusWrite hput⟩

theorem StoredDirectory.congr (h : StoredDirectory fat fs dp cs) {fs' : FileSystem}
    (hdisk : fs'.disk = fs.disk) (hent : fs'.ent dp = fs.ent dp) : StoredDirectory fat fs' dp cs :=
  ⟨h.toOpenDirectory.congr hdisk hent, h.geometry, h.range⟩

theorem StoredDirectory.move (h : StoredDirectory fat fs dp cs) {q : ℕ} (hc : cs[q]? = some c) :
    StoredDirectory fat (fs.set dp ((fs.ent dp).at c q)) dp cs :=
  ⟨h.toOpenDirectory.move hc, h.geometry, h.range⟩

end Put

/-! ## One call of `eupdate` -/

section Update
variable {fat : Fat32} {fs fs' : FileSystem} {d : Disk} {cs : List ℕ} {dp ep c n m k : ℕ}

theorem Dentry.length_withFields {de : Dentry} (hde : de.length = 32) (firstClus fileSize : ℕ) :
    (de.withFields firstClus fileSize).length = 32 := by
  simp [Dentry.withFields, leBytes, hde]

/-- Where `reloc_clus` goes for a slot of the directory. -/
theorem StoredDirectory.reloc (h : StoredDirectory fat fs dp cs)
    (hk : k < (dirSlots fat fs.disk cs).length) : ∃ c, cs[32 * k / fat.bytsPerClus]? = some c ∧
      relocEnt fat fs dp (32 * k) false = some (32 * k % fat.bytsPerClus,
        fs.set dp ((fs.ent dp).at c (32 * k / fat.bytsPerClus))) ∧
      StoredDirectory fat (fs.set dp ((fs.ent dp).at c (32 * k / fat.bytsPerClus))) dp cs ∧
      rwClusRead fat fs.disk c (kernelCopy []) (32 * k % fat.bytsPerClus) 32 =
        some (32, dirSlot fat fs.disk cs k) ∧
      ∃ order, rwClusRead fat fs.disk c (kernelCopy []) (32 * k % fat.bytsPerClus) 1 =
        some (1, order) ∧ Dentry.byte order 0 = (dirSlot fat fs.disk cs k).byte 0 := by
  obtain ⟨c, hc, hmem, hin, hbyte⟩ := h.place hk
  have hslot := h.sizes.slot_inside (show 32 * k % 32 = 0 by omega)
  refine ⟨c, hc, h.relocEnt_found hc, h.move hc, ?_, ?_⟩
  · rw [rwClusRead_clusterSlot h.sizes hslot.1 hslot.2, dirSlot, List.getD_eq_getElem?_getD, hc]
    rfl
  · refine ⟨_, rwClusRead_eq h.geometry hmem fs.disk (kernelCopy []) (fun _ _ => rfl) Nat.one_pos
      (by rw [h.sizes.cluster] at hin ⊢; omega), ?_⟩
    rw [hbyte fs.disk 0 (by decide)]
    rfl

/-- A call of `eupdate` writes the slot behind as many as the first one says. -/
theorem StoredDirectory.eupdate_found (h : StoredDirectory fat fs dp cs) (hep : ep ≠ dp)
    (hdirty : (fs.ent ep).dirty = true) (hvalid : (fs.ent ep).valid = 1)
    (hparent : (fs.ent ep).parent = dp) (hoff : (fs.ent ep).off = 32 * n)
    (hn : n < (dirSlots fat fs.disk cs).length) (hm : m < (dirSlots fat fs.disk cs).length)
    (hnext : (32 * n + dropLast ((dirSlot fat fs.disk cs n).byte 0).toNat <<< 5) % 2 ^ 32 = 32 * m) :
    ∃ fs', eupdate fat fs ep = some fs' ∧
      dirSlots fat fs'.disk cs = (dirSlots fat fs.disk cs).set m
        ((dirSlot fat fs.disk cs m).withFields (fs.ent ep).firstClus (fs.ent ep).fileSize) ∧
      StoredDirectory fat fs' dp cs ∧ ∀ i, i ≠ dp → i ≠ ep → fs'.ent i = fs.ent i := by
  obtain ⟨c₁, hc₁, hreloc₁, h₁, -, order, horder, hbyte⟩ := h.reloc hn
  obtain ⟨c₂, hc₂, hreloc₂, h₂, hread, -⟩ := h₁.reloc hm
  obtain ⟨d', hwrite, hslots, h₃⟩ := h₂.write (n := 32) hm hc₂
    ((dirSlot fat fs.disk cs m).withFields (fs.ent ep).firstClus (fs.ent ep).fileSize) (by omega)
    le_rfl
  rw [Dentry.put_all (Dentry.length_withFields length_dirSlot _ _)] at hslots
  simp only [FileSystem.set_disk] at hread hwrite hslots
  have hcur : ∀ (fs : FileSystem) q c, ((fs.set dp ((fs.ent dp).at c q)).ent dp).curClus = c :=
    fun fs q c => by rw [FileSystem.set_ent_self]; rfl
  generalize hfs₂ : (fs.set dp ((fs.ent dp).at c₁ (32 * n / fat.bytsPerClus))).set dp
    (((fs.set dp ((fs.ent dp).at c₁ (32 * n / fat.bytsPerClus))).ent dp).at c₂
      (32 * m / fat.bytsPerClus)) = fs₂ at hreloc₂ h₃
  refine ⟨{ fs₂ with disk := d' }.set ep { fs₂.ent ep with dirty := false }, ?_, hslots, ?_,
    fun i hdp hne => ?_⟩
  · have hdisk₂ : fs₂.disk = fs.disk := by rw [← hfs₂]; rfl
    have hcur₂ : (fs₂.ent dp).curClus = c₂ := by rw [← hfs₂, hcur]
    rw [eupdate]
    simp only [hdirty, hvalid, hparent, hoff, hreloc₁, hcur, FileSystem.set_disk, horder, hbyte,
      Option.bind_eq_bind, Option.bind_some, Bool.not_true, Bool.false_eq_true, ne_eq, not_true,
      or_self, if_false, hnext, hreloc₂, hdisk₂, hcur₂, hread, hwrite]
    rfl
  · exact h₃.congr rfl (FileSystem.set_ent_of_ne _ _ hep.symm)
  · rw [FileSystem.set_ent_of_ne _ _ hne, ← hfs₂]
    show ((fs.set dp _).set dp _).ent i = fs.ent i
    rw [FileSystem.set_set, FileSystem.set_ent_of_ne _ _ hdp]

/-! ## Behind the end of the directory -/

/-- The first byte that is read at the offset -1. -/
theorem rwClusRead_minusOne (hsec : fat.bytsPerSec = 512) {got : ℕ} {de : Dentry}
    (hread : rwClusRead fat d c (kernelCopy []) minusOne 32 = some (got, de)) :
    ∃ rest, de = d.data (512 * rwClusSec fat c minusOne + 511) :: rest := by
  rw [rwClusRead, Option.ite_none_left_eq_some, Option.some.injEq, hsec] at hread
  obtain ⟨-, hread⟩ := hread
  have hround : roundLen bsize (minusOne % 512) (32 - 0) = 1 := by decide
  rw [rwClusReadLoop, if_pos (by decide), hround] at hread
  exact ⟨_, (Prod.mk.inj hread).2.symm⟩

/-- A slot that is written back there stays what it is in its first byte, and the last byte of
every slot keeps its value. -/
theorem rwClusWrite_minusOne (hsec : fat.bytsPerSec = 512) {put : ℕ} {d' : Disk} {bytes : Dentry}
    (hfirst : bytes.byte 0 = d.data (512 * rwClusSec fat c minusOne + 511))
    (hwrite : rwClusWrite fat d c (kernelCopy bytes) minusOne 32 = some (put, d')) {a : ℕ}
    (ha : a % 32 = 31) : d'.data a = d.data a := by
  rw [rwClusWrite, Option.ite_none_left_eq_some, Option.some.injEq, hsec] at hwrite
  obtain ⟨-, hwrite⟩ := hwrite
  have hround₁ : roundLen bsize (minusOne % 512) (32 - 0) = 1 := by decide
  have hround₂ : roundLen bsize (minusOne % 512 + 1) (32 - (0 + 1)) = 31 := by decide
  have hpos₁ : minusOne % 512 % bsize = 511 := by decide
  have hpos₂ : (minusOne % 512 + 1) % bsize = 0 := by decide
  have hok : ∀ i m, (kernelCopy bytes).ok i m = true := fun _ _ => rfl
  rw [rwClusWriteLoop, if_pos (by decide), hround₁, if_pos (hok _ _), hpos₁, rwClusWriteLoop,
    if_pos (by decide), hround₂, if_pos (hok _ _), hpos₂, rwClusWriteLoop,
    if_neg (by decide)] at hwrite
  rw [← (Prod.mk.inj hwrite).2, bwrite_copyBytes (by decide),
    copyBytes_outside (by omega), bwrite_copyBytes (by decide), copyBytes]
  split
  next hin =>
    obtain rfl : a = 512 * rwClusSec fat c minusOne + 511 := by omega
    rw [Nat.sub_self]
    exact hfirst
  next => rfl

/-- A call of `eupdate` whose slot lies behind the end leaves the last byte of every slot. -/
theorem StoredDirectory.eupdate_missing (h : StoredDirectory fat fs dp cs)
    (hdirty : (fs.ent ep).dirty = true) (hvalid : (fs.ent ep).valid = 1)
    (hparent : (fs.ent ep).parent = dp) (hoff : (fs.ent ep).off = 32 * n)
    (hn : n < (dirSlots fat fs.disk cs).length) (hm : (dirSlots fat fs.disk cs).length ≤ m)
    (hnext : (32 * n + dropLast ((dirSlot fat fs.disk cs n).byte 0).toNat <<< 5) % 2 ^ 32 = 32 * m)
    (hrun : eupdate fat fs ep = some fs') {a : ℕ} (ha : a % 32 = 31) :
    fs'.disk.data a = fs.disk.data a := by
  obtain ⟨c₁, hc₁, hreloc₁, h₁, -, order, horder, hbyte⟩ := h.reloc hn
  have hreloc₂ := h₁.relocEnt_missing (h₁.outside hm)
  generalize hfs₂ : (fs.set dp ((fs.ent dp).at c₁ (32 * n / fat.bytsPerClus))).set dp
    (((fs.set dp ((fs.ent dp).at c₁ (32 * n / fat.bytsPerClus))).ent dp).at
      ((fs.set dp ((fs.ent dp).at c₁ (32 * n / fat.bytsPerClus))).ent dp).firstClus 0) = fs₂
    at hreloc₂
  have hdisk₂ : fs₂.disk = fs.disk := by rw [← hfs₂]; rfl
  have hcur₁ : ((fs.set dp ((fs.ent dp).at c₁ (32 * n / fat.bytsPerClus))).ent dp).curClus = c₁ := by
    rw [FileSystem.set_ent_self]
    rfl
  rw [eupdate] at hrun
  simp only [hdirty, hvalid, hparent, hoff, hreloc₁, hcur₁, FileSystem.set_disk, horder, hbyte,
    Option.bind_eq_bind, Option.bind_some, Bool.not_true, Bool.false_eq_true, ne_eq, not_true,
    or_self, if_false, hnext, hreloc₂, hdisk₂] at hrun
  obtain ⟨⟨got, de⟩, hread, hrun⟩ := Option.bind_eq_some_iff.mp hrun
  obtain ⟨⟨put, d'⟩, hwrite, hend⟩ := Option.bind_eq_some_iff.mp hrun
  rw [← Option.some.inj hend]
  obtain ⟨rest, rfl⟩ := rwClusRead_minusOne h.sizes.sector hread
  exact rwClusWrite_minusOne h.sizes.sector rfl hwrite ha

end Update

/-! ## One call of `eremove` -/

section Remove
variable {fat : Fat32} {fs fs' : FileSystem} {d : Disk} {cs : List ℕ} {dp ep c n m k off2 : ℕ}
  {slots : List Dentry}

theorem eraseSlots_zero (k : ℕ) (slots : List Dentry) : eraseSlots k 0 slots = slots := by
  simp [eraseSlots]

theorem eraseSlots_succ (hk : k < slots.length) :
    eraseSlots (k + 1) m (slots.set k slots[k].erased) = eraseSlots k (m + 1) slots := by
  have htake : (slots.set k slots[k].erased).take (k + 1) =
      slots.take k ++ [slots[k].erased] := by
    rw [List.take_succ_eq_append_getElem (by rwa [List.length_set]), List.getElem_set_self,
      List.take_set_of_le le_rfl]
  have hdrop : ∀ i, k < i → (slots.set k slots[k].erased).drop i = slots.drop i := fun i hi =>
    List.drop_set_of_lt hi
  rw [eraseSlots, eraseSlots, htake, hdrop _ (by omega), hdrop _ (by omega),
    List.drop_eq_getElem_cons hk, List.take_succ_cons, List.map_cons, List.append_assoc,
    Nat.add_right_comm]
  rfl

theorem StoredDirectory.eremoveLoop_eq (h : StoredDirectory fat fs dp cs)
    (hkm : k + m ≤ (dirSlots fat fs.disk cs).length)
    (hcur : 0 < m → cs[32 * k / fat.bytsPerClus]? = some (fs.ent dp).curClus ∧
      off2 = 32 * k % fat.bytsPerClus) :
    ∃ fs', eremoveLoop fat dp m fs (32 * k) off2 = some fs' ∧
      dirSlots fat fs'.disk cs = eraseSlots k m (dirSlots fat fs.disk cs) ∧
      StoredDirectory fat fs' dp cs ∧ ∀ i ≠ dp, fs'.ent i = fs.ent i := by
  induction m generalizing fs k off2 with
  | zero => exact ⟨fs, rfl, (eraseSlots_zero k _).symm, h, fun _ _ => rfl⟩
  | succ m ih =>
      obtain ⟨hc, rfl⟩ := hcur (by omega)
      have hk : k < (dirSlots fat fs.disk cs).length := by omega
      obtain ⟨d', hwrite, hslots, h₁⟩ := h.write hk hc [BitVec.ofNat 8 emptyEntry] Nat.one_pos
        (by omega)
      have hlen : (dirSlots fat d' cs).length = (dirSlots fat fs.disk cs).length := by
        rw [length_dirSlots, length_dirSlots]
      have hnext : (32 * k + 32) % 2 ^ 32 = 32 * (k + 1) := by
        have hlt := h.slots_lt
        omega
      have hreloc : ∃ off fs₂, relocEnt fat { fs with disk := d' } dp (32 * (k + 1)) false =
          some (off, fs₂) ∧ StoredDirectory fat fs₂ dp cs ∧ fs₂.disk = d' ∧
          (∀ i ≠ dp, fs₂.ent i = fs.ent i) ∧
          (0 < m → cs[32 * (k + 1) / fat.bytsPerClus]? = some (fs₂.ent dp).curClus ∧
            off = 32 * (k + 1) % fat.bytsPerClus) := by
        rcases Nat.lt_or_ge (k + 1) (dirSlots fat d' cs).length with hin | hout
        · obtain ⟨c, hc', hrun, h₂, -⟩ := h₁.reloc hin
          refine ⟨_, _, hrun, h₂, rfl, fun i hi => FileSystem.set_ent_of_ne _ _ hi, fun _ => ?_⟩
          rw [FileSystem.set_ent_self]
          exact ⟨hc', rfl⟩
        · refine ⟨_, _, h₁.relocEnt_missing (h₁.outside hout), h₁.move h₁.chain.head_eq, rfl,
            fun i hi => FileSystem.set_ent_of_ne _ _ hi, fun hpos => ?_⟩
          omega
      obtain ⟨off, fs₂, hrun, h₂, hdisk₂, hent₂, hcur₂⟩ := hreloc
      obtain ⟨fs', hrest, hend, h', hent⟩ := ih h₂ (by rw [hdisk₂, hlen]; omega) hcur₂
      refine ⟨fs', ?_, ?_, h', fun i hi => (hent i hi).trans (hent₂ i hi)⟩
      · rw [eremoveLoop, hwrite]
        simp only [Option.bind_eq_bind, Option.bind_some, hnext, hrun]
        exact hrest
      · have hget : (dirSlots fat fs.disk cs)[k] = dirSlot fat fs.disk cs k := by simp [dirSlots]
        rw [hend, hdisk₂, hslots, ← eraseSlots_succ hk, hget]
        rfl

/-- A call of `eremove` marks the first slot and as many behind it as it says. -/
theorem StoredDirectory.eremove_eq (h : StoredDirectory fat fs dp cs) (hep : ep ≠ dp)
    (hvalid : (fs.ent ep).valid = 1) (hparent : (fs.ent ep).parent = dp)
    (hoff : (fs.ent ep).off = 32 * n)
    (hroom : n + (dropLast ((dirSlot fat fs.disk cs n).byte 0).toNat + 1) ≤
      (dirSlots fat fs.disk cs).length) :
    ∃ fs', eremove fat fs ep = some fs' ∧
      dirSlots fat fs'.disk cs = eraseSlots n
        (dropLast ((dirSlot fat fs.disk cs n).byte 0).toNat + 1) (dirSlots fat fs.disk cs) ∧
      StoredDirectory fat fs' dp cs ∧ ∀ i, i ≠ dp → i ≠ ep → fs'.ent i = fs.ent i := by
  obtain ⟨c, hc, hreloc, h₁, -, order, horder, hbyte⟩ := h.reloc (k := n) (by omega)
  have hcur : ((fs.set dp ((fs.ent dp).at c (32 * n / fat.bytsPerClus))).ent dp).curClus = c := by
    rw [FileSystem.set_ent_self]
    rfl
  obtain ⟨fs', hloop, hslots, h', hent⟩ := h₁.eremoveLoop_eq hroom
    (fun _ => ⟨by rw [hcur, hc], rfl⟩)
  refine ⟨fs'.set ep { fs'.ent ep with valid := -1 }, ?_, hslots, ?_, fun i hdp hne => ?_⟩
  · rw [eremove]
    simp only [hvalid, hparent, hoff, hreloc, hcur, FileSystem.set_disk, horder, hbyte,
      Option.bind_eq_bind, Option.bind_some, ne_eq, not_true, if_false, hloop]
    rfl
  · exact h'.congr rfl (FileSystem.set_ent_of_ne _ _ hep.symm)
  · rw [FileSystem.set_ent_of_ne _ _ hne, hent i hdp, FileSystem.set_ent_of_ne _ _ hdp]

end Remove

/-! ## Scanning -/

section Scan
variable {fat : Fat32} {fs : FileSystem} {cs : List ℕ} {dp ep k count fuel : ℕ} {code : ℤ}
  {s : Enext} {info : Option Dentry} {f : DirFile} {rest : List Dentry}

theorem OpenDirectory.scanLoop_step (h : OpenDirectory fat fs dp cs) (hep : (fs.ent ep).valid = 0)
    (hscan : scanSlots ((dirSlots fat fs.disk cs).drop k) (enextStart fs ep count) =
      some (code, s, info)) (hcode : code ≠ -1)
    (hle : k + s.count ≤ (dirSlots fat fs.disk cs).length) (fuel : ℕ) :
    ∃ fs', OpenDirectory fat fs' dp cs ∧ (fs'.ent ep).valid = 0 ∧ fs'.disk = fs.disk ∧
      scanLoop fat dp ep (fuel + 1) fs (32 * k) count =
        (scanLoop fat dp ep fuel fs' (32 * (k + s.count)) s.count).map fun rest =>
          if code = 1 then (enextEntry (fs.ent ep) s info).report (32 * k) s.count :: rest
          else rest := by
  obtain ⟨c, q, hc, hcall⟩ := h.enext_eq hep k count
  have hslots := h.slots_lt
  have hnext : (32 * k + s.count <<< 5) % 2 ^ 32 = 32 * (k + s.count) := by
    rw [Nat.shiftLeft_eq, Nat.mod_eq_of_lt (by omega)]
    omega
  refine ⟨afterEnext fs dp ep c q s info, h.after hep hc, ?_, rfl, ?_⟩
  · rw [afterEnext_entry, enextEntry_valid, hep]
  · have hafter : (fs.set dp ((fs.ent dp).at c q)).set ep (enextEntry (fs.ent ep) s info) =
        afterEnext fs dp ep c q s info := rfl
    rw [scanLoop, hcall, hscan]
    simp only [Option.bind_eq_bind, Option.map_some, Option.bind_some, if_neg hcode, hafter,
      afterEnext_entry, hnext]
    cases scanLoop fat dp ep fuel (afterEnext fs dp ep c q s info) (32 * (k + s.count)) s.count <;>
      rfl

theorem DirFile.report_eq (hname : ∀ x ≤ fat32MaxFilename, s.filename x = f.filename x)
    (entry : Dirent) (off : ℕ) :
    (enextEntry entry s (some f.short)).report off f.own.length = f.report off := by
  have hbytes : (List.range (fat32MaxFilename + 1)).map s.filename =
      (List.range (fat32MaxFilename + 1)).map f.filename := by
    apply List.map_congr_left
    intro x hx
    exact hname x (Nat.le_of_lt_succ (List.mem_range.mp hx))
  rw [Dirent.report, DirFile.report, Dirent.report, enextEntry_filename, hbytes]
  rfl

/-- The rounds on the files that are left, and the last one behind them. -/
theorem OpenDirectory.scan_files {l : Listing} (hl : l.WellFormed) (files : List DirFile)
    (hfiles : ∀ f ∈ files, f.WellFormed) (h : OpenDirectory fat fs dp cs)
    (hep : (fs.ent ep).valid = 0)
    (hdrop : (dirSlots fat fs.disk cs).drop k = files.flatMap DirFile.slots ++ (l.gap ++ l.rest))
    (hfuel : (files.flatMap DirFile.slots).length < fuel) :
    scanLoop fat dp ep fuel fs (32 * k) count = some (reports k files) := by
  induction files generalizing fs k count fuel with
  | nil =>
      obtain ⟨s', hscan⟩ := hl.scan_end (enextStart fs ep count)
      obtain ⟨fuel, rfl⟩ : ∃ n, fuel = n + 1 := ⟨fuel - 1, by omega⟩
      obtain ⟨c, q, hc, hcall⟩ := h.enext_eq hep k count
      rw [List.flatMap_nil, List.nil_append] at hdrop
      rw [scanLoop, hcall, hdrop, hscan]
      rfl
  | cons f files ih =>
      have hf := hfiles f List.mem_cons_self
      have hpos := List.length_pos_iff.mpr f.own_ne_nil
      have hlen := congrArg List.length hdrop
      rw [List.flatMap_cons, List.append_assoc] at hdrop
      rw [List.flatMap_cons, List.length_append, DirFile.slots, List.length_append] at hfuel
      rw [List.length_drop, List.flatMap_cons, List.length_append, List.length_append,
        DirFile.slots, List.length_append] at hlen
      -- the file itself, at the place where its own slots begin
      have hown : ∀ fs' k' count' fuel, OpenDirectory fat fs' dp cs → (fs'.ent ep).valid = 0 →
          fs'.disk = fs.disk → k' + f.own.length ≤ (dirSlots fat fs.disk cs).length →
          (dirSlots fat fs.disk cs).drop k' =
            f.own ++ (files.flatMap DirFile.slots ++ (l.gap ++ l.rest)) →
          (files.flatMap DirFile.slots).length < fuel →
          scanLoop fat dp ep (fuel + 1) fs' (32 * k') count' =
            some (f.report (32 * k') :: reports (k' + f.own.length) files) := by
        intro fs₁ k' count' fuel hopen hvalid hdisk hin hdrop' hfuel'
        obtain ⟨counting, hscan⟩ := hf.scan (files.flatMap DirFile.slots ++ (l.gap ++ l.rest))
          (enextStart fs₁ ep count') rfl rfl
        rw [← hdrop', ← hdisk] at hscan
        obtain ⟨fs₂, hopen₂, hvalid₂, hdisk₂, hround⟩ :=
          hopen.scanLoop_step hvalid hscan (by decide) (by rw [hdisk]; exact hin) fuel
        rw [hround, ih (fun f hf => hfiles f (List.mem_cons_of_mem _ hf)) hopen₂ hvalid₂ _ hfuel',
          Option.map_some, if_pos rfl, f.report_eq fun x hx =>
            f.readName_congr (enextStart_zero fs₁ ep count' hx)]
        rw [hdisk₂, hdisk, ← List.drop_drop, hdrop', List.drop_left]
      rw [reports]
      by_cases hgap : f.gap = []
      · obtain ⟨fuel, rfl⟩ : ∃ n, fuel = n + 1 := ⟨fuel - 1, by omega⟩
        rw [DirFile.slots, hgap, List.nil_append] at hdrop ⊢
        exact hown fs k count fuel h hep rfl (by omega) hdrop (by omega)
      · have hgappos := List.length_pos_iff.mpr hgap
        obtain ⟨fuel, rfl⟩ : ∃ n, fuel = n + 2 := ⟨fuel - 2, by omega⟩
        have hscan := hf.scan_gap hgap (files.flatMap DirFile.slots ++ (l.gap ++ l.rest))
          (enextStart fs ep count) rfl rfl
        rw [← hdrop] at hscan
        obtain ⟨fs₁, hopen, hvalid, hdisk, hround⟩ :=
          h.scanLoop_step hep hscan (by decide) (by dsimp only; omega) (fuel + 1)
        dsimp only at hround
        rw [hround, hown fs₁ (k + f.gap.length) _ fuel hopen hvalid hdisk (by omega) _ (by omega),
          Option.map_some, if_neg (by decide), DirFile.slots, List.length_append, Nat.add_assoc]
        rw [← List.drop_drop, hdrop, DirFile.slots, List.append_assoc, List.drop_left]

end Scan

/-! ## Which entries are written right -/

section Right
variable {fat : Fat32} {fs fs' : FileSystem} {cs : List ℕ} {dp ep k n : ℕ} {l : Listing}
  {pre post : List DirFile} {f g : DirFile} {de : Dentry}

theorem reports_append (k : ℕ) (pre post : List DirFile) :
    reports k (pre ++ post) =
      reports k pre ++ reports (k + (pre.flatMap DirFile.slots).length) post := by
  induction pre generalizing k with
  | nil => rfl
  | cons f pre ih =>
      rw [List.cons_append, reports, reports, ih, List.flatMap_cons, List.length_append,
        List.cons_append, Nat.add_assoc]

theorem OpenDirectory.freshScan_eq (h : OpenDirectory fat fs dp cs) (hl : l.WellFormed)
    (hslots : dirSlots fat fs.disk cs = l.slots) (hep : (fs.ent ep).valid = 0) :
    freshScan fat fs dp ep = some (reports 0 l.files) := by
  have hlt := h.slots_lt
  rw [hslots, Listing.slots, Listing.used, List.length_append] at hlt
  exact h.scan_files (k := 0) hl l.files hl.files hep hslots (by rw [slotFuel]; omega)

theorem Dentry.byte_withFields (hde : de.length = 32) (firstClus fileSize : ℕ) {i : ℕ} (hi : i < 20) :
    (de.withFields firstClus fileSize).byte i = de.byte i := by
  have hlt : i < de.length := by omega
  simp [Dentry.withFields, Dentry.byte, List.getElem?_append, hde, hi, List.getElem?_eq_getElem hlt]

theorem Dentry.deleted_erased (de : Dentry) : Deleted de.erased := by
  rw [Deleted, Dentry.erased, Dentry.byte_put (by decide), if_pos (by decide)]
  rfl

/-- The first byte of a file with a long name is the number of its slots, less one. -/
theorem DirFile.WellFormed.order (hf : f.WellFormed) (h : f.longs ≠ [] ∨ f.short.byte 0 = 0x40) :
    ∃ de des, f.own = de :: des ∧ dropLast (de.byte 0).toNat + 1 = f.own.length := by
  have hbits : ∀ n < 20, dropLast ((n + 1) ||| lastLongEntry) = n + 1 := by decide
  rw [own]
  cases hlongs : f.longs with
  | nil =>
      refine ⟨f.short, [], rfl, ?_⟩
      rw [h.resolve_left (fun hne => hne hlongs)]
      rfl
  | cons de des =>
      refine ⟨de, des ++ [f.short], rfl, ?_⟩
      have hlong := hf.longs
      rw [hlongs] at hlong
      cases hlong with
      | parts horder _ hlen _ =>
          rw [horder, hbits _ hlen, List.length_append]
          rfl

theorem Listing.slots_split (hfiles : l.files = pre ++ f :: post) :
    l.slots = (pre.flatMap DirFile.slots ++ f.gap) ++
      (f.own ++ (post.flatMap DirFile.slots ++ (l.gap ++ l.rest))) := by
  simp [Listing.slots, Listing.used, hfiles, DirFile.slots]

theorem dirSlot_of_split {d : Disk} {a b : List Dentry} (h : dirSlots fat d cs = a ++ de :: b) :
    dirSlot fat d cs a.length = de := by
  have hlt : a.length < (dirSlots fat d cs).length := by
    rw [h, List.length_append, List.length_cons]
    omega
  have hget : (dirSlots fat d cs)[a.length] = dirSlot fat d cs a.length := by simp [dirSlots]
  rw [← hget, List.getElem_of_eq h, List.getElem_append_right le_rfl]
  simp

theorem eraseSlots_split (a b c : List Dentry) :
    eraseSlots a.length b.length (a ++ (b ++ c)) = a ++ (b.map Dentry.erased ++ c) := by
  rw [eraseSlots, List.take_left, List.drop_left, List.take_left, ← List.drop_drop, List.drop_left,
    List.drop_left]

theorem modify_split (a b : List Dentry) (de : Dentry) (g : Dentry → Dentry) :
    (a ++ de :: b).modify a.length g = a ++ g de :: b := by
  rw [List.modify_eq_take_drop, List.take_left, List.drop_left]
  rfl

theorem reports_split (hfiles : l.files = pre ++ f :: post) :
    reports 0 l.files = reports 0 pre ++
      f.report (32 * ((pre.flatMap DirFile.slots).length + f.gap.length)) ::
        reports ((pre.flatMap DirFile.slots).length + f.slots.length) post := by
  rw [hfiles, reports_append, reports, Nat.zero_add]

/-- The scans before and after a call. -/
theorem OpenDirectory.scansOthers {l' : Listing} {after : List Report} {this : Report}
    {own : List ℕ} {off count : ℕ} (before new : List Report) (h : OpenDirectory fat fs dp cs)
    (hl : l.WellFormed) (hslots : dirSlots fat fs.disk cs = l.slots)
    (h' : OpenDirectory fat fs' dp cs) (hl' : l'.WellFormed)
    (hslots' : dirSlots fat fs'.disk cs = l'.slots) (hvalid : (fs.ent ep).valid = 1)
    (hent : ∀ i, i ≠ dp → i ≠ ep → fs'.ent i = fs.ent i)
    (hreports : reports 0 l.files = before ++ this :: after) (hoff : this.off = off)
    (hcount : this.count = count) (hreports' : reports 0 l'.files = before ++ (new ++ after))
    (hnew : new.map Report.off = own) : ScansOthers fat fs fs' dp off count own := by
  intro i hi
  have hne : i ≠ ep := by
    rintro rfl
    omega
  refine ⟨before, this, after, new, ?_, hoff, hcount, ?_, hnew⟩
  · rw [h.freshScan_eq hl hslots hi, hreports]
  · rw [h'.freshScan_eq hl' hslots' (by rw [hent i (h.ne hi) hne, hi]), hreports']

/-- The slots of a file lie in the directory, and the first one tells their number. -/
theorem DirFile.WellFormed.order_dirSlot {d : Disk} (hwell : f.WellFormed)
    (hslots : dirSlots fat d cs = l.slots) (hfiles : l.files = pre ++ f :: post)
    (hn : (pre.flatMap DirFile.slots ++ f.gap).length = n)
    (hf : f.longs ≠ [] ∨ f.short.byte 0 = 0x40) :
    dropLast ((dirSlot fat d cs n).byte 0).toNat + 1 = f.own.length ∧
      n + f.own.length ≤ (dirSlots fat d cs).length := by
  obtain ⟨de, des, hown, horder⟩ := hwell.order hf
  have hsplit := hslots.trans (Listing.slots_split hfiles)
  have hlen := congrArg List.length hsplit
  rw [List.length_append, hn, List.length_append] at hlen
  have hfirst : dirSlot fat d cs n = de := by
    rw [← hn]
    apply dirSlot_of_split (b := des ++ (post.flatMap DirFile.slots ++ (l.gap ++ l.rest)))
    rw [hsplit, hown]
    rfl
  rw [hfirst]
  exact ⟨horder, by omega⟩

theorem StoredDirectory.update_right (h : StoredDirectory fat fs dp cs) (hl : l.WellFormed)
    (hslots : dirSlots fat fs.disk cs = l.slots) (hfiles : l.files = pre ++ f :: post)
    (hn : (pre.flatMap DirFile.slots ++ f.gap).length = n) (hep : ep ≠ dp)
    (hparent : (fs.ent ep).parent = dp) (hvalid : (fs.ent ep).valid = 1)
    (hoff : (fs.ent ep).off = 32 * n) (hf : f.longs ≠ [] ∨ f.short.byte 0 = 0x40)
    (hdirty : (fs.ent ep).dirty = true) : ∃ fs', eupdate fat fs ep = some fs' ∧
      dirSlots fat fs'.disk cs = (dirSlots fat fs.disk cs).modify (n + f.own.length - 1)
        (Dentry.withFields · (fs.ent ep).firstClus (fs.ent ep).fileSize) ∧
      ScansOthers fat fs fs' dp (32 * n) f.own.length [32 * n] := by
  have hwell : f.WellFormed := hl.files f (by simp [hfiles])
  obtain ⟨horder, hlen⟩ := hwell.order_dirSlot hslots hfiles hn hf
  have hlast : (pre.flatMap DirFile.slots ++ f.gap ++ f.longs).length = n + f.own.length - 1 := by
    rw [List.length_append, hn, DirFile.own, List.length_append]
    rfl
  have hpos := List.length_pos_iff.mpr f.own_ne_nil
  have hshort : dirSlots fat fs.disk cs = (pre.flatMap DirFile.slots ++ f.gap ++ f.longs) ++
      f.short :: (post.flatMap DirFile.slots ++ (l.gap ++ l.rest)) := by
    rw [hslots, Listing.slots_split hfiles, DirFile.own]
    simp
  have hm : dirSlot fat fs.disk cs (n + f.own.length - 1) = f.short := by
    rw [← hlast]
    exact dirSlot_of_split hshort
  have hslotsLt := h.slots_lt
  obtain ⟨fs', hrun, hset, h', hent⟩ := h.eupdate_found (n := n) (m := n + f.own.length - 1) hep
    hdirty hvalid hparent hoff (by omega) (by omega) (by
      rw [Nat.shiftLeft_eq]
      omega)
  have hmodify : dirSlots fat fs'.disk cs = (dirSlots fat fs.disk cs).modify (n + f.own.length - 1)
      (Dentry.withFields · (fs.ent ep).firstClus (fs.ent ep).fileSize) := by
    rw [hset, hm, hshort, ← hlast, modify_split, List.set_append_right _ _ le_rfl, Nat.sub_self]
    rfl
  refine ⟨fs', hrun, hmodify, ?_⟩
  have hlength : f.short.length = 32 := hm ▸ length_dirSlot
  generalize (fs.ent ep).firstClus = firstClus at hmodify
  generalize (fs.ent ep).fileSize = fileSize at hmodify
  have hbyte := fun i (hi : i < 20) => Dentry.byte_withFields hlength firstClus fileSize hi
  have hl' : Listing.WellFormed { l with
      files := pre ++ { f with short := f.short.withFields firstClus fileSize } :: post } := by
    refine ⟨fun g hg => ?_, hl.gap, hl.rest⟩
    rcases List.mem_append.mp hg with hg | hg
    · exact hl.files g (by simp [hfiles, hg])
    rcases List.mem_cons.mp hg with rfl | hg
    · refine ⟨hwell.gap, hwell.longs, ?_, ?_⟩
      · rw [Live, Deleted, NeverUsed, hbyte 0 (by decide)]
        exact hwell.live
      · rw [IsLong, hbyte 11 (by decide)]
        exact hwell.short
    · exact hl.files g (by simp [hfiles, hg])
  refine OpenDirectory.scansOthers (l := l) (reports 0 pre)
    [DirFile.report { f with short := f.short.withFields firstClus fileSize } (32 * n)]
    h.toOpenDirectory hl hslots h'.toOpenDirectory hl' ?_ hvalid hent
    (reports_split hfiles) ?_ rfl ?_ rfl
  · rw [hmodify, hshort, ← hlast, modify_split, Listing.slots_split rfl]
    simp [DirFile.own]
  · rw [← hn, List.length_append]
    rfl
  · rw [reports_split rfl, ← hn]
    simp [DirFile.slots, DirFile.own]

theorem StoredDirectory.remove_right (h : StoredDirectory fat fs dp cs) (hl : l.WellFormed)
    (hslots : dirSlots fat fs.disk cs = l.slots) (hfiles : l.files = pre ++ f :: post)
    (hn : (pre.flatMap DirFile.slots ++ f.gap).length = n) (hep : ep ≠ dp)
    (hparent : (fs.ent ep).parent = dp) (hvalid : (fs.ent ep).valid = 1)
    (hoff : (fs.ent ep).off = 32 * n) (hf : f.longs ≠ [] ∨ f.short.byte 0 = 0x40) :
    ∃ fs', eremove fat fs ep = some fs' ∧
      dirSlots fat fs'.disk cs = eraseSlots n f.own.length (dirSlots fat fs.disk cs) ∧
      ScansOthers fat fs fs' dp (32 * n) f.own.length [] := by
  have hwell : f.WellFormed := hl.files f (by simp [hfiles])
  obtain ⟨horder, hlen⟩ := hwell.order_dirSlot hslots hfiles hn hf
  obtain ⟨fs', hrun, herase, h', hent⟩ := h.eremove_eq hep hvalid hparent hoff
    (by rw [horder]; exact hlen)
  rw [horder] at herase
  refine ⟨fs', hrun, herase, ?_⟩
  rw [hslots, Listing.slots_split hfiles, ← hn, eraseSlots_split] at herase
  have hgap : ∀ de ∈ f.gap ++ f.own.map Dentry.erased, Deleted de := fun de hde => by
    rcases List.mem_append.mp hde with hde | hde
    · exact hwell.gap de hde
    · obtain ⟨x, -, rfl⟩ := List.mem_map.mp hde
      exact x.deleted_erased
  have hoff' : (f.report (32 * ((pre.flatMap DirFile.slots).length + f.gap.length))).off =
      32 * n := by
    rw [← hn, List.length_append]
    rfl
  cases post with
  | nil =>
      have hl' : Listing.WellFormed ⟨pre, f.gap ++ f.own.map Dentry.erased ++ l.gap, l.rest⟩ := by
        refine ⟨fun g hg => hl.files g (by simp [hfiles, hg]), fun de hde => ?_, hl.rest⟩
        rcases List.mem_append.mp hde with hde | hde
        · exact hgap de hde
        · exact hl.gap de hde
      refine OpenDirectory.scansOthers (l := l) (reports 0 pre) [] h.toOpenDirectory hl hslots
        h'.toOpenDirectory hl' ?_ hvalid hent (reports_split hfiles) hoff' rfl ?_ rfl
      · rw [herase]
        simp [Listing.slots, Listing.used]
      · simp [reports]
  | cons g post =>
      have hl' : Listing.WellFormed { l with
          files := pre ++ { g with gap := f.gap ++ f.own.map Dentry.erased ++ g.gap } :: post } := by
        refine ⟨fun x hx => ?_, hl.gap, hl.rest⟩
        rcases List.mem_append.mp hx with hx | hx
        · exact hl.files x (by simp [hfiles, hx])
        have hg : g.WellFormed := hl.files g (by simp [hfiles])
        rcases List.mem_cons.mp hx with rfl | hx
        · refine ⟨fun de hde => ?_, hg.longs, hg.live, hg.short⟩
          rcases List.mem_append.mp hde with hde | hde
          · exact hgap de hde
          · exact hg.gap de hde
        · exact hl.files x (by simp [hfiles, hx])
      refine OpenDirectory.scansOthers (l := l) (reports 0 pre) [] h.toOpenDirectory hl hslots
        h'.toOpenDirectory hl' ?_ hvalid hent (reports_split hfiles) hoff' rfl ?_ rfl
      · rw [herase, Listing.slots_split rfl]
        simp [DirFile.slots, DirFile.own]
      · have hgaplen : (f.gap ++ f.own.map Dentry.erased ++ g.gap).length =
            f.slots.length + g.gap.length := by simp [DirFile.slots, Nat.add_assoc]
        have hslotslen : (DirFile.slots { g with
            gap := f.gap ++ f.own.map Dentry.erased ++ g.gap }).length =
            f.slots.length + g.slots.length := by
          rw [DirFile.slots, List.length_append, hgaplen, DirFile.slots, DirFile.slots]
          simp [DirFile.own, Nat.add_assoc]
        rw [reports_split rfl, reports, hslotslen, List.nil_append]
        dsimp only
        rw [hgaplen, ← Nat.add_assoc, ← Nat.add_assoc]
        rfl

theorem dropLast_eq_zero {c : Byte} (h : dropLast c.toNat = 0) : c = 0 ∨ c = 0x40 := by
  have hbits : ∀ n < 256, dropLast n = 0 → n = 0 ∨ n = 0x40 := by decide +kernel
  exact (hbits c.toNat c.isLt h).imp (fun heq => BitVec.eq_of_toNat_eq heq)
    fun heq => BitVec.eq_of_toNat_eq heq

/-- An entry without long name is not written back to its slot. -/
theorem StoredDirectory.update_astray (h : StoredDirectory fat fs dp cs) (hep : ep ≠ dp)
    (hdirty : (fs.ent ep).dirty = true) (hvalid : (fs.ent ep).valid = 1)
    (hparent : (fs.ent ep).parent = dp) (hoff : (fs.ent ep).off = 32 * n)
    (hn : n < (dirSlots fat fs.disk cs).length)
    (hfirst : dropLast ((dirSlot fat fs.disk cs n).byte 0).toNat ≠ 0)
    (hrun : eupdate fat fs ep = some fs') :
    (dirSlot fat fs'.disk cs n).byte 31 = (dirSlot fat fs.disk cs n).byte 31 := by
  have hsmall : dropLast ((dirSlot fat fs.disk cs n).byte 0).toNat ≤ 0xBF := Nat.and_le_right
  have hlt := h.slots_lt
  obtain ⟨m, hm⟩ : ∃ m, (32 * n + dropLast ((dirSlot fat fs.disk cs n).byte 0).toNat <<< 5) % 2 ^ 32 =
      32 * m := by
    refine ⟨(32 * n + dropLast ((dirSlot fat fs.disk cs n).byte 0).toNat <<< 5) % 2 ^ 32 / 32, ?_⟩
    rw [Nat.shiftLeft_eq]
    omega
  have hne : m ≠ n := by
    rw [Nat.shiftLeft_eq] at hm
    omega
  rcases Nat.lt_or_ge m (dirSlots fat fs.disk cs).length with hin | hout
  · obtain ⟨fs₁, hrun₁, hset, -⟩ := h.eupdate_found hep hdirty hvalid hparent hoff hn hin hm
    obtain rfl := Option.some.inj (hrun₁.symm.trans hrun)
    have hn' : n < (dirSlots fat fs₁.disk cs).length := by rwa [length_dirSlots] at hn ⊢
    have hget : (dirSlots fat fs.disk cs)[n] = dirSlot fat fs.disk cs n := by simp [dirSlots]
    have hget' : (dirSlots fat fs₁.disk cs)[n] = dirSlot fat fs₁.disk cs n := by simp [dirSlots]
    rw [← hget', ← hget, List.getElem_of_eq hset, List.getElem_set_ne hne]
  · have haligned := (h.sizes.slot_inside (show 32 * n % 32 = 0 by omega)).1
    rw [dirSlot, dirSlot, byte_clusterSlot (by decide), byte_clusterSlot (by decide)]
    exact h.eupdate_missing hdirty hvalid hparent hoff hn hout hm hrun (by omega)

theorem Dentry.size_withFields (hde : de.length = 32) (firstClus fileSize : ℕ) :
    (de.withFields firstClus fileSize).byte 31 = BitVec.ofNat 8 (fileSize / 256 ^ 3) := by
  simp [Dentry.withFields, Dentry.byte, hde, leBytes]

/-- A size that differs from the stored one does not reach the slot. -/
theorem StoredDirectory.not_updated (h : StoredDirectory fat fs dp cs) (hep : ep ≠ dp)
    (hdirty : (fs.ent ep).dirty = true) (hvalid : (fs.ent ep).valid = 1)
    (hparent : (fs.ent ep).parent = dp) (hoff : (fs.ent ep).off = 32 * n)
    (hn : n < (dirSlots fat fs.disk cs).length)
    (hfirst : dropLast ((dirSlot fat fs.disk cs n).byte 0).toNat ≠ 0)
    (hsize : BitVec.ofNat 8 ((fs.ent ep).fileSize / 256 ^ 3) ≠ (dirSlot fat fs.disk cs n).byte 31) :
    ¬ SlotsRight fat fs dp cs ep n 1 := by
  intro hright
  obtain ⟨fs', hrun, hslots, -⟩ := hright.update hdirty
  rw [Nat.add_sub_cancel] at hslots
  have hkept := h.update_astray hep hdirty hvalid hparent hoff hn hfirst hrun
  have hn' : n < (dirSlots fat fs'.disk cs).length := by rwa [length_dirSlots] at hn ⊢
  have hget : (dirSlots fat fs.disk cs)[n] = dirSlot fat fs.disk cs n := by simp [dirSlots]
  have hget' : (dirSlots fat fs'.disk cs)[n] = dirSlot fat fs'.disk cs n := by simp [dirSlots]
  have hnew : dirSlot fat fs'.disk cs n =
      (dirSlot fat fs.disk cs n).withFields (fs.ent ep).firstClus (fs.ent ep).fileSize := by
    rw [← hget', List.getElem_of_eq hslots, List.getElem_modify_eq, hget]
  rw [hnew, Dentry.size_withFields length_dirSlot] at hkept
  exact hsize hkept

/-- `eupdate` and `eremove` write the slots of an entry, and nothing else of the directory, if it
has a long name or its short name begins with the character `@`; of no other entry. -/
theorem StoredDirectory.slots_iff (h : StoredDirectory fat fs dp cs) (hl : l.WellFormed)
    (hslots : dirSlots fat fs.disk cs = l.slots) (hfiles : l.files = pre ++ f :: post)
    (hn : (pre.flatMap DirFile.slots ++ f.gap).length = n) (hep : ep ≠ dp) :
    (∀ entry : Dirent, entry.parent = dp → entry.valid = 1 → entry.off = 32 * n →
      SlotsRight fat (fs.set ep entry) dp cs ep n f.own.length) ↔
      f.longs ≠ [] ∨ f.short.byte 0 = 0x40 := by
  have hset : ∀ entry, StoredDirectory fat (fs.set ep entry) dp cs := fun entry =>
    h.congr rfl (FileSystem.set_ent_of_ne _ _ hep.symm)
  constructor
  · intro hright
    by_contra hno
    obtain ⟨hlongs, hbyte⟩ := not_or.mp hno
    rw [not_not] at hlongs
    have hwell : f.WellFormed := hl.files f (by simp [hfiles])
    have hsplit : dirSlots fat fs.disk cs = (pre.flatMap DirFile.slots ++ f.gap) ++
        f.short :: (post.flatMap DirFile.slots ++ (l.gap ++ l.rest)) := by
      rw [hslots, Listing.slots_split hfiles, DirFile.own, hlongs]
      rfl
    have hlen := congrArg List.length hsplit
    rw [List.length_append, hn, List.length_cons] at hlen
    have hslot : dirSlot fat fs.disk cs n = f.short := hn ▸ dirSlot_of_split hsplit
    -- an entry whose size differs from the slot's in the last byte
    obtain ⟨size, hsize⟩ : ∃ size, BitVec.ofNat 8 (size / 256 ^ 3) ≠ f.short.byte 31 := by
      by_cases hzero : f.short.byte 31 = 0
      · exact ⟨256 ^ 3, by rw [hzero]; decide⟩
      · exact ⟨0, by rwa [Nat.zero_div, ne_comm]⟩
    have hone : f.own.length = 1 := by rw [DirFile.own, hlongs]; rfl
    have hself := FileSystem.set_ent_self fs ep ⟨fun _ => 0, 0, 0, size, 0, 0, true, 1, 0, 32 * n, dp⟩
    have hnot := (hset ⟨fun _ => 0, 0, 0, size, 0, 0, true, 1, 0, 32 * n, dp⟩).not_updated (n := n)
      hep (by rw [hself]) (by rw [hself]) (by rw [hself]) (by rw [hself])
      (show n < (dirSlots fat fs.disk cs).length by omega)
      (by
        show dropLast ((dirSlot fat fs.disk cs n).byte 0).toNat ≠ 0
        rw [hslot]
        exact fun hdrop => (dropLast_eq_zero hdrop).elim
          (fun hzero => hwell.live.2 (congrArg BitVec.toNat hzero)) hbyte)
      (by
        show BitVec.ofNat 8 _ ≠ (dirSlot fat fs.disk cs n).byte 31
        rw [hself, hslot]
        exact hsize)
    rw [← hone] at hnot
    exact hnot (hright _ rfl rfl rfl)
  · intro hf entry hparent hvalid hoff
    constructor
    case update =>
      rw [← FileSystem.set_ent_self fs ep entry] at hparent hvalid hoff
      exact (hset entry).update_right hl hslots hfiles hn hep hparent hvalid hoff hf
    case remove =>
      rw [← FileSystem.set_ent_self fs ep entry] at hparent hvalid hoff
      exact (hset entry).remove_right hl hslots hfiles hn hep hparent hvalid hoff hf

end Right

/-! ## Four files with short names -/

/-- Its files are `@`, `B`, `C` and `D`; the entry 1 is the one of `B`. -/
def filesDirectory : FileSystem :=
  { pairDirectory with
    disk := ⟨fun a =>
      if 1024 ≤ a ∧ a < 1152 ∧ a % 32 = 0 then [0x40, 0x42, 0x43, 0x44].getD ((a - 1024) / 32) 0
      else if 1024 ≤ a ∧ a < 1152 ∧ a % 32 < 11 then 0x20
      else pairDisk.data a, [], []⟩
    ent := fun i =>
      if i = 1 then { pairEntry with off := 32 } else pairDirectory.ent i }

def filesSlot (i : ℕ) : DirFile := ⟨[], [], dirSlot pairFat filesDirectory.disk [2] i⟩

def filesListing : Listing :=
  ⟨[filesSlot 0, filesSlot 1, filesSlot 2, filesSlot 3], [],
    (dirSlots pairFat filesDirectory.disk [2]).drop 4⟩

theorem files_stored : StoredDirectory pairFat filesDirectory 0 [2] :=
  ⟨pair_open (by decide) rfl, by constructor <;> decide, by simp [DataClus, pairFat]⟩

theorem files_listed :
    filesListing.WellFormed ∧ dirSlots pairFat filesDirectory.disk [2] = filesListing.slots := by
  refine ⟨⟨?_, by decide +kernel, by decide +kernel⟩, by decide +kernel⟩
  intro f hf
  have hfiles : f = filesSlot 0 ∨ f = filesSlot 1 ∨ f = filesSlot 2 ∨ f = filesSlot 3 := by
    simpa [filesListing] using hf
  obtain rfl | rfl | rfl | rfl := hfiles <;>
    exact ⟨by decide +kernel, .none, by decide +kernel, by decide +kernel⟩

/-- The slot of `@` is written right. -/
theorem slots_files :
    (∀ entry : Dirent, entry.parent = 0 → entry.valid = 1 → entry.off = 32 * 0 →
      SlotsRight pairFat (filesDirectory.set 1 entry) 0 [2] 1 0 1) ↔
    (filesSlot 0).longs ≠ [] ∨ (filesSlot 0).short.byte 0 = 0x40 :=
  have hfiles : filesListing.files = [] ++ filesSlot 0 ::
      [filesSlot 1, filesSlot 2, filesSlot 3] := rfl
  files_stored.slots_iff files_listed.1 files_listed.2 hfiles rfl (by decide)

/-- A call for `B` takes `C` and `D` with it. -/
theorem eremove_takes_files :
    (∃ fs', eremove pairFat filesDirectory 1 = some fs' ∧ dirSlots pairFat fs'.disk [2] =
      eraseSlots 1 3 (dirSlots pairFat filesDirectory.disk [2])) ∧
    ¬ SlotsRight pairFat filesDirectory 0 [2] 1 1 1 := by
  have horder : dropLast ((dirSlot pairFat filesDirectory.disk [2] 1).byte 0).toNat + 1 = 3 := by
    decide
  obtain ⟨fs', hrun, herased, -⟩ := files_stored.eremove_eq (n := 1)
    (show 1 ≠ 0 by decide) rfl rfl rfl (by rw [horder, length_dirSlots]; decide)
  rw [horder] at herased
  refine ⟨⟨fs', hrun, herased⟩, fun hright => ?_⟩
  obtain ⟨fs₁, hrun₁, herased₁, -⟩ := hright.remove
  obtain rfl := Option.some.inj (hrun.symm.trans hrun₁)
  have hsame := congrArg (fun slots => Dentry.byte (slots.getD 2 []) 0)
    (herased.symm.trans herased₁)
  exact absurd hsame (by decide +kernel)

end K210Os
