import K210Os.DirectoryListing
import Mathlib.Data.List.Find
import Mathlib.Data.List.Nodup

/-!
# Reading the entries of a directory

`ls` fills the buffer of `sys_getdents64` with a record for each thing that `enext` tells,
runs of deleted slots included, from offset 0 on in every call. Its second entry `ep2` is a
local variable that is not initialised. The module compares what a sequence of calls returns
with an enumeration of the files.
-/

namespace K210Os

open LinkedChain

/-- What a record tells of a file: its inode number, its type and its name. -/
structure DirRecord where
  ino : ℕ
  type : ℕ
  name : List Byte

/-- `struct linux_dirent64` at its address. -/
structure LinuxDirent extends DirRecord where
  addr : ℕ
  off : ℕ
  reclen : ℕ

/-- The number of the local `ep2`, which is not in the cache. -/
def stackEntry : ℕ := 51

/-- The loop of `ls` with its size as a `size_t`: the records, and `nread`. -/
def lsLoop (fat : Fat32) (ep size : ℕ) :
    ℕ → FileSystem → ℕ → ℕ → ℕ → ℕ → Option (List LinuxDirent × ℕ × FileSystem)
  | 0, _, _, _, _, _ => none
  | fuel + 1, fs, off, count, addr, nread => do
      let (type, count, fs) ← enext fat fs ep stackEntry off count
      if type = -1 then return ([], nread, fs)
      let ep2 := fs.ent stackEntry
      let len := strlen ep2.filename
      if nread + len + 1 + 19 ≥ size then return ([], nread, fs)
      let reclen := 19 + len + 1
      let dt : LinuxDirent :=
        { ino := ep2.firstClus
          type := ep2.attr
          name := (List.range len).map ep2.filename
          addr := addr
          off := addr + reclen
          reclen := reclen }
      let (dts, nread, fs) ←
        lsLoop fat ep size fuel fs ((off + count <<< 5) % 2 ^ 32) count (addr + reclen)
          (nread + reclen)
      return (dt :: dts, nread, fs)

/-- `ls` with what the stack holds at `ep2`. -/
def ls (fat : Fat32) (fs : FileSystem) (ep : ℕ) (ep2 : Dirent) (addr : ℕ) (size : ℤ) :
    Option (ℤ × List LinuxDirent × FileSystem) :=
  if !(fs.ent ep).isDirectory then some (-1, [], fs)
  else do
    let (_, fs) ← relocEnt fat (fs.set stackEntry ep2) ep 0 false
    let (dts, nread, fs) ← lsLoop fat ep (size % 2 ^ 64).toNat slotFuel fs 0 0 addr 0
    return (nread, dts, fs)

/-- The buffer of a call of `sys_getdents64`, and what its stack holds at `ep2`. -/
structure GetdentsCall where
  ep2 : Dirent
  addr : ℕ
  size : ℤ

/-- `sys_getdents64` of the entry of the file that `argfd` found. -/
def sysGetdents64 (fat : Fat32) (fs : FileSystem) (f : Option ℕ) (call : GetdentsCall) :
    Option (ℤ × List LinuxDirent × FileSystem) :=
  match f with
  | none => some (-1, [], fs)
  | some ep => ls fat fs ep call.ep2 call.addr call.size

/-- Calls one after the other on one descriptor, with what each returned. -/
def getdentsCalls (fat : Fat32) (f : Option ℕ) :
    FileSystem → List GetdentsCall → Option (List (ℤ × List LinuxDirent))
  | _, [] => some []
  | fs, call :: calls => do
      let (n, dts, fs) ← sysGetdents64 fat fs f call
      let rest ← getdentsCalls fat f fs calls
      return (n, dts) :: rest

/-! ## An enumeration of the files -/

/-- Records that fill a buffer from an address on, `n` bytes in all. -/
def LaidOut : ℕ → ℤ → List LinuxDirent → Prop
  | _, n, [] => n = 0
  | addr, n, dt :: dts => dt.addr = addr ∧ dt.reclen = dt.name.length + 20 ∧
      LaidOut (addr + dt.reclen) (n - dt.reclen) dts

/-- The calls tell the files that are left, each once and in order: a call tells at least
the first of them and no more than fits its buffer, and nothing is told behind the last. -/
def Enumerates : List DirRecord → List GetdentsCall → List (ℤ × List LinuxDirent) → Prop
  | left, call :: calls, (n, dts) :: results => ∃ rest,
      left = dts.map LinuxDirent.toDirRecord ++ rest ∧ (left ≠ [] → dts ≠ []) ∧
        LaidOut call.addr n dts ∧ n ≤ call.size ∧ Enumerates rest calls results
  | _, [], [] => True
  | _, _, _ => False

def DirFile.record (f : DirFile) : DirRecord where
  ino := f.short.value 20 2 <<< 16 ||| f.short.value 26 2
  type := (f.short.byte 11).toNat
  name := (List.range (strlen f.filename)).map f.filename

/-- The files have names of up to 255 bytes, all different. -/
structure Named (files : List DirFile) : Prop where
  ends : ∀ f ∈ files, ∃ x ≤ fat32MaxFilename, f.filename x = 0
  nonempty : ∀ f ∈ files, f.record.name ≠ []
  distinct : (files.map fun f => f.record.name).Nodup

/-! ## What a call tells -/

def DirRecord.reclen (r : DirRecord) : ℕ := r.name.length + 20

/-- The record that `ls` makes of an entry. -/
def Dirent.record (entry : Dirent) : DirRecord :=
  ⟨entry.firstClus, entry.attr, (List.range (strlen entry.filename)).map entry.filename⟩

/-- The records of a directory, with those of the runs of deleted slots: an empty name, and
the number and type that `ep2` had before. -/
def lsReports : ℕ → ℕ → List DirFile → List DirRecord
  | _, _, [] => []
  | ino, type, f :: files =>
      (if f.gap = [] then [] else [⟨ino, type, []⟩]) ++
        f.record :: lsReports f.record.ino f.record.type files

/-- The records that `ls` puts into a buffer with `nread` bytes in use. -/
def takeFits (size : ℕ) : ℕ → List DirRecord → List DirRecord
  | _, [] => []
  | nread, r :: records =>
      if nread + r.reclen ≥ size then [] else r :: takeFits size (nread + r.reclen) records

/-- The loop of `ls` tells these records, as far as they fit. -/
def LsTells (fat : Fat32) (dp : ℕ) (cs : List ℕ) (d : Disk) (size addr nread : ℕ)
    (records : List DirRecord) (result : Option (List LinuxDirent × ℕ × FileSystem)) : Prop :=
  ∃ dts n fs', result = some (dts, n, fs') ∧
    dts.map LinuxDirent.toDirRecord = takeFits size nread records ∧
    LaidOut addr (n - nread) dts ∧ (n = nread ∨ n < size) ∧
    OpenDirectory fat fs' dp cs ∧ fs'.disk = d

section Ls
variable {fat : Fat32} {fs : FileSystem} {cs : List ℕ} {dp k count addr nread size : ℕ}
  {info : Option Dentry} {code : ℤ} {s : Enext} {f : DirFile} {rest : List Dentry}
  {records : List DirRecord} {p q : ℕ → Byte}

theorem strlen_congr (h : ∀ x ≤ fat32MaxFilename, p x = q x) : strlen p = strlen q := by
  have hfind : (List.range (fat32MaxFilename + 1)).find? (p · == 0) =
      (List.range (fat32MaxFilename + 1)).find? (q · == 0) := by
    apply List.find?_congr
    intro x hx
    rw [h x (Nat.le_of_lt_succ (List.mem_range.mp hx))]
  rw [strlen, strlen, hfind]

theorem strlen_le (p : ℕ → Byte) : strlen p ≤ 256 := by
  rw [strlen]
  cases hfind : (List.range (fat32MaxFilename + 1)).find? (p · == 0) with
  | none => exact le_rfl
  | some x => exact (List.mem_range.mp (List.mem_of_find?_eq_some hfind)).le

theorem strlen_zero (h : p 0 = 0) : strlen p = 0 := by
  rw [strlen, fat32MaxFilename, List.range_succ_eq_map, List.find?_cons_of_pos (by simp [h])]
  rfl

/-- The record of a run of deleted slots. -/
theorem gap_record (hzero : s.filename 0 = 0) (entry : Dirent) :
    (enextEntry entry s none).record = ⟨entry.firstClus, entry.attr, []⟩ := by
  rw [Dirent.record, enextEntry_filename, strlen_zero hzero]
  rfl

/-- The record of a file. -/
theorem own_record (hname : ∀ x ≤ fat32MaxFilename, s.filename x = f.filename x)
    (entry : Dirent) : (enextEntry entry s (some f.short)).record = f.record := by
  have hbytes : (List.range (strlen f.filename)).map s.filename =
      (List.range (strlen f.filename)).map f.filename := by
    apply List.map_congr_left
    intro x hx
    have hle := strlen_le f.filename
    have hlt := List.mem_range.mp hx
    exact hname x (by rw [fat32MaxFilename]; omega)
  rw [Dirent.record, DirFile.record, enextEntry_filename, strlen_congr hname, hbytes]
  rfl

attribute [local simp] lsLoop takeFits

/-- A round of `ls`. -/
theorem OpenDirectory.ls_step (h : OpenDirectory fat fs dp cs) (hep : (fs.ent stackEntry).valid = 0)
    (hscan : scanSlots ((dirSlots fat fs.disk cs).drop k) (enextStart fs stackEntry count) =
      some (code, s, info)) (hcode : code ≠ -1)
    (hle : k + s.count ≤ (dirSlots fat fs.disk cs).length) (fuel : ℕ) {r : DirRecord}
    (hr : (enextEntry (fs.ent stackEntry) s info).record = r)
    (hrest : ∀ fs', OpenDirectory fat fs' dp cs →
      fs'.ent stackEntry = enextEntry (fs.ent stackEntry) s info → fs'.disk = fs.disk →
        LsTells fat dp cs fs.disk size (addr + r.reclen) (nread + r.reclen) records
          (lsLoop fat dp size fuel fs' (32 * (k + s.count)) s.count (addr + r.reclen)
            (nread + r.reclen))) :
    LsTells fat dp cs fs.disk size addr nread (r :: records)
      (lsLoop fat dp size (fuel + 1) fs (32 * k) count addr nread) := by
  obtain ⟨c, q, hc, hcall⟩ := h.enext_eq hep k count
  have hslots := h.slots_lt
  have hnext : (32 * k + s.count <<< 5) % 2 ^ 32 = 32 * (k + s.count) := by
    rw [Nat.shiftLeft_eq, Nat.mod_eq_of_lt (by omega)]
    omega
  have hopen : OpenDirectory fat (afterEnext fs dp stackEntry c q s info) dp cs := h.after hep hc
  have hent : (afterEnext fs dp stackEntry c q s info).ent stackEntry =
      enextEntry (fs.ent stackEntry) s info := afterEnext_entry
  have hafter : (fs.set dp ((fs.ent dp).at c q)).set stackEntry
      (enextEntry (fs.ent stackEntry) s info) = afterEnext fs dp stackEntry c q s info := rfl
  have hlen : strlen (enextEntry (fs.ent stackEntry) s info).filename + 20 = r.reclen := by
    rw [DirRecord.reclen, ← hr, Dirent.record, List.length_map, List.length_range]
  rw [lsLoop, hcall, hscan]
  simp only [Option.bind_eq_bind, Option.map_some, Option.bind_some, if_neg hcode, hafter, hent,
    hnext]
  by_cases hfull : nread + r.reclen ≥ size
  · rw [if_pos (by omega)]
    refine ⟨[], nread, _, rfl, ?_, ?_, .inl rfl, hopen, rfl⟩
    · rw [takeFits, if_pos hfull]
      rfl
    · exact Int.sub_self _
  · rw [if_neg (by omega), show 19 + strlen _ + 1 = r.reclen by omega]
    obtain ⟨dts, n, fs', hrun, hrecords, hlaid, hn, hopen', hdisk'⟩ := hrest _ hopen hent rfl
    rw [hrun]
    refine ⟨_, n, fs', rfl, ?_, ?_, ?_, hopen', hdisk'⟩
    · rw [takeFits, if_neg hfull, List.map_cons, hrecords, ← hr]
      rfl
    · refine ⟨rfl, ?_, ?_⟩
      · rw [← hr]
        rfl
      · have hrest' : (n : ℤ) - nread - r.reclen = n - ((nread + r.reclen : ℕ) : ℤ) := by
          push_cast
          omega
        show LaidOut (addr + r.reclen) ((n : ℤ) - nread - r.reclen) dts
        rw [hrest']
        exact hlaid
    · omega

/-- The round on a file, given what the rounds behind it tell. -/
theorem OpenDirectory.ls_own (h : OpenDirectory fat fs dp cs)
    (hep : (fs.ent stackEntry).valid = 0) (hf : f.WellFormed)
    (hdrop : (dirSlots fat fs.disk cs).drop k = f.own ++ rest) (fuel : ℕ)
    (hrest : ∀ fs' addr nread, OpenDirectory fat fs' dp cs → (fs'.ent stackEntry).valid = 0 →
      (fs'.ent stackEntry).firstClus = f.record.ino →
      (fs'.ent stackEntry).attr = f.record.type → fs'.disk = fs.disk →
        LsTells fat dp cs fs.disk size addr nread records
          (lsLoop fat dp size fuel fs' (32 * (k + f.own.length)) f.own.length addr nread)) :
    LsTells fat dp cs fs.disk size addr nread (f.record :: records)
      (lsLoop fat dp size (fuel + 1) fs (32 * k) count addr nread) := by
  obtain ⟨counting, hscan⟩ := hf.scan rest (enextStart fs stackEntry count) rfl rfl
  rw [← hdrop] at hscan
  have hlen := congrArg List.length hdrop
  rw [List.length_drop, List.length_append] at hlen
  have hpos := List.length_pos_iff.mpr f.own_ne_nil
  have hname : ∀ x ≤ fat32MaxFilename,
      f.readName (enextStart fs stackEntry count).filename x = f.filename x := fun x hx =>
    f.readName_congr (enextStart_zero fs stackEntry count hx)
  apply h.ls_step hep hscan (by decide) (by simp only; omega) fuel (own_record hname _)
  intro fs' hopen hent hdisk
  refine hrest fs' _ _ hopen ?_ ?_ ?_ hdisk
  · rw [hent, enextEntry_valid, hep]
  · rw [hent]
    rfl
  · rw [hent]
    rfl

/-- The round on a run of deleted slots. -/
theorem OpenDirectory.ls_gap (h : OpenDirectory fat fs dp cs)
    (hep : (fs.ent stackEntry).valid = 0) (hf : f.WellFormed) (hgap : f.gap ≠ [])
    (hdrop : (dirSlots fat fs.disk cs).drop k = f.slots ++ rest) (fuel : ℕ)
    (hrest : ∀ fs' addr nread, OpenDirectory fat fs' dp cs → (fs'.ent stackEntry).valid = 0 →
      fs'.disk = fs.disk → LsTells fat dp cs fs.disk size addr nread records
        (lsLoop fat dp size fuel fs' (32 * (k + f.gap.length)) f.gap.length addr nread)) :
    LsTells fat dp cs fs.disk size addr nread
      (⟨(fs.ent stackEntry).firstClus, (fs.ent stackEntry).attr, []⟩ :: records)
      (lsLoop fat dp size (fuel + 1) fs (32 * k) count addr nread) := by
  have hscan := hf.scan_gap hgap rest (enextStart fs stackEntry count) rfl rfl
  rw [← hdrop] at hscan
  have hlen := congrArg List.length hdrop
  rw [List.length_drop, DirFile.slots, List.length_append, List.length_append] at hlen
  have hpos := List.length_pos_iff.mpr f.own_ne_nil
  have hzero := enextStart_zero fs stackEntry count (Nat.zero_le fat32MaxFilename)
  apply h.ls_step hep hscan (by decide) (by simp only; omega) fuel (gap_record hzero _)
  intro fs' hopen hent hdisk
  refine hrest fs' _ _ hopen ?_ hdisk
  rw [hent, enextEntry_valid, hep]

attribute [local simp] lsReports

/-- The rounds on the files that are left, and the last one behind them. -/
theorem OpenDirectory.ls_files {l : Listing} (hl : l.WellFormed) (files : List DirFile)
    (hfiles : ∀ f ∈ files, f.WellFormed)
    (h : OpenDirectory fat fs dp cs) (hep : (fs.ent stackEntry).valid = 0) {ino type : ℕ}
    (hino : (fs.ent stackEntry).firstClus = ino) (htype : (fs.ent stackEntry).attr = type)
    (hdrop : (dirSlots fat fs.disk cs).drop k = files.flatMap DirFile.slots ++ (l.gap ++ l.rest))
    (fuel : ℕ) (hfuel : (files.flatMap DirFile.slots).length < fuel) :
    LsTells fat dp cs fs.disk size addr nread (lsReports ino type files)
      (lsLoop fat dp size fuel fs (32 * k) count addr nread) := by
  induction files generalizing fs k count fuel addr nread ino type with
  | nil =>
      obtain ⟨s', hscan⟩ := hl.scan_end (enextStart fs stackEntry count)
      obtain ⟨fuel, rfl⟩ : ∃ n, fuel = n + 1 := ⟨fuel - 1, by omega⟩
      obtain ⟨c, q, hc, hcall⟩ := h.enext_eq hep k count
      rw [List.flatMap_nil, List.nil_append] at hdrop
      rw [lsLoop, hcall, hdrop, hscan]
      exact ⟨[], nread, afterEnext fs dp stackEntry c q s' none, rfl, rfl, Int.sub_self _, .inl rfl,
        h.after hep hc, rfl⟩
  | cons f files ih =>
      have hf := hfiles f List.mem_cons_self
      have hpos := List.length_pos_iff.mpr f.own_ne_nil
      rw [List.flatMap_cons, List.append_assoc] at hdrop
      rw [List.flatMap_cons, List.length_append, DirFile.slots, List.length_append] at hfuel
      obtain ⟨fuel, rfl⟩ : ∃ n, fuel = n + 1 := ⟨fuel - 1, by omega⟩
      -- the file itself, at the place where its own slots begin
      have hown : ∀ fs' k' count' fuel addr nread, OpenDirectory fat fs' dp cs →
          (fs'.ent stackEntry).valid = 0 → fs'.disk = fs.disk →
          (dirSlots fat fs.disk cs).drop k' =
            f.own ++ (files.flatMap DirFile.slots ++ (l.gap ++ l.rest)) →
          (files.flatMap DirFile.slots).length < fuel →
          LsTells fat dp cs fs.disk size addr nread
            (f.record :: lsReports f.record.ino f.record.type files)
            (lsLoop fat dp size (fuel + 1) fs' (32 * k') count' addr nread) := by
        intro fs₁ k' count' fuel addr nread hopen hvalid hdisk hdrop' hfuel'
        rw [← hdisk] at hdrop' ⊢
        apply hopen.ls_own hvalid hf hdrop' fuel
        intro fs₂ addr nread hopen₂ hvalid₂ hino₂ htype₂ hdisk₂
        rw [← hdisk₂]
        apply ih (fun f hf => hfiles f (List.mem_cons_of_mem _ hf)) hopen₂ hvalid₂ hino₂ htype₂ _ _
          hfuel'
        rw [hdisk₂, ← List.drop_drop, hdrop', List.drop_left]
      rw [lsReports]
      by_cases hgap : f.gap = []
      · rw [if_pos hgap, List.nil_append]
        rw [DirFile.slots, hgap, List.nil_append] at hdrop
        exact hown fs k count fuel addr nread h hep rfl hdrop (by omega)
      · have hgappos := List.length_pos_iff.mpr hgap
        obtain ⟨fuel, rfl⟩ : ∃ n, fuel = n + 1 := ⟨fuel - 1, by omega⟩
        rw [if_neg hgap, ← hino, ← htype]
        apply h.ls_gap hep hf hgap hdrop (fuel + 1)
        intro fs₁ addr nread hopen hvalid hdisk
        apply hown fs₁ _ _ fuel addr nread hopen hvalid hdisk _ (by omega)
        rw [← List.drop_drop, hdrop, DirFile.slots, List.append_assoc, List.drop_left]

/-- Where a call of `ls` begins. -/
theorem OpenDirectory.ls_start (h : OpenDirectory fat fs dp cs) (hdp : dp ≠ stackEntry)
    (ep2 : Dirent) : ∃ off fs', relocEnt fat (fs.set stackEntry ep2) dp 0 false = some (off, fs') ∧
      OpenDirectory fat fs' dp cs ∧ fs'.ent stackEntry = ep2 ∧ fs'.disk = fs.disk := by
  have hopen : OpenDirectory fat (fs.set stackEntry ep2) dp cs :=
    h.congr rfl (FileSystem.set_ent_of_ne _ _ hdp)
  have hstart : cs[0 / fat.bytsPerClus]? = some ((fs.set stackEntry ep2).ent dp).firstClus := by
    rw [Nat.zero_div]
    exact hopen.chain.head_eq
  refine ⟨_, _, hopen.relocEnt_found hstart, hopen.move hstart, ?_, rfl⟩
  rw [FileSystem.set_ent_of_ne _ _ hdp.symm, FileSystem.set_ent_self]

/-- A call of `ls` where the local happens to have `valid` zero. -/
theorem OpenDirectory.ls_eq {l : Listing} {ep2 : Dirent} {bytes : ℤ}
    (h : OpenDirectory fat fs dp cs) (hl : l.WellFormed)
    (hslots : dirSlots fat fs.disk cs = l.slots) (hdp : dp ≠ stackEntry) (hvalid : ep2.valid = 0)
    (hpos : 0 ≤ bytes) (hbytes : bytes < 2 ^ 31) (addr : ℕ) :
    ∃ n dts fs', ls fat fs dp ep2 addr bytes = some (n, dts, fs') ∧
      dts.map LinuxDirent.toDirRecord =
        takeFits bytes.toNat 0 (lsReports ep2.firstClus ep2.attr l.files) ∧
      LaidOut addr n dts ∧ n ≤ bytes ∧ OpenDirectory fat fs' dp cs ∧ fs'.disk = fs.disk := by
  obtain ⟨off, fs₀, hreloc, hopen, hlocal, hdisk⟩ := h.ls_start hdp ep2
  have hfuel : (l.files.flatMap DirFile.slots).length < slotFuel := by
    have hlt := h.slots_lt
    have hlen := congrArg List.length hslots
    rw [Listing.slots, List.length_append, Listing.used] at hlen
    rw [slotFuel]
    omega
  have hsize : (bytes % 2 ^ 64).toNat = bytes.toNat := by rw [Int.emod_eq_of_lt hpos (by omega)]
  have htells : LsTells fat dp cs fs₀.disk bytes.toNat addr 0
      (lsReports ep2.firstClus ep2.attr l.files)
      (lsLoop fat dp bytes.toNat slotFuel fs₀ (32 * 0) 0 addr 0) := by
    apply hopen.ls_files hl l.files hl.files _ _ _ _ slotFuel hfuel
    · rw [hlocal, hvalid]
    · rw [hlocal]
    · rw [hlocal]
    · rw [hdisk]
      exact hslots
  obtain ⟨dts, n, fs', hrun, hrecords, hlaid, hn, hopen', hdisk'⟩ := htells
  rw [Nat.mul_zero] at hrun
  refine ⟨n, dts, fs', ?_, hrecords, ?_, by omega, hopen', hdisk'.trans hdisk⟩
  · rw [ls, if_neg (by simp [h.directory]), hreloc]
    simp only [Option.bind_eq_bind, Option.bind_some, hsize, hrun]
    rfl
  · simpa using hlaid

/-- The check of `ep2` in `enext`. -/
theorem OpenDirectory.ls_panics {ep2 : Dirent} (h : OpenDirectory fat fs dp cs)
    (hdp : dp ≠ stackEntry) (hvalid : ep2.valid ≠ 0) (addr : ℕ) (bytes : ℤ) :
    ls fat fs dp ep2 addr bytes = none := by
  obtain ⟨off, fs₀, hreloc, hopen, hlocal, -⟩ := h.ls_start hdp ep2
  have hcall : enext fat fs₀ dp stackEntry 0 0 = none := by
    rw [enext, if_pos (.inr (.inl (by rwa [hlocal])))]
  rw [ls, if_neg (by simp [h.directory]), hreloc]
  simp only [Option.bind_eq_bind, Option.bind_some, slotFuel, lsLoop, hcall, Option.bind_none]

end Ls

/-! ## Which sequences of calls enumerate the files -/

/-- Every call tells what the first one tells, as far as it fits its own buffer. -/
def Retold (files : List DirFile) : List DirRecord → List GetdentsCall → Prop
  | _, [] => True
  | left, call :: calls => call.ep2.valid = 0 ∧ ∃ rest,
      left = takeFits call.size.toNat 0 (lsReports call.ep2.firstClus call.ep2.attr files) ++ rest ∧
      (left ≠ [] →
        takeFits call.size.toNat 0 (lsReports call.ep2.firstClus call.ep2.attr files) ≠ []) ∧
      Retold files rest calls

def reclens (files : List DirFile) : ℕ := (files.map fun f => f.record.reclen).sum

/-- The calls where the missing position, the records of deleted slots, the strict
comparison with the size and the uninitialised `ep2` do no harm. -/
def GetdentsWorks (files : List DirFile) (calls : List GetdentsCall) : Prop :=
  (∀ call ∈ calls, call.ep2.valid = 0) ∧
    ∀ f ∈ files.head?, ∀ call ∈ calls.head?, f.record.reclen < call.size.toNat ∧
      (∀ pre g post, files = pre ++ g :: post → g.gap ≠ [] →
        call.size.toNat ≤ reclens pre + 20) ∧
      ∀ later ∈ calls.tail, reclens files < call.size.toNat ∧
        later.size.toNat ≤ f.record.reclen

section Sequence
variable {files : List DirFile} {f : DirFile} {size nread ino type : ℕ} {records left : List DirRecord}
  {call : GetdentsCall} {calls : List GetdentsCall}

theorem takeFits_prefix (size nread : ℕ) (records : List DirRecord) :
    ∃ rest, records = takeFits size nread records ++ rest := by
  induction records generalizing nread with
  | nil => exact ⟨[], rfl⟩
  | cons r records ih =>
      rw [takeFits]
      split
      · exact ⟨r :: records, rfl⟩
      · obtain ⟨rest, hrest⟩ := ih (nread + r.reclen)
        exact ⟨rest, congrArg (r :: ·) hrest⟩

/-- Everything fits only a buffer that is larger than all the records. -/
theorem takeFits_all : takeFits size nread records = records ↔
    records = [] ∨ nread + (records.map DirRecord.reclen).sum < size := by
  induction records generalizing nread with
  | nil => simp [takeFits]
  | cons r records ih =>
      rw [takeFits, List.map_cons, List.sum_cons]
      by_cases hfull : nread + r.reclen ≥ size
      · rw [if_pos hfull]
        simp
        omega
      · rw [if_neg hfull, List.cons.injEq, ih]
        cases records with
        | nil => simp; omega
        | cons r' records => simp [Nat.add_assoc]

/-- Without a record of deleted slots among those that fit, the records are those of the
files. -/
theorem takeFits_reports (ino type : ℕ) (hgaps : ∀ pre g post, files = pre ++ g :: post → g.gap ≠ [] →
    size ≤ nread + reclens pre + 20) :
    takeFits size nread (lsReports ino type files) =
      takeFits size nread (files.map DirFile.record) := by
  induction files generalizing nread ino type with
  | nil => rfl
  | cons f files ih =>
      rw [lsReports, List.map_cons]
      by_cases hgap : f.gap = []
      · rw [if_pos hgap, List.nil_append, takeFits, takeFits]
        split
        · rfl
        · rw [ih]
          intro pre g post hfiles hg
          have := hgaps (f :: pre) g post (by rw [hfiles]; rfl) hg
          rw [reclens, List.map_cons, List.sum_cons] at this
          rw [reclens]
          omega
      · have hsmall := hgaps [] f files rfl hgap
        rw [reclens, List.map_nil, List.sum_nil] at hsmall
        rw [if_neg hgap, List.cons_append, takeFits, takeFits,
          if_pos (by show nread + 20 ≥ size; omega),
          if_pos (by rw [DirRecord.reclen]; omega)]

/-- A record with an empty name among those that fit comes from deleted slots. -/
theorem gaps_of_named (hnamed : ∀ r ∈ takeFits size nread (lsReports ino type files), r.name ≠ []) :
    ∀ pre g post, files = pre ++ g :: post → g.gap ≠ [] → size ≤ nread + reclens pre + 20 := by
  induction files generalizing nread ino type with
  | nil => intro pre g post hfiles; cases pre <;> cases hfiles
  | cons f files ih =>
      intro pre g post hfiles hg
      rw [lsReports] at hnamed
      by_cases hgap : f.gap = []
      · rw [if_pos hgap, List.nil_append, takeFits] at hnamed
        cases pre with
        | nil =>
            obtain ⟨rfl, -⟩ := List.cons.inj hfiles
            exact absurd hgap hg
        | cons f' pre =>
            obtain ⟨rfl, hbehind⟩ := List.cons.inj hfiles
            rw [reclens, List.map_cons, List.sum_cons, ← reclens]
            by_cases hfull : nread + f.record.reclen ≥ size
            · omega
            · rw [if_neg hfull] at hnamed
              have := ih (fun r hr => hnamed r (List.mem_cons_of_mem _ hr)) pre g post hbehind hg
              omega
      · rw [if_neg hgap, List.cons_append, takeFits] at hnamed
        by_cases hfull : nread + 20 ≥ size
        · omega
        · rw [if_neg (show ¬ nread + DirRecord.reclen ⟨ino, type, []⟩ ≥ size from hfull)] at hnamed
          exact absurd rfl (hnamed _ List.mem_cons_self)

theorem reclens_eq (files : List DirFile) :
    ((files.map DirFile.record).map DirRecord.reclen).sum = reclens files := by
  rw [List.map_map]
  rfl

/-- What a call tells first. -/
theorem takeFits_head (hne : takeFits size 0 (lsReports ino type (f :: files)) ≠ []) :
    ∃ r rest, takeFits size 0 (lsReports ino type (f :: files)) = r :: rest ∧
      (r.name = [] ∨ r = f.record) := by
  rw [lsReports] at hne ⊢
  by_cases hgap : f.gap = []
  · rw [if_pos hgap, List.nil_append, takeFits] at hne ⊢
    split at hne
    · exact absurd rfl hne
    · rename_i hfull
      exact ⟨_, _, if_neg hfull, .inr rfl⟩
  · rw [if_neg hgap, List.cons_append, takeFits] at hne ⊢
    split at hne
    · exact absurd rfl hne
    · rename_i hfull
      exact ⟨_, _, if_neg hfull, .inl rfl⟩

/-- A buffer for which a call tells nothing is no larger than the first record. -/
theorem size_le_of_takeFits (h : takeFits size 0 (lsReports ino type (f :: files)) = []) :
    size ≤ f.record.reclen := by
  rw [lsReports] at h
  by_cases hgap : f.gap = []
  · rw [if_pos hgap, List.nil_append, takeFits] at h
    split at h
    · omega
    · cases h
  · rw [if_neg hgap, List.cons_append, takeFits] at h
    split at h
    · rename_i hfull
      have : size ≤ 0 + 20 := hfull
      rw [DirRecord.reclen]
      omega
    · cases h

/-- Once the first file was told, later calls can tell nothing, so all must have been told. -/
theorem Retold.later (h : Retold (f :: files) left calls) (hnamed : ∀ r ∈ left, r.name ≠ [])
    (hfirst : f.record ∉ left) : ∀ call ∈ calls,
      left = [] ∧ call.ep2.valid = 0 ∧ call.size.toNat ≤ f.record.reclen := by
  induction calls generalizing left with
  | nil => exact fun _ hcall => absurd hcall List.not_mem_nil
  | cons c calls ih =>
      obtain ⟨hvalid, rest, hleft, htold, hrest⟩ := h
      have hnone : takeFits c.size.toNat 0
          (lsReports c.ep2.firstClus c.ep2.attr (f :: files)) = [] := by
        by_contra hne
        obtain ⟨r, behind, hhead, hr⟩ := takeFits_head hne
        have hmem : r ∈ left := by
          rw [hleft, hhead]
          exact List.mem_append_left _ List.mem_cons_self
        rcases hr with hname | rfl
        · exact hnamed r hmem hname
        · exact hfirst hmem
      have hempty : left = [] := by
        by_contra hne
        exact htold hne hnone
      intro call hcall
      rcases List.mem_cons.mp hcall with rfl | hcall
      · exact ⟨hempty, hvalid, size_le_of_takeFits hnone⟩
      · have hsame : rest = left := by rw [hleft, hnone, List.nil_append]
        rw [hsame] at hrest
        exact ih hrest hnamed hfirst call hcall

/-- With nothing left the calls need only tell nothing. -/
theorem retold_nil (h : ∀ call ∈ calls, call.ep2.valid = 0 ∧
    takeFits call.size.toNat 0 (lsReports call.ep2.firstClus call.ep2.attr files) = []) :
    Retold files [] calls := by
  induction calls with
  | nil => trivial
  | cons call calls ih =>
      obtain ⟨hvalid, hnone⟩ := h call List.mem_cons_self
      refine ⟨hvalid, [], ?_, fun hne => absurd rfl hne,
        ih fun call hcall => h call (List.mem_cons_of_mem _ hcall)⟩
      rw [hnone]
      rfl

theorem Retold.valid (h : Retold files left calls) : ∀ call ∈ calls, call.ep2.valid = 0 := by
  induction calls generalizing left with
  | nil => exact fun _ hcall => absurd hcall List.not_mem_nil
  | cons c calls ih =>
      obtain ⟨hvalid, rest, -, -, hrest⟩ := h
      intro call hcall
      rcases List.mem_cons.mp hcall with rfl | hcall
      · exact hvalid
      · exact ih hrest call hcall

theorem Named.told (h : Named files) :
    (∀ r ∈ files.map DirFile.record, r.name ≠ []) ∧ (files.map DirFile.record).Nodup := by
  constructor
  · intro r hr
    obtain ⟨f, hf, rfl⟩ := List.mem_map.mp hr
    exact h.nonempty f hf
  · apply List.Nodup.of_map DirRecord.name
    rw [List.map_map]
    exact h.distinct

/-- What the first call must have told. -/
theorem Retold.works (hnamed : Named (f :: files))
    (h : Retold (f :: files) ((f :: files).map DirFile.record) (call :: calls)) :
    f.record.reclen < call.size.toNat ∧
      (∀ pre g post, f :: files = pre ++ g :: post → g.gap ≠ [] →
        call.size.toNat ≤ reclens pre + 20) ∧
      ∀ later ∈ calls, reclens (f :: files) < call.size.toNat ∧
        later.size.toNat ≤ f.record.reclen := by
  obtain ⟨hnames, hnodup⟩ := hnamed.told
  obtain ⟨-, rest, hleft, htold, hrest⟩ := h
  have hgaps : ∀ pre g post, f :: files = pre ++ g :: post → g.gap ≠ [] →
      call.size.toNat ≤ 0 + reclens pre + 20 := gaps_of_named fun r hr =>
    hnames r (by rw [hleft]; exact List.mem_append_left _ hr)
  rw [takeFits_reports _ _ hgaps] at hleft htold
  have hfits : f.record.reclen < call.size.toNat := by
    by_contra hfull
    apply htold (List.cons_ne_nil _ _)
    rw [List.map_cons, takeFits, if_pos (by omega)]
  refine ⟨hfits, fun pre g post hfiles hg => ?_, fun later hlater => ?_⟩
  · have := hgaps pre g post hfiles hg
    omega
  · -- the first file has been told, and no record stands twice among those of the files
    have hfirst : f.record ∉ rest := by
      intro hmem
      have hhead : f.record ∈
          takeFits call.size.toNat 0 ((f :: files).map DirFile.record) := by
        rw [List.map_cons, takeFits, if_neg (by omega)]
        exact List.mem_cons_self
      rw [hleft] at hnodup
      exact (List.nodup_append.mp hnodup).2.2 _ hhead _ hmem rfl
    obtain ⟨hempty, -, hsize⟩ := hrest.later
      (fun r hr => hnames r (by rw [hleft]; exact List.mem_append_right _ hr)) hfirst later hlater
    rw [hempty, List.append_nil] at hleft
    rcases takeFits_all.mp hleft.symm with hnil | hall
    · exact absurd hnil (List.cons_ne_nil _ _)
    · rw [reclens_eq, Nat.zero_add] at hall
      exact ⟨hall, hsize⟩

/-- The first call tells the files in its way, the later ones nothing. -/
theorem works_retold (hvalid : ∀ c ∈ call :: calls, c.ep2.valid = 0)
    (hfits : f.record.reclen < call.size.toNat)
    (hgaps : ∀ pre g post, f :: files = pre ++ g :: post → g.gap ≠ [] →
      call.size.toNat ≤ reclens pre + 20)
    (hlater : ∀ later ∈ calls, reclens (f :: files) < call.size.toNat ∧
      later.size.toNat ≤ f.record.reclen) :
    Retold (f :: files) ((f :: files).map DirFile.record) (call :: calls) := by
  have hgaps' : ∀ pre g post, f :: files = pre ++ g :: post → g.gap ≠ [] →
      call.size.toNat ≤ 0 + reclens pre + 20 := fun pre g post hfiles hg => by
    rw [Nat.zero_add]
    exact hgaps pre g post hfiles hg
  have hrecords := takeFits_reports call.ep2.firstClus call.ep2.attr hgaps'
  have htold : takeFits call.size.toNat 0 ((f :: files).map DirFile.record) ≠ [] := by
    rw [List.map_cons, takeFits, if_neg (by omega)]
    exact List.cons_ne_nil _ _
  obtain ⟨rest, hrest⟩ := takeFits_prefix call.size.toNat 0 ((f :: files).map DirFile.record)
  refine ⟨hvalid call List.mem_cons_self, rest, by rwa [hrecords], fun _ => by rwa [hrecords], ?_⟩
  cases calls with
  | nil => trivial
  | cons later calls =>
      have hall : takeFits call.size.toNat 0 ((f :: files).map DirFile.record) =
          (f :: files).map DirFile.record := by
        apply takeFits_all.mpr
        right
        rw [reclens_eq, Nat.zero_add]
        exact (hlater later List.mem_cons_self).1
      have hnil : rest = [] := by
        rw [hall] at hrest
        exact List.append_right_eq_self.mp hrest.symm
      rw [hnil]
      apply retold_nil
      intro c hc
      have hgap : f.gap = [] := by
        by_contra hne
        have hsmall := hgaps [] f files rfl hne
        rw [reclens, List.map_nil, List.sum_nil] at hsmall
        rw [DirRecord.reclen] at hfits
        omega
      refine ⟨hvalid c (List.mem_cons_of_mem _ hc), ?_⟩
      rw [lsReports, if_pos hgap, List.nil_append, takeFits, if_pos]
      have := (hlater c hc).2
      omega

theorem retold_iff (hnamed : Named files) :
    Retold files (files.map DirFile.record) calls ↔ GetdentsWorks files calls := by
  cases files with
  | nil =>
      constructor
      · exact fun h => ⟨h.valid, fun f hf => nomatch hf⟩
      · rintro ⟨hvalid, -⟩
        exact retold_nil fun call hcall => ⟨hvalid call hcall, rfl⟩
  | cons f files =>
      cases calls with
      | nil => exact ⟨fun h => ⟨h.valid, fun f hf call hcall => nomatch hcall⟩, fun _ => trivial⟩
      | cons call calls =>
          constructor
          · intro h
            refine ⟨h.valid, ?_⟩
            rintro f' ⟨⟩ call' ⟨⟩
            exact h.works hnamed
          · rintro ⟨hvalid, hworks⟩
            obtain ⟨hfits, hgaps, hlater⟩ := hworks f rfl call rfl
            exact works_retold hvalid hfits hgaps hlater

end Sequence

/-! ## The calls themselves -/

section Calls
variable {fat : Fat32} {fs : FileSystem} {cs : List ℕ} {dp : ℕ} {l : Listing}
  {calls : List GetdentsCall}

theorem OpenDirectory.getdents_retold (h : OpenDirectory fat fs dp cs) (hl : l.WellFormed)
    (hslots : dirSlots fat fs.disk cs = l.slots) (hdp : dp ≠ stackEntry)
    (hsizes : ∀ call ∈ calls, 0 ≤ call.size ∧ call.size < 2 ^ 31) (left : List DirRecord) :
    (∃ results, getdentsCalls fat (some dp) fs calls = some results ∧
      Enumerates left calls results) ↔ Retold l.files left calls := by
  induction calls generalizing fs left with
  | nil => exact ⟨fun _ => trivial, fun _ => ⟨[], rfl, trivial⟩⟩
  | cons call calls ih =>
      obtain ⟨hpos, hbytes⟩ := hsizes call List.mem_cons_self
      have hsizes' : ∀ c ∈ calls, 0 ≤ c.size ∧ c.size < 2 ^ 31 := fun c hc =>
        hsizes c (List.mem_cons_of_mem _ hc)
      by_cases hvalid : call.ep2.valid = 0
      · obtain ⟨n, dts, fs', hrun, hrecords, hlaid, hn, hopen, hdisk⟩ :=
          h.ls_eq hl hslots hdp hvalid hpos hbytes call.addr
        rw [← hdisk] at hslots
        have hcalls : getdentsCalls fat (some dp) fs (call :: calls) =
            (getdentsCalls fat (some dp) fs' calls).map ((n, dts) :: ·) := by
          rw [getdentsCalls, sysGetdents64, hrun]
          simp only [Option.bind_eq_bind, Option.bind_some]
          cases getdentsCalls fat (some dp) fs' calls <;> rfl
        have htold : dts ≠ [] ↔ takeFits call.size.toNat 0
            (lsReports call.ep2.firstClus call.ep2.attr l.files) ≠ [] := by
          rw [← hrecords, ne_eq, ne_eq, List.map_eq_nil_iff]
        rw [hcalls]
        constructor
        · rintro ⟨results, hresults, henum⟩
          obtain ⟨results', hrest, rfl⟩ := Option.map_eq_some_iff.mp hresults
          obtain ⟨rest, hleft, hne, -, -, henum⟩ := henum
          refine ⟨hvalid, rest, ?_, fun hl => htold.mp (hne hl), ?_⟩
          · rwa [← hrecords]
          · exact (ih hopen hslots hsizes' rest).mp ⟨results', hrest, henum⟩
        · rintro ⟨-, rest, hleft, hne, hretold⟩
          obtain ⟨results', hrest, henum⟩ := (ih hopen hslots hsizes' rest).mpr hretold
          refine ⟨(n, dts) :: results', ?_, rest, ?_, fun hl => htold.mpr (hne hl), hlaid, hn, henum⟩
          · rw [hrest]
            rfl
          · rwa [hrecords]
      · constructor
        · rintro ⟨results, hresults, -⟩
          rw [getdentsCalls, sysGetdents64, h.ls_panics hdp hvalid] at hresults
          cases hresults
        · rintro ⟨hzero, -⟩
          exact absurd hzero hvalid

/-- A sequence of calls of `sys_getdents64` on a well-formed directory enumerates its files
exactly if nothing is to be remembered between the calls, no deleted slots are met and the
local `ep2` holds zero by chance. -/
theorem OpenDirectory.getdents_iff (h : OpenDirectory fat fs dp cs) (hl : l.WellFormed)
    (hslots : dirSlots fat fs.disk cs = l.slots) (hnamed : Named l.files) (hdp : dp ≠ stackEntry)
    (hsizes : ∀ call ∈ calls, 0 ≤ call.size ∧ call.size < 2 ^ 31) :
    (∃ results, getdentsCalls fat (some dp) fs calls = some results ∧
      Enumerates (l.files.map DirFile.record) calls results) ↔ GetdentsWorks l.files calls :=
  (h.getdents_retold hl hslots hdp hsizes _).trans (retold_iff hnamed)

end Calls

/-! ## One file -/

def fileDirectory : FileSystem :=
  { pairDirectory with
    disk := ⟨fun a =>
      if a = 1024 then 0x42
      else if 1024 < a ∧ a < 1035 then 0x20
      else pairDisk.data a, [], []⟩ }

def fileListing : Listing :=
  let slots := dirSlots pairFat fileDirectory.disk [2]
  ⟨[⟨[], [], slots.getD 0 []⟩], [], slots.drop 1⟩

def largeBuffer : GetdentsCall := ⟨{ pairEntry with valid := 0 }, 4096, 100⟩

theorem file_open : OpenDirectory pairFat fileDirectory 0 [2] := pair_open (by decide) rfl

theorem file_listed :
    fileListing.WellFormed ∧ dirSlots pairFat fileDirectory.disk [2] = fileListing.slots ∧
      Named fileListing.files := by
  refine ⟨⟨?_, by decide +kernel, by decide +kernel⟩, by decide +kernel,
    by constructor <;> decide +kernel⟩
  intro f hf
  rw [List.mem_singleton.mp hf]
  exact ⟨by decide +kernel, .none, by decide +kernel, by decide +kernel⟩

/-- A call with room for the record `B`. -/
theorem getdents_once :
    (∃ results, getdentsCalls pairFat (some 0) fileDirectory [largeBuffer] = some results ∧
      Enumerates (fileListing.files.map DirFile.record) [largeBuffer] results) ↔
    GetdentsWorks fileListing.files [largeBuffer] :=
  file_open.getdents_iff file_listed.1 file_listed.2.1 file_listed.2.2 (by decide) (by decide)

/-- A second call tells the file once more. -/
theorem getdents_twice :
    ¬ ∃ results, getdentsCalls pairFat (some 0) fileDirectory [largeBuffer, largeBuffer] =
        some results ∧
      Enumerates (fileListing.files.map DirFile.record) [largeBuffer, largeBuffer] results := by
  rw [file_open.getdents_retold file_listed.1 file_listed.2.1 (by decide) (by decide),
    retold_iff file_listed.2.2]
  rintro ⟨-, hworks⟩
  have hlater := (hworks _ rfl _ rfl).2.2 largeBuffer List.mem_cons_self
  exact absurd hlater.2 (by decide +kernel)

end K210Os
