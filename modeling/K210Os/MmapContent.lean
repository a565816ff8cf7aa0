import K210Os.FileRuns
import K210Os.MmapAreas
import K210Os.TaskCreation
import Mathlib.Data.List.TakeDrop

/-!
# The content of mapped files

`mmap_handler` maps one page and reads 4096 bytes of the file to its beginning. The
position in the file is counted from the faulting address, which need not be the first
one of the page, and from the sixth argument that `argraw` finds.
-/

namespace K210Os

open FrameAllocator PagedSpace Riscv Syscalls

/-! ## Bytes of a file -/

/-- Byte `k` of a file, 0 past the end. -/
def fileByte (fat : Fat32) (d : Disk) (entry : Dirent) (k : ℕ) : Byte :=
  (fileContent fat d entry).getD k 0

section Bytes

variable {fat : Fat32} {d : Disk} {entry : Dirent} {cs : List ℕ} {k pos : ℕ}

theorem FileOk.fileByte_eq (hg : Geometry fat) (h : FileOk fat d entry cs) (k : ℕ) :
    fileByte fat d entry k = if k < entry.fileSize then chainByte fat d cs k else 0 := by
  rw [fileByte, h.content_eq hg, List.getD_eq_getElem?_getD, List.getElem?_map]
  split
  · rename_i hk
    rw [List.getElem?_range hk]
    rfl
  · rename_i hk
    rw [List.getElem?_eq_none (by simpa using hk)]
    rfl

/-- One byte of a file can be anything, whatever the files beside it hold. -/
theorem FileOk.poke (hg : Geometry fat) (hs : SoundFat fat d) (h : FileOk fat d entry cs)
    (hk : k < entry.fileSize) (v : Byte) :
    ∃ d', SoundFat fat d' ∧ FileOk fat d' entry cs ∧
      (∀ x, fileByte fat d' entry x = if x = k then v else fileByte fat d entry x) ∧
      ∀ other cs', FileOk fat d other cs' → cs'.Disjoint cs →
        FileOk fat d' other cs' ∧ fileContent fat d' other = fileContent fat d other := by
  have hpos := bytsPerClus_pos hg
  have hlong := h.long
  have hlt : k / fat.bytsPerClus < cs.length := (Nat.div_lt_iff_lt_mul hpos).mpr (by omega)
  have hne : cs ≠ [] := by
    rintro rfl
    exact Nat.not_lt_zero _ hlt
  have hchain := h.fileChain hne
  have hc : cs[k / fat.bytsPerClus]? = some cs[k / fat.bytsPerClus] := List.getElem?_eq_getElem hlt
  have hmod := Nat.mod_lt k hpos
  obtain ⟨d', -, hw⟩ := rwClusWrite_eq hg (hchain.range _ (List.getElem_mem hlt)) d
    ⟨fun _ => v, fun _ _ => true⟩ (fun _ _ => rfl) Nat.one_pos (show k % fat.bytsPerClus + 1 ≤ _ by
      omega)
  have hstep := hw.fileStep hg hs hchain hc (by omega)
  have hchain' := hstep.chain
  rw [List.append_nil] at hchain'
  have hok : FileOk fat d' entry cs := ⟨Or.inr hchain', h.long, h.size_lt, h.cursor⟩
  refine ⟨d', hstep.sound, hok, fun x => ?_, fun other cs' hother hdisj => ?_⟩
  · have hbytes := hstep.bytes
    rw [List.append_nil, Nat.div_add_mod] at hbytes
    rw [hok.fileByte_eq hg, h.fileByte_eq hg, hbytes, copyBytes]
    by_cases hx : x = k
    · subst hx
      rw [if_pos hk, if_pos ⟨le_rfl, by omega⟩, if_pos rfl]
    · have hout : ¬ (k ≤ x ∧ x < k + 1) := by omega
      rw [if_neg hout, if_neg hx]
  · apply hother.keep hg hstep.keeps
    intro c hc hin
    rw [List.append_nil] at hin
    exact hdisj hc hin

/-- What `eread` of a page gets at byte `j`: nothing behind the end of the file, and nothing
at all where the end of the page has no 32-bit offset. -/
def readByte (fat : Fat32) (d : Disk) (entry : Dirent) (pos j : ℕ) : Byte :=
  if pos + pageSize < 2 ^ 32 then fileByte fat d entry (pos + j) else 0

/-- A directory has no bytes. -/
def Dirent.Plain (entry : Dirent) : Prop := entry.isDirectory = true → entry.fileSize = 0

theorem FileOk.eread_page (hg : Geometry fat) (hs : SoundFat fat d) (h : FileOk fat d entry cs)
    (hplain : entry.Plain) :
    ∃ got bytes entry', eread fat d entry ⟨fun _ => 0, fun _ _ => true⟩ pos pageSize =
        some (got, bytes, d, entry') ∧
      bytes.length ≤ pageSize ∧ ∀ j < 4096, bytes.getD j 0 = readByte fat d entry pos j := by
  have hps : pageSize = 4096 := rfl
  have hend : ∀ x, entry.fileSize ≤ x → fileByte fat d entry x = 0 :=
    fun x hx => by rw [h.fileByte_eq hg, if_neg (Nat.not_lt.mpr hx)]
  by_cases hread : pos ≤ entry.fileSize ∧ pos + pageSize < 2 ^ 32 ∧ entry.isDirectory = false
  · obtain ⟨hoff, hlt, hdir⟩ := hread
    obtain ⟨c, q, hread, -⟩ : ∃ c q, eread fat d entry ⟨fun _ => 0, fun _ _ => true⟩ pos pageSize =
        some (min pageSize (entry.fileSize - pos),
          (List.range (min pageSize (entry.fileSize - pos))).map fun k =>
            chainByte fat d cs (pos + k), d, entry.at c q) ∧ FileOk fat d (entry.at c q) cs :=
      eread_spec hg hs h (fun _ _ => rfl) hdir hoff hlt
    refine ⟨_, _, _, hread, by simp, fun j hj => ?_⟩
    rw [readByte, if_pos hlt, h.fileByte_eq hg, List.getD_eq_getElem?_getD, List.getElem?_map]
    split
    · rename_i hin
      rw [List.getElem?_range (by omega)]
      rfl
    · rename_i hout
      rw [List.getElem?_eq_none (by simp; omega)]
      rfl
  · have hrefused : eread fat d entry ⟨fun _ => 0, fun _ _ => true⟩ pos pageSize =
        some (0, [], d, entry) := by
      rw [eread, if_pos]
      by_cases hdir : entry.isDirectory = true
      · exact Or.inr (Or.inr hdir)
      · rw [Bool.not_eq_true] at hdir
        have hcases : ¬ (pos ≤ entry.fileSize ∧ pos + pageSize < 2 ^ 32) := fun hboth =>
          hread ⟨hboth.1, hboth.2, hdir⟩
        have hsize := h.size_lt
        omega
    refine ⟨_, _, _, hrefused, Nat.zero_le _, fun j hj => ?_⟩
    rw [readByte]
    split
    · rename_i hlt
      by_cases hoff : pos ≤ entry.fileSize
      · have hdir : entry.isDirectory = true := by
          by_contra hnot
          exact hread ⟨hoff, hlt, Bool.eq_false_iff.mpr hnot⟩
        rw [hend _ (by rw [hplain hdir]; exact Nat.zero_le _)]
        rfl
      · rw [hend _ (by omega)]
        rfl
    · rfl

end Bytes

/-! ## Two files -/

section Files

variable {fat : Fat32} {d : Disk} {ent : ℕ → Dirent} {chains : ℕ → List ℕ} {e e' : ℕ}

/-- The files of two dirents are in order. They are the same one or share no cluster. -/
structure BothOk (fat : Fat32) (ent : ℕ → Dirent) (chains : ℕ → List ℕ) (e e' : ℕ) (d : Disk) :
    Prop where
  sound : SoundFat fat d
  first : FileOk fat d (ent e) (chains e)
  second : FileOk fat d (ent e') (chains e')
  apart : e ≠ e' → (chains e).Disjoint (chains e')

theorem BothOk.symm (h : BothOk fat ent chains e e' d) : BothOk fat ent chains e' e d :=
  ⟨h.sound, h.second, h.first, fun hne => (h.apart hne.symm).symm⟩

theorem BothOk.poke (hg : Geometry fat) (h : BothOk fat ent chains e e' d) {k : ℕ}
    (hk : k < (ent e).fileSize) (v : Byte) :
    ∃ d', BothOk fat ent chains e e' d' ∧
      (∀ x, fileByte fat d' (ent e) x = if x = k then v else fileByte fat d (ent e) x) ∧
      (e ≠ e' → ∀ x, fileByte fat d' (ent e') x = fileByte fat d (ent e') x) := by
  obtain ⟨d', hs, hok, hbytes, hothers⟩ := h.first.poke hg h.sound hk v
  by_cases hsame : e = e'
  · subst hsame
    exact ⟨d', ⟨hs, hok, hok, h.apart⟩, hbytes, fun hne => absurd rfl hne⟩
  · obtain ⟨hok', hcontent⟩ := hothers _ _ h.second (h.apart hsame).symm
    refine ⟨d', ⟨hs, hok, hok', h.apart⟩, hbytes, fun _ x => ?_⟩
    rw [fileByte, fileByte, hcontent]

/-- Where a page of a file of `size` bytes should come from, and where it comes from in a
file of `size'` bytes. -/
def PageFits (same : Prop) (size wanted size' pos : ℕ) : Prop :=
  if wanted < size then same ∧ pos = wanted ∧ pos + pageSize < 2 ^ 32
  else size' ≤ pos ∨ 2 ^ 32 ≤ pos + pageSize

/-- The right bytes are read, whatever the files hold, exactly if they are read from the
right place or none are there on both sides. -/
theorem BothOk.readByte_iff (hg : Geometry fat) (h : BothOk fat ent chains e e' d)
    (wanted pos : ℕ) :
    (∀ d', BothOk fat ent chains e e' d' → ∀ j < 4096,
      readByte fat d' (ent e') pos j = fileByte fat d' (ent e) (wanted + j)) ↔
      PageFits (e = e') (ent e).fileSize wanted (ent e').fileSize pos := by
  rw [PageFits]
  split
  · rename_i hin
    constructor
    · intro hall
      -- the byte that is wanted first is changed
      obtain ⟨d', h', hbytes, hothers⟩ := h.poke hg hin (fileByte fat d (ent e) wanted + 1)
      have hold := hall d h 0 (by decide)
      have hnew := hall d' h' 0 (by decide)
      have hchanged : fileByte fat d (ent e) wanted + 1 ≠ fileByte fat d (ent e) wanted := by
        generalize fileByte fat d (ent e) wanted = b
        bv_omega
      rw [readByte, Nat.add_zero, Nat.add_zero] at hold hnew
      rw [hbytes wanted, if_pos rfl] at hnew
      split at hold
      · rename_i hlt
        rw [if_pos hlt] at hnew
        have hsame : e = e' := by
          by_contra hne
          rw [hothers hne] at hnew
          exact hchanged (hnew.symm.trans hold)
        subst hsame
        refine ⟨rfl, ?_, hlt⟩
        by_contra hne
        rw [hbytes pos, if_neg hne] at hnew
        exact hchanged (hnew.symm.trans hold)
      · rename_i hge
        rw [if_neg hge] at hnew
        exact absurd (hnew.symm.trans hold) hchanged
    · rintro ⟨rfl, rfl, hlt⟩ d' - j -
      rw [readByte, if_pos hlt]
  · rename_i hout
    rw [not_lt] at hout
    have hend : ∀ {e e' d'}, BothOk fat ent chains e e' d' → ∀ x, (ent e).fileSize ≤ x →
        fileByte fat d' (ent e) x = 0 :=
      fun h' x hx => by rw [h'.first.fileByte_eq hg, if_neg (Nat.not_lt.mpr hx)]
    constructor
    · intro hall
      by_contra hnot
      rw [not_or, not_le, not_le] at hnot
      obtain ⟨d', h', hbytes, -⟩ := h.symm.poke hg hnot.1 1
      have hnew := hall d' h'.symm 0 (by decide)
      rw [readByte, if_pos hnot.2, Nat.add_zero, Nat.add_zero, hbytes, if_pos rfl,
        hend h'.symm wanted hout] at hnew
      exact absurd hnew (by decide)
    · rintro hfits d' h' j -
      rw [hend h' (wanted + j) (by omega), readByte]
      split
      · rename_i hlt
        exact hend h'.symm _ (by omega)
      · rfl

end Files

/-! ## One fault -/

section Fault

variable {fat : Fat32} {file : Fin nfile → File} {ms ms' : MemorySet} {pt pt' : PageTable}
  {s s' : Physical} {fs fs' : FileSystem} {frame : ℕ → ℕ} {σ : UserSpace} {t u : MmapArea}
  {va scause : ℕ}

/-- The page of the fault has the bytes `content`, and no other page changed. -/
structure PageServed (pt : PageTable) (s : Physical) (va : ℕ) (content : ℕ → Byte)
    (pt' : PageTable) (s' : Physical) : Prop where
  page : ∃ q, translation s'.mem pt'.rootPpn (va2vpn va) = some q ∧
    ∀ j < 4096, s'.mem (q.1 * 4096 + j) = content j
  others : ∀ vpn, pageKey vpn ≠ pageKey (va2vpn va) →
    translation s'.mem pt'.rootPpn vpn = translation s.mem pt.rootPpn vpn ∧
    ∀ q, translation s.mem pt.rootPpn vpn = some q →
      ∀ i < 4096, s'.mem (q.1 * 4096 + i) = s.mem (q.1 * 4096 + i)

/-- Only one content is right. -/
theorem PageServed.content_eq {content content' : ℕ → Byte}
    (h : PageServed pt s va content pt' s') (h' : PageServed pt s va content' pt' s') :
    ∀ j < 4096, content j = content' j := by
  obtain ⟨q, hq, hbytes⟩ := h.page
  obtain ⟨q', hq', hbytes'⟩ := h'.page
  obtain rfl := Option.some.inj (hq.symm.trans hq')
  intro j hj
  rw [← hbytes j hj, hbytes' j hj]

theorem PageServed.congr {content content' : ℕ → Byte} (h : PageServed pt s va content pt' s')
    (heq : ∀ j < 4096, content j = content' j) : PageServed pt s va content' pt' s' := by
  obtain ⟨q, hq, hbytes⟩ := h.page
  exact ⟨⟨q, hq, fun j hj => (hbytes j hj).trans (heq j hj)⟩, h.others⟩

/-- The new page with bytes at its beginning. -/
theorem Backs.pageServed (h : Backs pt s frame σ) {frame' : ℕ → ℕ} {flags : ℕ}
    (h' : Backs pt' s' frame' (Function.update σ (pageKey (va2vpn va)) (some (flags, zeroPage))))
    (hkeeps : KeepsFrames σ frame
      (Function.update σ (pageKey (va2vpn va)) (some (flags, zeroPage))) frame')
    {bytes : List Byte} (hlen : bytes.length ≤ pageSize) :
    PageServed pt s va (fun j => bytes.getD j 0) pt'
      { s' with
        mem := copyBytes s'.mem (ppn2pa (frame' (pageKey (va2vpn va)))) (fun k => bytes.getD k 0)
          bytes.length } := by
  obtain ⟨key, hkey⟩ : ∃ key, pageKey (va2vpn va) = key := ⟨_, rfl⟩
  rw [hkey] at h' hkeeps ⊢
  have hself : Function.update σ key (some (flags, zeroPage)) key = some (flags, zeroPage) :=
    Function.update_self _ _ _
  have hother : ∀ k, k ≠ key → Function.update σ key (some (flags, zeroPage)) k = σ k :=
    fun k hk => Function.update_of_ne hk _ _
  have hmapped : Function.update σ key (some (flags, zeroPage)) key ≠ none := by
    rw [hself]
    exact Option.some_ne_none _
  have hlt : frame' key < 0x80800 := h'.table.sound.taken_lt (h'.taken key hmapped)
  have hpa : ppn2pa (frame' key) = frame' key * 4096 := ppn2pa_eq (by omega)
  rw [hpa]
  have hout : ∀ a, a / 4096 ≠ frame' key →
      copyBytes s'.mem (frame' key * 4096) (fun k => bytes.getD k 0) bytes.length a = s'.mem a := by
    intro a ha
    apply copyBytes_outside
    rw [pageSize] at hlen
    omega
  have hw := h'.writePage hmapped hout
  refine ⟨⟨(frame' key, flags), ?_, fun j hj => ?_⟩, fun vpn hne => ?_⟩
  · rw [hw.lookup, hkey, hself]
    rfl
  · dsimp only
    by_cases hin : j < bytes.length
    · rw [copyBytes_inside (by omega) (by omega), Nat.add_sub_cancel_left]
    · rw [copyBytes_outside (by omega), h'.bytes key _ hself j hj, List.getD_eq_getElem?_getD,
        List.getElem?_eq_none (Nat.not_lt.mp hin)]
      rfl
  · rw [hkey] at hne
    have hframe : ∀ p, σ (pageKey vpn) = some p → frame' (pageKey vpn) = frame (pageKey vpn) :=
      fun p hp => (hkeeps _ (by rw [hp]; exact Option.some_ne_none p)).2
    refine ⟨?_, fun q hq i hi => ?_⟩
    · rw [hw.lookup, h.lookup, hother _ hne, Option.map_map]
      cases hp : σ (pageKey vpn) with
      | none => rfl
      | some p => rw [Option.map_some, Option.map_some, hframe p hp]; simp [hne]
    · rw [h.lookup] at hq
      obtain ⟨p, hp, rfl⟩ := Option.map_eq_some_iff.mp hq
      have hk : σ (pageKey vpn) ≠ none := by
        rw [hp]
        exact Option.some_ne_none p
      have hk' := hother _ hne
      have hdiff : frame (pageKey vpn) ≠ frame' key := by
        rw [← hframe p hp]
        intro heq
        exact hne (h'.inj _ _ (by rw [hk']; exact hk) hmapped heq)
      dsimp only
      rw [hout _ (by omega), h.bytes _ p hp i hi, ← hframe p hp]
      exact h'.bytes _ p (hk'.trans hp) i hi

/-- The position in the file that `mmap_handler` computes. -/
def faultOff (u : MmapArea) (va : ℕ) : ℕ := (u.off + va + 2 ^ 64 - vpn2va u.vmStart) % 2 ^ 32

/-- The page is mapped and read, or mapping fails. -/
theorem mmapPage_serves (hg : Geometry fat) (hs : SoundFat fat fs.disk) (h : Backs pt s frame σ)
    {cs : List ℕ} (hok : FileOk fat fs.disk (fs.ent (file u.f).ep) cs)
    (hplain : (fs.ent (file u.f).ep).Plain) (hframed : u.mapType = .framed)
    (hperm : u.mapPerm < 256) (va : ℕ) :
    (maMapOne u.toMapArea pt s (va2vpn va) = none ∧ mmapPage fat file u pt s fs va = none) ∨
    ((maMapOne u.toMapArea pt s (va2vpn va)).isSome ∧
      ∃ u' pt' s' fs', mmapPage fat file u pt s fs va = some (u', pt', s', fs') ∧
        PageServed pt s va (readByte fat fs.disk (fs.ent (file u.f).ep) (faultOff u va)) pt' s') := by
  rcases h.maMapOne hframed hperm (va2vpn va) with
    ⟨hnone, -⟩ | ⟨⟨ma, pt', s'⟩, frame', σ', hone, hkey, -, hb', -, hkeeps⟩
  · exact Or.inl ⟨hnone, by rw [mmapPage, hnone]; rfl⟩
  · right
    obtain ⟨-, rfl⟩ := mapKey_eq_some_iff.mp hkey
    dsimp only at hb'
    obtain ⟨got, bytes, entry', hread, hlen, hbytes⟩ :
        ∃ got bytes entry', eread fat fs.disk (fs.ent (file u.f).ep) ⟨fun _ => 0, fun _ _ => true⟩
            (faultOff u va) pageSize = some (got, bytes, fs.disk, entry') ∧
          bytes.length ≤ pageSize ∧ ∀ j < 4096, bytes.getD j 0 =
            readByte fat fs.disk (fs.ent (file u.f).ep) (faultOff u va) j :=
      hok.eread_page hg hs hplain
    have hpte : pteFrame s'.mem pt'.rootPpn (va2vpn va) =
        some (frame' (pageKey (va2vpn va))) := by
      rw [hb'.pteFrame, Function.update_self]
      rfl
    refine ⟨by rw [hone]; rfl, { u with toMapArea := ma }, pt', _,
      { fs.set (file u.f).ep entry' with disk := fs.disk }, ?_,
      (h.pageServed hb' hkeeps hlen).congr hbytes⟩
    rw [faultOff] at hread
    rw [mmapPage, hone, Option.bind_eq_bind, Option.bind_some]
    dsimp only
    rw [hpte, ereadPage]
    dsimp only
    rw [hread]
    rfl

theorem find_span {areas : List MmapArea} (hfind : areas.find? (fun t => t.contains va) = some u) :
    ∃ before after, areas = before ++ u :: after ∧
      areas.span (fun t => !t.contains va) = (before, u :: after) := by
  obtain ⟨hin, before, after, rfl, hbefore⟩ := List.find?_eq_some_iff_append.mp hfind
  refine ⟨before, after, rfl, ?_⟩
  rw [List.span_eq_takeWhile_dropWhile, List.takeWhile_append_of_pos hbefore,
    List.dropWhile_append_of_pos hbefore, List.takeWhile_cons_of_neg (by simpa using hin),
    List.dropWhile_cons_of_neg (by simpa using hin), List.append_nil]

/-- The handler serves the first area with the address, unless it refuses the cause. -/
theorem mmapHandler_of_find (hfind : ms.vma.find? (fun t => t.contains va) = some u) :
    ∃ before after, ms.vma = before ++ u :: after ∧ mmapHandler fat file ms s fs va scause =
      match u.refuses scause with
      | some code => some (code, ms, s, fs)
      | none =>
          (mmapPage fat file u ms.pageTable s fs va).map fun (t, pt, s, fs) =>
            (0, { ms with pageTable := pt, vma := before ++ t :: after }, s, fs) := by
  obtain ⟨before, after, hvma, hspan⟩ := find_span hfind
  refine ⟨before, after, hvma, ?_⟩
  cases hwhy : u.refuses scause with
  | none => simp only [mmapHandler, hspan, hwhy]
  | some code => simp only [mmapHandler, hspan, hwhy]

theorem mmapHandler_of_find_none (hfind : ms.vma.find? (fun t => t.contains va) = none) :
    mmapHandler fat file ms s fs va scause = some (-1, ms, s, fs) := by
  have hdrop : ms.vma.dropWhile (fun t => !t.contains va) = [] :=
    List.dropWhile_eq_nil_iff.mpr fun t ht => by simpa using List.find?_eq_none.mp hfind t ht
  rw [mmapHandler, List.span_eq_takeWhile_dropWhile, hdrop]

theorem MmapArea.refuses_ne_zero (u : MmapArea) {scause : ℕ} : u.refuses scause ≠ some 0 := by
  unfold MmapArea.refuses
  split_ifs <;> simp

/-- Whether the handler returns 0 does not depend on what the files hold. -/
theorem mmapHandler_serves (hg : Geometry fat) (h : Backs ms.pageTable s frame σ)
    (hfind : ms.vma.find? (fun t => t.contains va) = some u) (hframed : u.mapType = .framed)
    (hperm : u.mapPerm < 256) (hplain : (fs.ent (file u.f).ep).Plain) {cs : List ℕ}
    (hs : SoundFat fat fs.disk) (hok : FileOk fat fs.disk (fs.ent (file u.f).ep) cs) :
    (∀ ms' s' fs', mmapHandler fat file ms s fs va scause = some (0, ms', s', fs') →
      PageServed ms.pageTable s va (readByte fat fs.disk (fs.ent (file u.f).ep) (faultOff u va))
        ms'.pageTable s') ∧
    ((∃ ms' s' fs', mmapHandler fat file ms s fs va scause = some (0, ms', s', fs')) ↔
      u.refuses scause = none ∧ (maMapOne u.toMapArea ms.pageTable s (va2vpn va)).isSome) := by
  obtain ⟨before, after, -, hrun⟩ : ∃ before after, ms.vma = before ++ u :: after ∧
      mmapHandler fat file ms s fs va scause = _ := mmapHandler_of_find hfind
  rw [hrun]
  cases hrefuses : u.refuses scause with
  | some code =>
      have hcode : code ≠ 0 := by
        rintro rfl
        exact u.refuses_ne_zero hrefuses
      refine ⟨fun ms' s' fs' hcall => ?_, ⟨?_, fun hnone => ?_⟩⟩
      · exact absurd (Prod.mk.inj (Option.some.inj hcall)).1 hcode
      · rintro ⟨ms', s', fs', hcall⟩
        exact absurd (Prod.mk.inj (Option.some.inj hcall)).1 hcode
      · exact absurd hnone.1 (Option.some_ne_none code)
  | none =>
      dsimp only
      rcases mmapPage_serves hg hs h hok hplain hframed hperm va with
        ⟨hmap, hpage⟩ | ⟨hmap, u', pt', s', fs', hpage, hserved⟩
      · rw [hpage, hmap]
        refine ⟨fun ms' s' fs' hcall => ?_, ⟨?_, fun hnone => ?_⟩⟩
        · exact absurd hcall.symm (Option.some_ne_none _)
        · rintro ⟨ms', s', fs', hcall⟩
          exact absurd hcall.symm (Option.some_ne_none _)
        · exact absurd hnone.2 Bool.false_ne_true
      · rw [hpage, Option.map_some]
        refine ⟨fun ms' s'' fs'' hcall => ?_, ⟨fun _ => ⟨rfl, hmap⟩, fun _ => ⟨_, _, _, rfl⟩⟩⟩
        simp only [Option.some.injEq, Prod.mk.injEq] at hcall
        obtain ⟨-, rfl, rfl, -⟩ := hcall
        exact hserved

/-- A call leaves the areas as they are or appends one. -/
theorem sysMmap_appends {gr : Reg → Word} {p p' : MmapTask} {ret : ℕ}
    (hcall : p.sysMmap gr = some (ret, p')) :
    p' = p ∨ ∃ f, p' = p.withArea gr f := by
  obtain ⟨f, -, hrest⟩ := Option.bind_eq_some_iff.mp hcall
  dsimp only at hrest
  split at hrest
  · exact Or.inl (Prod.mk.inj (Option.some.inj hrest)).2.symm
  · split at hrest
    · exact Or.inl (Prod.mk.inj (Option.some.inj hrest)).2.symm
    · split at hrest
      · exact absurd hrest.symm (Option.some_ne_none _)
      · exact Or.inr ⟨f, (Prod.mk.inj (Option.some.inj hrest)).2.symm⟩

/-- An area as a call with the registers `gr` made it, but for the pages mapped since. -/
structure MadeArea where
  gr : Reg → Word
  area : MmapArea
  made : ∃ (p : MmapTask) (ret : ℕ) (p' : MmapTask) (t : MmapArea),
    p.sysMmap gr = some (ret, p') ∧ p'.memorySet.vma = p.memorySet.vma ++ [t] ∧
      area = { t with dataframe := area.dataframe }

namespace MadeArea

theorem eq_newArea (t : MadeArea) : ∃ ms f,
    t.area = { MmapTask.newArea t.gr ms f with dataframe := t.area.dataframe } := by
  obtain ⟨p, ret, p', t₀, hcall, hvma, harea⟩ := t.made
  rcases sysMmap_appends hcall with rfl | ⟨f, rfl⟩
  · have hlen := congrArg List.length hvma
    rw [List.length_append, List.length_singleton] at hlen
    omega
  · obtain rfl := List.singleton_inj.mp (List.append_cancel_left hvma)
    exact ⟨p.memorySet, f, harea⟩

theorem framed (t : MadeArea) : t.area.mapType = .framed := by
  obtain ⟨ms, f, harea⟩ := t.eq_newArea
  rw [harea]
  rfl

theorem perm_lt (t : MadeArea) : t.area.mapPerm < 256 := by
  obtain ⟨ms, f, harea⟩ := t.eq_newArea
  rw [harea]
  exact MmapTask.newArea_perm_lt t.gr ms f

theorem off_eq (t : MadeArea) : t.area.off = (t.gr 16).toNat := by
  obtain ⟨ms, f, harea⟩ := t.eq_newArea
  rw [harea]
  rfl

/-- The byte of the file that belongs to the first byte of the page of the fault; the offset
is the sixth argument, register `a5`. -/
def wanted (t : MadeArea) (va : ℕ) : ℕ :=
  (t.gr 15).toNat + (va / 4096 * 4096 - vpn2va t.area.vmStart)

/-- Where the handler starts to read. -/
def readFrom (t : MadeArea) (va : ℕ) : ℕ :=
  ((t.gr 16).toNat + va + 2 ^ 64 - vpn2va t.area.vmStart) % 2 ^ 32

end MadeArea

/-- Where the handler returns 0, the page holds what was asked for, whatever the files hold,
exactly if the handler reads from the right place. -/
theorem mmapHandler_page_iff {areas : List MadeArea} {t u : MadeArea} {chains : ℕ → List ℕ}
    (hg : Geometry fat) (h : Backs ms.pageTable s frame σ)
    (hvma : ms.vma = areas.map MadeArea.area)
    (hfind : areas.find? (fun t => t.area.contains va) = some u)
    (hok : BothOk fat fs.ent chains (file t.area.f).ep (file u.area.f).ep fs.disk)
    (hplain : (fs.ent (file u.area.f).ep).Plain)
    (hcall : ∃ ms' s' fs', mmapHandler fat file ms s fs va scause = some (0, ms', s', fs')) :
    (∀ d, BothOk fat fs.ent chains (file t.area.f).ep (file u.area.f).ep d → ∀ ms' s' fs',
      mmapHandler fat file ms s { fs with disk := d } va scause = some (0, ms', s', fs') →
      PageServed ms.pageTable s va
        (fun j => fileByte fat d (fs.ent (file t.area.f).ep) (t.wanted va + j)) ms'.pageTable s') ↔
    PageFits ((file t.area.f).ep = (file u.area.f).ep) (fs.ent (file t.area.f).ep).fileSize
      (t.wanted va) (fs.ent (file u.area.f).ep).fileSize (u.readFrom va) := by
  have hfind' : ms.vma.find? (fun t => t.contains va) = some u.area := by
    rw [hvma, List.find?_map, Option.map_eq_some_iff]
    exact ⟨u, hfind, rfl⟩
  have hpos : u.readFrom va = faultOff u.area va := by
    rw [MadeArea.readFrom, faultOff, u.off_eq]
  have hserves : ∀ d, BothOk fat fs.ent chains (file t.area.f).ep (file u.area.f).ep d →
      (∀ ms' s' fs', mmapHandler fat file ms s { fs with disk := d } va scause =
          some (0, ms', s', fs') →
        PageServed ms.pageTable s va
          (readByte fat d (fs.ent (file u.area.f).ep) (faultOff u.area va)) ms'.pageTable s') ∧
      ((∃ ms' s' fs', mmapHandler fat file ms s { fs with disk := d } va scause =
          some (0, ms', s', fs')) ↔ u.area.refuses scause = none ∧
        (maMapOne u.area.toMapArea ms.pageTable s (va2vpn va)).isSome) := by
    intro d hd
    have hplain' : ({ fs with disk := d }.ent (file u.area.f).ep).Plain := hplain
    exact mmapHandler_serves hg h hfind' u.framed u.perm_lt hplain' hd.sound hd.second
  have hmaps := (hserves fs.disk hok).2.mp hcall
  rw [hpos, ← hok.readByte_iff hg]
  constructor
  · intro hall d hd
    obtain ⟨hserved, hreturns⟩ := hserves d hd
    obtain ⟨ms', s', fs', hrun⟩ := hreturns.mpr hmaps
    exact (hserved ms' s' fs' hrun).content_eq (hall d hd ms' s' fs' hrun)
  · intro hall d hd ms' s' fs' hrun
    exact ((hserves d hd).1 ms' s' fs' hrun).congr (hall d hd)

end Fault

/-- A file of 100 bytes, of which the first is 1, in one cluster. -/
def byteFile : Dirent := ⟨fun _ => 0, 0x20, 2, 100, 2, 0, false, 1, 1, 0, 0⟩

def byteFiles : FileSystem where
  disk := ⟨Function.update (store32 smallDisk.data 520 0x0FFFFFFF) 1024 1, [], []⟩
  ent _ := byteFile
  lru := []

theorem byteFiles_ok (e : ℕ) :
    BothOk smallFat byteFiles.ent (fun _ => [2]) e e byteFiles.disk := by
  have hchain : FileChain smallFat byteFiles.disk 2 [2] :=
    ⟨.cons (by decide) (.stop (by decide +kernel)), List.cons_ne_nil 2 [], fun c hc => by
      obtain rfl := List.mem_singleton.mp hc
      exact ⟨le_rfl, by decide⟩⟩
  have hok : FileOk smallFat byteFiles.disk byteFile [2] :=
    ⟨Or.inr hchain, by decide, by decide, fun _ => rfl⟩
  exact ⟨⟨by decide +kernel, by decide +kernel⟩, hok, hok, fun hne => absurd rfl hne⟩

/-- The area that the call with descriptor 3 makes for its first two pages. -/
def exampleArea : MadeArea where
  gr := MmapTask.exampleCall 5000
  area := MmapTask.newArea (MmapTask.exampleCall 5000) MmapTask.exampleTask.memorySet 0
  made := by
    have hplaced : ¬ MmapTask.Refused (MmapTask.exampleCall 5000) (MmapTask.exampleTask.file 0) := by
      unfold MmapTask.Refused
      decide
    exact ⟨_, _, _, _, MmapTask.sysMmap_placed (MmapTask.exampleTask_isOpen 5000) hplaced, rfl, rfl⟩

/-- A fault at the beginning of the second page. -/
theorem mmapHandler_second_page : ∃ pt s, ptNew freshPhysical = some (pt, s) ∧
    (∃ ms' s' fs', mmapHandler smallFat MmapTask.exampleTask.file ⟨pt, [exampleArea.area], []⟩ s
      byteFiles (vmaStart + 4096) 13 = some (0, ms', s', fs')) ∧
    ∀ d, BothOk smallFat byteFiles.ent (fun _ => [2]) 0 0 d → ∀ ms' s' fs',
      mmapHandler smallFat MmapTask.exampleTask.file ⟨pt, [exampleArea.area], []⟩ s
        { byteFiles with disk := d } (vmaStart + 4096) 13 = some (0, ms', s', fs') →
      PageServed pt s (vmaStart + 4096)
        (fun j => fileByte smallFat d byteFile (exampleArea.wanted (vmaStart + 4096) + j))
        ms'.pageTable s' := by
  have heval : ((ptNew freshPhysical).bind fun x =>
      (mmapHandler smallFat MmapTask.exampleTask.file ⟨x.1, [exampleArea.area], []⟩ x.2 byteFiles
        (vmaStart + 4096) 13).map fun y => y.1) = some 0 := by decide +kernel
  simp only [Option.bind_eq_some_iff, Option.map_eq_some_iff] at heval
  obtain ⟨⟨pt, s⟩, hnew, ⟨code, ms', s', fs'⟩, hrun, rfl⟩ := heval
  have hsound : Sound freshPhysical.frames := sound_init (by decide) _
  obtain ⟨htable, htr⟩ := table_ptNew hsound hnew
  have hbacks : Backs pt s (fun _ => 0) fun _ => none :=
    ⟨htable, htr, fun k hk => absurd rfl hk, fun k hk => absurd rfl hk,
      fun k l hk => absurd rfl hk, fun k q hq => absurd hq.symm (Option.some_ne_none q)⟩
  have hfind : [exampleArea].find? (fun t => t.area.contains (vmaStart + 4096)) = some exampleArea := by
    rw [List.find?_cons_of_pos]
    decide
  have hplain : byteFile.Plain := fun hdir => absurd hdir (by decide)
  have hfits : PageFits (0 = 0) byteFile.fileSize (exampleArea.wanted (vmaStart + 4096))
      byteFile.fileSize (exampleArea.readFrom (vmaStart + 4096)) := by
    unfold PageFits
    decide
  exact ⟨pt, s, hnew, ⟨ms', s', fs', hrun⟩, (mmapHandler_page_iff smallFat_geometry hbacks rfl hfind
    (byteFiles_ok 0) hplain ⟨ms', s', fs', hrun⟩).mpr hfits⟩

/-- A fault at byte 8 of the first page gets a page that begins with byte 8 of the file. -/
theorem mmapHandler_inside_page : ∃ pt s ms' s' fs', ptNew freshPhysical = some (pt, s) ∧
    mmapHandler smallFat MmapTask.exampleTask.file ⟨pt, [exampleArea.area], []⟩ s byteFiles
      (vmaStart + 8) 13 = some (0, ms', s', fs') ∧
    ¬ PageServed pt s (vmaStart + 8)
      (fun j => fileByte smallFat byteFiles.disk byteFile (exampleArea.wanted (vmaStart + 8) + j))
      ms'.pageTable s' := by
  have heval : ((ptNew freshPhysical).bind fun x =>
      (mmapHandler smallFat MmapTask.exampleTask.file ⟨x.1, [exampleArea.area], []⟩ x.2 byteFiles
        (vmaStart + 8) 13).bind fun y =>
          (translation y.2.2.1.mem y.2.1.pageTable.rootPpn (va2vpn (vmaStart + 8))).map fun q =>
            (y.1, y.2.2.1.mem (q.1 * 4096))) = some (0, 0) := by decide +kernel
  simp only [Option.bind_eq_some_iff, Option.map_eq_some_iff] at heval
  obtain ⟨⟨pt, s⟩, hnew, ⟨code, ms', s', fs'⟩, hrun, q, hq, heval⟩ := heval
  obtain ⟨rfl, hbyte⟩ := Prod.mk.inj heval
  refine ⟨pt, s, ms', s', fs', hnew, hrun, fun hserved => ?_⟩
  obtain ⟨q', hq', hbytes⟩ := hserved.page
  obtain rfl := Option.some.inj (hq.symm.trans hq')
  have hzero := hbytes 0 (by decide)
  rw [Nat.add_zero, hbyte] at hzero
  have hone : fileByte smallFat byteFiles.disk byteFile (exampleArea.wanted (vmaStart + 8) + 0) = 1 :=
    by decide +kernel
  exact absurd (hzero.trans hone) (by decide)

end K210Os
