import K210Os.FileContent
import K210Os.Transition
import Mathlib.Logic.Function.Basic

/-!
# Runs of reads, writes and truncations on the files of a volume

Abstractly a volume maps each file to its list of bytes. Every run of `eread`,
`ewrite` and `etrunc` on the open files of a well-formed volume is a run of that
map, and it leaves the volume well formed.
-/

namespace K210Os

open Transition

/-- Any number of files of one volume: the disk, and the entry of each. -/
structure Files (ι : Type*) where
  disk : Disk
  entry : ι → Dirent

inductive FileCall (ι : Type*)
  | eread (i : ι) (off n : ℕ)
  | ewrite (i : ι) (off : ℕ) (bytes : List Byte)
  | etrunc (i : ι)

inductive FileResult
  | read (tot : ℕ) (bytes : List Byte)
  | wrote (code : ℤ)
  | truncated
  deriving DecidableEq

/-- A transfer whose copies succeed, with the given bytes on the other side. -/
def Transfer.of (bytes : List Byte) : Transfer := ⟨fun k => bytes.getD k 0, fun _ _ => true⟩

section
variable {ι : Type*} [DecidableEq ι]

def fileStep (fat : Fat32) (s : Files ι) : FileCall ι → Option (FileResult × Files ι)
  | .eread i off n =>
      (eread fat s.disk (s.entry i) (Transfer.of []) off n).map fun (tot, bytes, d, e) =>
        (.read tot bytes, ⟨d, Function.update s.entry i e⟩)
  | .ewrite i off bytes =>
      (ewrite fat s.disk (s.entry i) (Transfer.of bytes) off bytes.length).map fun (code, d, e) =>
        (.wrote code, ⟨d, Function.update s.entry i e⟩)
  | .etrunc i =>
      (etrunc fat s.disk (s.entry i)).map fun (d, e) =>
        (.truncated, ⟨d, Function.update s.entry i e⟩)

/-- The contents of the files. -/
def contents (fat : Fat32) (s : Files ι) : ι → List Byte :=
  fun i => fileContent fat s.disk (s.entry i)

/-- `chains` are the clusters of the files: they do not meet, and every file is in
order. -/
structure WellFormed (fat : Fat32) (s : Files ι) (chains : ι → List ℕ) : Prop where
  geometry : Geometry fat
  sound : SoundFat fat s.disk
  file : ∀ i, FileOk fat s.disk (s.entry i) (chains i)
  disjoint : ∀ i j, i ≠ j → (chains i).Disjoint (chains j)

/-- As many clusters are free as an accepted `ewrite` appends, so that there is one
whenever `alloc_clus` runs. -/
def HasRoom (fat : Fat32) (d : Disk) (entry : Dirent) (off n : ℕ) : Prop :=
  off ≤ entry.fileSize → off + n < 2 ^ 32 → ∀ cs, ChainOf fat d entry.firstClus cs →
    ewriteNeed fat cs.length off n ≤ (freeClusters fat d).card

def Dirent.Writable (entry : Dirent) : Prop :=
  entry.isDirectory = false ∧ entry.isReadOnly = false

/-- The calls of the runs: on writable files, with 32-bit arguments. -/
def Permitted (fat : Fat32) (s : Files ι) : FileCall ι → Prop
  | .eread i off n => (s.entry i).Writable ∧ off < 2 ^ 32 ∧ n < 2 ^ 32
  | .ewrite i off bytes =>
      (s.entry i).Writable ∧ off < 2 ^ 32 ∧ bytes.length < 2 ^ 32 ∧
        HasRoom fat s.disk (s.entry i) off bytes.length
  | .etrunc i => (s.entry i).Writable

variable {fat : Fat32} {s t : Files ι} {chains : ι → List ℕ} {i : ι} {d d' : Disk}
  {entry e : Dirent} {cs : List ℕ} {own taken : Set ℕ}

/-! ## Files beside the one that is changed -/

theorem FileOk.keep (hg : Geometry fat) (h : FileOk fat d entry cs) (hk : Keeps fat own taken d d')
    (hout : ∀ c ∈ cs, c ∉ own) :
    FileOk fat d' entry cs ∧ fileContent fat d' entry = fileContent fat d entry := by
  have hchain : ChainOf fat d' entry.firstClus cs := by
    rcases h.chain with hnone | hchain
    · exact .inl hnone
    · exact .inr (hchain.congr fun c hc => hk.entry c (hchain.range c hc).2 (hout c hc))
  have hok : FileOk fat d' entry cs := ⟨hchain, h.long, h.size_lt, h.cursor⟩
  refine ⟨hok, ?_⟩
  rw [h.content_eq hg, hok.content_eq hg]
  refine List.map_congr_left fun k _ => ?_
  have hmod := Nat.mod_lt k (bytsPerClus_pos hg)
  rw [chainByte, chainByte]
  cases hx : cs[k / fat.bytsPerClus]? with
  | none => rfl
  | some x =>
      have hmem := List.mem_of_getElem? hx
      have hne : cs ≠ [] := List.ne_nil_of_mem hmem
      exact hk.byte x ((h.fileChain hne).range x hmem) (hout x hmem) _ (by rwa [← hg.cluster])

omit [DecidableEq ι] in
/-- A cluster of one file is neither free nor a cluster of another. -/
theorem WellFormed.apart (h : WellFormed fat s chains) {j : ι} (hij : i ≠ j) {c : ℕ}
    (hc : c ∈ chains j) : ¬ (c ∈ chains i ∨ c ∈ freeClusters fat s.disk) := by
  have hchain := (h.file j).fileChain (List.ne_nil_of_mem hc)
  rintro (hmem | hfree)
  · exact h.disjoint i j hij hmem hc
  · exact hchain.not_free hc hfree

/-- Changing one file, on its own clusters and free ones. -/
theorem WellFormed.change (h : WellFormed fat s chains) (hs : SoundFat fat d')
    (hf : FileOk fat d' e cs) (hk : Keeps fat own taken s.disk d')
    (hown : ∀ c ∈ own, c ∈ chains i ∨ c ∈ freeClusters fat s.disk)
    (hcs : ∀ c ∈ cs, c ∈ chains i ∨ c ∈ freeClusters fat s.disk) :
    WellFormed fat ⟨d', Function.update s.entry i e⟩ (Function.update chains i cs) ∧
      contents fat ⟨d', Function.update s.entry i e⟩ =
        Function.update (contents fat s) i (fileContent fat d' e) := by
  have hother : ∀ j, j ≠ i → FileOk fat d' (s.entry j) (chains j) ∧
      fileContent fat d' (s.entry j) = fileContent fat s.disk (s.entry j) := fun j hj =>
    (h.file j).keep h.geometry hk fun c hc hmem => h.apart (Ne.symm hj) hc (hown c hmem)
  refine ⟨⟨h.geometry, hs, fun j => ?_, fun j k hjk => ?_⟩, funext fun j => ?_⟩
  · by_cases hj : j = i
    · subst j
      simpa using hf
    · simpa [hj] using (hother j hj).1
  · by_cases hj : j = i
    · subst j
      simp only [Function.update_self, Function.update_of_ne hjk.symm]
      exact fun c hc hk => h.apart hjk hk (hcs c hc)
    · by_cases hki : k = i
      · subst k
        simp only [Function.update_self, Function.update_of_ne hj]
        exact fun c hc hk => h.apart (Ne.symm hj) hc (hcs c hk)
      · simpa [hj, hki] using h.disjoint j k hjk
  · by_cases hj : j = i
    · subst j
      simp [contents]
    · simpa [contents, hj] using (hother j hj).2

/-! ## Lists of bytes -/

theorem contents_update_self (fat : Fat32) (s : Files ι) (i : ι) :
    Function.update (contents fat s) i (fileContent fat s.disk (s.entry i)) = contents fat s :=
  Function.update_eq_self i (contents fat s)

theorem fileContent_length (fat : Fat32) (d : Disk) (entry : Dirent) :
    (fileContent fat d entry).length = entry.fileSize := by
  simp [fileContent]

/-- Moving the position of a file changes nothing else. -/
theorem WellFormed.move (h : WellFormed fat s chains) {c q : ℕ}
    (hf : FileOk fat s.disk ((s.entry i).at c q) (chains i)) :
    WellFormed fat ⟨s.disk, Function.update s.entry i ((s.entry i).at c q)⟩ chains ∧
      contents fat ⟨s.disk, Function.update s.entry i ((s.entry i).at c q)⟩ = contents fat s := by
  obtain ⟨hw, hc⟩ := h.change h.sound hf (Keeps.refl fat ∅ ∅ s.disk) (by simp)
    fun c hc => .inl hc
  rw [Function.update_eq_self] at hw
  exact ⟨hw, hc.trans (contents_update_self fat s i)⟩

end

/-! ## A small volume -/

theorem ChainOf.unique {fat : Fat32} {d : Disk} {first : ℕ} {cs ds : List ℕ}
    (h : ChainOf fat d first cs) (k : ChainOf fat d first ds) : cs = ds := by
  have hzero : ∀ xs, FileChain fat d first xs → first ≠ 0 := fun xs hx h0 => by
    have hrange := (hx.range _ (hx.chain.head_mem hx.nonempty)).1
    omega
  rcases h with ⟨h0, rfl⟩ | h <;> rcases k with ⟨k0, rfl⟩ | k
  · rfl
  · exact absurd h0 (hzero _ k)
  · exact absurd k0 (hzero _ h)
  · exact h.chain.unique k.chain

theorem hasRoom_of_chain {fat : Fat32} {d : Disk} {entry : Dirent} {cs : List ℕ} {off n : ℕ}
    (h : ChainOf fat d entry.firstClus cs)
    (hroom : ewriteNeed fat cs.length off n ≤ (freeClusters fat d).card) :
    HasRoom fat d entry off n := fun _ _ ds hds => by
  rwa [← h.unique hds]

/-- Two clusters of one sector, behind a FAT of one sector. -/
def smallFat : Fat32 := ⟨2, 2, 512, 512, 1, 1, 4, 1⟩

/-- The disk on which both clusters are free. -/
def smallDisk : Disk := ⟨store32 (store32 (fun _ => 0) 512 0x0FFFFFF8) 516 0x0FFFFFFF, [], []⟩

def emptyFile : Dirent := ⟨fun _ => 0, 0x20, 0, 0, 0, 0, false, 1, 1, 0, 0⟩

theorem smallFat_geometry : Geometry smallFat := by
  constructor <;> decide

end K210Os
