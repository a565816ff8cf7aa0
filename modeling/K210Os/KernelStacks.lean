import K210Os.TaskCreation

/-!
# The kernel stacks

Where `kernel_stack_pos` puts the stack of a pid, and which pages of `KERNEL_SPACE` are mapped
while stacks are added to what `new_kenel` mapped. A page counts by its key, the 27 bits of its
number that a table looks at.
-/

namespace K210Os

open FrameAllocator

def rustsbiBase : ℕ := 0x80000000

/-! ## Positions -/

/-- `pos[0]` and `pos[1]`. -/
def kernelStackPos (pid : ℕ) : ℕ × ℕ :=
  let top := (trapContext + 2 ^ 64 - pid * (kernelStackSize + pageSize) % 2 ^ 64) % 2 ^ 64
  ((top + 2 ^ 64 - kernelStackSize) % 2 ^ 64, top)

/-- The area that `ks_new` inserts. -/
def ksArea (pid : ℕ) : MapArea :=
  maNew (kernelStackPos pid).1 (kernelStackPos pid).2 .framed (vmR ||| vmW)

theorem ksNew_eq (kernelSpace : MemorySet) (s : Physical) (pid : ℕ) :
    ksNew kernelSpace s pid = msPush kernelSpace s (ksArea pid) none 0 := rfl

/-- The pids that the positions are meant for. -/
def StackPid (pid : ℕ) : Prop := 1 ≤ pid ∧ pid ≤ 2 ^ 24

variable {p q k : ℕ}

theorem kernelStackPos_eq (hp : StackPid p) :
    (kernelStackPos p).1 = 2 ^ 64 - 24576 - p * 20480 ∧
      (kernelStackPos p).2 = 2 ^ 64 - 8192 - p * 20480 := by
  have hks : kernelStackSize = 16384 := rfl
  have hps : pageSize = 4096 := rfl
  have htc : trapContext = 2 ^ 64 - 8192 := rfl
  have hlt : p * (16384 + 4096) < 2 ^ 64 := by
    have := hp.2
    omega
  have hle := hp.2
  simp only [kernelStackPos, hks, hps, htc, Nat.mod_eq_of_lt hlt]
  omega

theorem ksArea_bounds (hp : StackPid p) :
    (ksArea p).vmStart = 2 ^ 52 - 6 - 5 * p ∧ (ksArea p).vmEnd = 2 ^ 52 - 2 - 5 * p := by
  obtain ⟨hbottom, htop⟩ := kernelStackPos_eq hp
  have hps : pageSize = 4096 := rfl
  have hle := hp.2
  simp only [ksArea, maNew, vaFloor, vaCeil, paFloor, paCeil, hbottom, htop, hps]
  omega

/-- The keys of a stack are the four below the guard that ends it. -/
theorem mem_stackKeys (hp : StackPid p) :
    k ∈ areaKeys (ksArea p) ↔ 2 ^ 27 - 6 - 5 * p ≤ k ∧ k < 2 ^ 27 - 2 - 5 * p := by
  obtain ⟨hstart, hend⟩ := ksArea_bounds hp
  have hle := hp.2
  rw [areaKeys, mem_pageKeys, hstart, hend]
  constructor
  · rintro ⟨v, hlo, hhi, rfl⟩
    rw [pageKey]
    omega
  · rintro ⟨hlo, hhi⟩
    refine ⟨2 ^ 52 - 2 ^ 27 + k, by omega, by omega, ?_⟩
    rw [pageKey]
    omega

/-- The pages of one stack: four, none of which the kernel maps already, and the top is their
end. -/
structure StackPages (p : ℕ) : Prop where
  four : (areaKeys (ksArea p)).length = 4 ∧ (areaKeys (ksArea p)).Nodup
  bottom : (kernelStackPos p).1 = vpn2va (ksArea p).vmStart
  top : ksGetTop p = vpn2va (ksArea p).vmEnd ∧ (ksArea p).vmEnd = (ksArea p).vmStart + 4
  pos : ksGetTop p = (kernelStackPos p).2
  trampoline : trampolineKey ∉ areaKeys (ksArea p)
  context : trapKey ∉ areaKeys (ksArea p)
  memory : ∀ k ∈ areaKeys (ksArea p), 0x80800 ≤ k

theorem trampolineKey_eq : trampolineKey = 2 ^ 27 - 1 := by decide

theorem trapKey_eq : trapKey = 2 ^ 27 - 2 := by decide

theorem stackPages (hp : StackPid p) : StackPages p := by
  obtain ⟨hstart, hend⟩ := ksArea_bounds hp
  obtain ⟨hbottom, htop⟩ := kernelStackPos_eq hp
  have hle := hp.2
  have hfour : (ksArea p).vmEnd - (ksArea p).vmStart = 4 := by omega
  constructor
  · rw [areaKeys, hfour]
    refine ⟨rfl, ?_⟩
    apply List.Nodup.map_on _ List.nodup_range'
    intro v hv w hw heq
    rw [List.mem_range'_1] at hv hw
    rw [pageKey, pageKey] at heq
    omega
  · rw [hbottom, hstart, vpn2va, ppn2pa_eq (by omega)]
    omega
  · refine ⟨?_, by omega⟩
    change (kernelStackPos p).2 = _
    rw [htop, hend, vpn2va, ppn2pa_eq (by omega)]
    omega
  · rfl
  · rw [mem_stackKeys hp, trampolineKey_eq]
    omega
  · rw [mem_stackKeys hp, trapKey_eq]
    omega
  · intro k hk
    have := (mem_stackKeys hp).mp hk
    omega

/-- Below the stack of `p` lies a page that belongs to no stack. -/
def guardKey (p : ℕ) : ℕ := 2 ^ 27 - 7 - 5 * p

theorem guardKey_not_mem (hp : StackPid p) (hq : StackPid q) :
    guardKey p ∉ areaKeys (ksArea q) := by
  have hle := hp.2
  have hle' := hq.2
  rw [mem_stackKeys hq, guardKey]
  omega

/-- Between two stacks lies the guard of the upper one. -/
theorem guardKey_between {l : ℕ} (hp : StackPid p) (hq : StackPid q)
    (hk : k ∈ areaKeys (ksArea p)) (hl : l ∈ areaKeys (ksArea q)) (hpq : p < q) :
    l < guardKey p ∧ guardKey p < k := by
  have hle := hq.2
  rw [mem_stackKeys hp] at hk
  rw [mem_stackKeys hq] at hl
  rw [guardKey]
  omega

/-! ## The assertion of `map` -/

/-- `map` asserts that the entry it found or made is not valid; this is whether it is. -/
def mapAsserts (pt : PageTable) (s : Physical) (vpn : ℕ) : Bool :=
  match findPteCreate pt s vpn with
  | none => false
  | some (pte, _, s) => pteIsValid (load64 s.mem pte)

/-- Whether the loop of `ma_map` ends in a failed assertion of `map`. -/
def maMapLoopAsserts : ℕ → ℕ → MapArea → PageTable → Physical → Bool
  | 0, _, _, _, _ => false
  | n + 1, vpn, self, pt, s =>
      match maFrame self s vpn with
      | none => false
      | some (ppn, self, s) =>
          mapAsserts pt s vpn ||
            match map pt s vpn ppn self.mapPerm with
            | none => false
            | some (pt, s) => maMapLoopAsserts n (vpn + 1) self pt s

/-- Whether `ks_new` ends in a failed assertion of `map`. -/
def ksNewAsserts (kernelSpace : MemorySet) (s : Physical) (pid : ℕ) : Bool :=
  let ma := ksArea pid
  maMapLoopAsserts (ma.vmEnd - ma.vmStart) ma.vmStart ma kernelSpace.pageTable s

/-! ## The keys of a table -/

/-- The table maps the pages whose keys are in `K`, and no others. -/
structure MapsKeys (pt : PageTable) (s : Physical) (K : ℕ → Prop) : Prop where
  table : Table pt s
  mapped_iff : ∀ vpn, translation s.mem pt.rootPpn vpn ≠ none ↔ K (pageKey vpn)

namespace MapsKeys

variable {pt pt' : PageTable} {s s' : Physical} {K : ℕ → Prop} {vpn n : ℕ}

theorem not_mapped (h : MapsKeys pt s K) (hfree : ¬ K (pageKey vpn)) :
    translation s.mem pt.rootPpn vpn = none := by
  by_contra hmapped
  exact hfree ((h.mapped_iff vpn).mp hmapped)

theorem mapAsserts (h : MapsKeys pt s K) (hfree : ¬ K (pageKey vpn)) :
    mapAsserts pt s vpn = false := by
  rcases h.table.findPteCreate vpn with ⟨-, -, hcall⟩ | ⟨f, pt', s', hcall, -, -, hw, htr⟩
  · simp only [K210Os.mapAsserts, hcall]
  · simp only [K210Os.mapAsserts, hcall]
    have hnone := (htr vpn).trans (h.not_mapped hfree)
    rw [translation_eq, hw, Option.bind_some, decodePte, entry] at hnone
    by_contra hvalid
    rw [Bool.not_eq_false] at hvalid
    rw [if_pos hvalid] at hnone
    cases hnone

/-- A call of `map` that returns adds the key of its page, which was free. -/
theorem map (h : MapsKeys pt s K) {ppn flags : ℕ} (hppn : ppn < 2 ^ 44) (hflags : flags < 256)
    (hcall : map pt s vpn ppn flags = some (pt', s')) :
    MapsKeys pt' s' (fun k => K k ∨ k = pageKey vpn) ∧
      frameRemainSize s.frames ≤ frameRemainSize s'.frames + 2 := by
  have hremain := (h.table.map_grows hcall).remain
  by_cases hfree : translation s.mem pt.rootPpn vpn = none
  · rcases h.table.map hfree hppn hflags with ⟨-, hnone⟩ | ⟨pt₁, s₁, hsome, h₁, hroot, htr⟩
    · rw [hnone] at hcall
      cases hcall
    · rw [hsome, Option.some.injEq, Prod.mk.injEq] at hcall
      obtain ⟨rfl, rfl⟩ := hcall
      refine ⟨⟨h₁, fun v => ?_⟩, hremain⟩
      rw [hroot, htr, ← h.mapped_iff, pageKey, pageKey]
      split
      · simp_all
      · simp_all
  · rw [h.table.map_of_mapped hfree] at hcall
    cases hcall

/-- A free page is mapped unless the frames run out. -/
theorem map_none (h : MapsKeys pt s K) (hfree : ¬ K (pageKey vpn)) {ppn flags : ℕ}
    (hppn : ppn < 2 ^ 44) (hflags : flags < 256) (hcall : K210Os.map pt s vpn ppn flags = none) :
    frameRemainSize s.frames < 2 := by
  rcases h.table.map (h.not_mapped hfree) hppn hflags with ⟨hfew, -⟩ | ⟨pt₁, s₁, hsome, -⟩
  · exact hfew
  · rw [hsome] at hcall
    cases hcall

/-- What is written to a new frame leaves the table. -/
theorem newFrame (h : MapsKeys pt s K) {g : ℕ} {frames : FrameAllocator} {mem : Memory}
    (hcall : frameAlloc s.frames = some (g, frames))
    (hmem : g < 0x80800 → ∀ a, a / 4096 ≠ g → mem a = s.mem a) :
    MapsKeys pt ⟨mem, frames⟩ K ∧ g < 0x80800 ∧
      frameRemainSize s.frames = frameRemainSize frames + 1 := by
  rcases h.table.sound.frameAlloc with ⟨-, hnone⟩ |
    ⟨g', frames', hsome, hsound, hnew, htaken, hremain⟩
  · rw [hnone] at hcall
    cases hcall
  · rw [hsome, Option.some.injEq, Prod.mk.injEq] at hcall
    obtain ⟨rfl, rfl⟩ := hcall
    have hg : g' < 0x80800 := hsound.taken_lt ((htaken g').mpr (Or.inl rfl))
    have hnot : g' ∉ pt.fnode := fun hin => hnew (h.table.taken g' hin)
    obtain ⟨htable, htr⟩ : Table pt ⟨mem, frames'⟩ ∧ _ :=
      h.table.congr hsound (fun f hf => (htaken f).mpr (Or.inr (h.table.taken f hf)))
        fun f hf a ha => hmem hg a fun heq => hnot (heq ▸ ha ▸ hf)
    refine ⟨⟨htable, fun v => ?_⟩, hg, hremain⟩
    rw [htr, h.mapped_iff]

/-- An area whose pages have frames that fit into an entry. -/
def Mappable (self : MapArea) (stop : ℕ) : Prop :=
  self.mapPerm < 256 ∧ (self.mapType = .framed ∨ self.mapType = .identical ∧ stop ≤ 2 ^ 44)

theorem maFrame (h : MapsKeys pt s K) {self self' : MapArea} {ppn stop : ℕ}
    (hself : Mappable self stop) (hlt : vpn < stop)
    (hcall : maFrame self s vpn = some (ppn, self', s')) :
    MapsKeys pt s' K ∧ ppn < 2 ^ 44 ∧ SameArea self self' ∧
      frameRemainSize s.frames ≤ frameRemainSize s'.frames + 1 := by
  rcases hself.2 with hframed | ⟨hidentical, hstop⟩
  · simp only [K210Os.maFrame, hframed, Option.map_eq_some_iff, Prod.mk.injEq] at hcall
    obtain ⟨⟨g, frames⟩, halloc, rfl, rfl, rfl⟩ := hcall
    obtain ⟨h', hg, hremain⟩ := h.newFrame halloc fun hg a ha => memset_frame_of_ne hg ha
    refine ⟨h', by omega, ?_, hremain.le⟩
    simp only [SameArea, fromAnother, hframed]
  · simp only [K210Os.maFrame, hidentical, Option.some.injEq, Prod.mk.injEq] at hcall
    obtain ⟨rfl, rfl, rfl⟩ := hcall
    exact ⟨h, by omega, rfl, Nat.le_succ _⟩

theorem maFrame_none (h : MapsKeys pt s K) {self : MapArea} {stop : ℕ}
    (hself : Mappable self stop) (hcall : K210Os.maFrame self s vpn = none) :
    frameRemainSize s.frames = 0 := by
  rcases hself.2 with hframed | ⟨hidentical, -⟩
  · rcases h.table.sound.frameAlloc with ⟨hfull, -⟩ | ⟨g, frames, hsome, -⟩
    · exact hfull
    · simp [K210Os.maFrame, hframed, hsome] at hcall
  · simp [K210Os.maFrame, hidentical] at hcall

theorem sameArea_mappable {self self' : MapArea} {stop : ℕ}
    (hsame : SameArea self self') (h : Mappable self stop) : Mappable self' stop := by
  have hperm := congrArg MapArea.mapPerm hsame
  have htype := congrArg MapArea.mapType hsame
  change self'.mapPerm = self.mapPerm at hperm
  change self'.mapType = self.mapType at htype
  rw [Mappable, hperm, htype]
  exact h

/-- What a loop of `ma_map` that returns adds to a table. -/
theorem maMapLoop (h : MapsKeys pt s K) {self self' : MapArea} (hself : Mappable self (vpn + n))
    (hcall : maMapLoop n vpn self pt s = some (self', pt', s')) :
    MapsKeys pt' s' (fun k => K k ∨ k ∈ pageKeys vpn n) := by
  induction n generalizing vpn self pt s K with
  | zero =>
    simp only [K210Os.maMapLoop, Option.some.injEq, Prod.mk.injEq] at hcall
    obtain ⟨-, rfl, rfl⟩ := hcall
    refine ⟨h.table, fun v => ?_⟩
    simp only [pageKeys, List.range'_zero, List.map_nil, List.not_mem_nil, or_false]
    exact h.mapped_iff v
  | succ n ih =>
    obtain ⟨⟨self₂, pt₂, s₂⟩, hone, hrest⟩ := Option.bind_eq_some_iff.mp hcall
    obtain ⟨⟨ppn, self₁, s₁⟩, hframe, hbind⟩ := Option.bind_eq_some_iff.mp hone
    obtain ⟨⟨pt₃, s₃⟩, hmap, heq⟩ := Option.bind_eq_some_iff.mp hbind
    simp only [Option.pure_def, Option.some.injEq, Prod.mk.injEq] at heq
    obtain ⟨rfl, rfl, rfl⟩ := heq
    obtain ⟨h₁, hppn, hsame, -⟩ := h.maFrame hself (by omega) hframe
    have hself₁ := sameArea_mappable hsame hself
    obtain ⟨h₂, -⟩ := h₁.map hppn hself₁.1 hmap
    have hstop : vpn + 1 + n = vpn + (n + 1) := by omega
    obtain ⟨htable, hmapped⟩ := ih h₂ (hstop ▸ hself₁) hrest
    refine ⟨htable, fun v => ?_⟩
    rw [hmapped, pageKeys_succ, List.mem_cons, or_assoc]

/-- Over pages that are free the loop meets no failed assertion, and it returns unless the frames
run out. -/
theorem maMapLoop_free (h : MapsKeys pt s K) {self : MapArea} (hself : Mappable self (vpn + n))
    (hfree : ∀ k ∈ pageKeys vpn n, ¬ K k) (hnodup : (pageKeys vpn n).Nodup) :
    maMapLoopAsserts n vpn self pt s = false ∧
      (K210Os.maMapLoop n vpn self pt s = none → frameRemainSize s.frames < 3 * n) := by
  induction n generalizing vpn self pt s K with
  | zero => exact ⟨rfl, fun hcall => by cases hcall⟩
  | succ n ih =>
    rw [pageKeys_succ] at hfree hnodup
    obtain ⟨hhead, hnodup⟩ := List.nodup_cons.mp hnodup
    have hkey := hfree _ List.mem_cons_self
    simp only [maMapLoopAsserts, K210Os.maMapLoop, maMapOne]
    cases hframe : K210Os.maFrame self s vpn with
    | none =>
      refine ⟨rfl, fun _ => ?_⟩
      have := h.maFrame_none hself hframe
      omega
    | some x =>
      obtain ⟨ppn, self₁, s₁⟩ := x
      obtain ⟨h₁, hppn, hsame, hremain₁⟩ := h.maFrame hself (by omega) hframe
      have hself₁ := sameArea_mappable hsame hself
      simp only [h₁.mapAsserts hkey, Bool.false_or, Option.bind_eq_bind, Option.bind_some]
      cases hmap : K210Os.map pt s₁ vpn ppn self₁.mapPerm with
      | none =>
        refine ⟨rfl, fun _ => ?_⟩
        have := h₁.map_none hkey hppn hself₁.1 hmap
        omega
      | some y =>
        obtain ⟨pt₂, s₂⟩ := y
        obtain ⟨h₂, hremain₂⟩ := h₁.map hppn hself₁.1 hmap
        have hstop : vpn + 1 + n = vpn + (n + 1) := by omega
        have hfree₂ : ∀ k ∈ pageKeys (vpn + 1) n, ¬ (K k ∨ k = pageKey vpn) := by
          rintro k hk (hin | rfl)
          · exact hfree k (List.mem_cons_of_mem _ hk) hin
          · exact hhead hk
        obtain ⟨hasserts, hnone⟩ := ih h₂ (hstop ▸ hself₁) hfree₂ hnodup
        refine ⟨hasserts, fun hcall => ?_⟩
        have := hnone hcall
        omega

/-- What `ms_push` adds to a table, when it copies nothing. -/
theorem msPush {ms ms' : MemorySet} {ma : MapArea} (h : MapsKeys ms.pageTable s K)
    (hle : ma.vmStart ≤ ma.vmEnd) (hma : Mappable ma ma.vmEnd)
    (hcall : msPush ms s ma none 0 = some (ms', s')) :
    MapsKeys ms'.pageTable s' (fun k => K k ∨ k ∈ areaKeys ma) := by
  obtain ⟨⟨ma', pt', s₁⟩, hmap, hrest⟩ := Option.bind_eq_some_iff.mp hcall
  simp only [pushData, Option.bind_eq_bind, Option.bind_some, Option.pure_def, Option.some.injEq,
    Prod.mk.injEq] at hrest
  obtain ⟨rfl, rfl⟩ := hrest
  have hstop : ma.vmStart + (ma.vmEnd - ma.vmStart) = ma.vmEnd := by omega
  exact h.maMapLoop (hstop.symm ▸ hma) hmap

end MapsKeys

/-! ## The address space of the kernel -/

/-- The symbols of the linked kernel, in the order in which the linker script sets them. -/
structure KernelImage where
  skernel : ℕ
  stext : ℕ
  strampoline : ℕ
  etext : ℕ
  srodata : ℕ
  erodata : ℕ
  sdata : ℕ
  edata : ℕ
  sbssWithStack : ℕ
  ebss : ℕ
  ekernel : ℕ
  bootStackTop : ℕ
  eDispatch : ℕ
  ordered : List.Pairwise (· ≤ ·) [rustsbiBase, skernel, stext, strampoline, etext, srodata,
    erodata, sdata, edata, sbssWithStack, ebss, ekernel, memoryEnd]

/-- Where `kernel_satp` and `trap_handle` lie in `struct context`. -/
def contextKernelSatp : ℕ := 288
def contextTrapHandle : ℕ := 304

def msMapKcontext (img : KernelImage) (self : MemorySet) (s : Physical) :
    Option (MemorySet × Physical) := do
  let (f, frames) ← frameAlloc s.frames
  let kernelcon := ppn2pa f
  let mem := store64 s.mem (kernelcon + contextKernelSatp) (token self.pageTable)
  let mem := store64 mem (kernelcon + contextKernelSp) img.bootStackTop
  let mem := store64 mem (kernelcon + contextTrapHandle) img.eDispatch
  let (pt, s) ← map self.pageTable ⟨mem, frames⟩ (va2vpn trapContext) f (pteR ||| pteW)
  return ({ self with pageTable := pt }, s)

theorem kcontext_outside {f a : ℕ} (hf : f < 0x80800) (ha : a / 4096 ≠ f) {mem : Memory}
    (satp sp handle : ℕ) :
    store64 (store64 (store64 mem (ppn2pa f + contextKernelSatp) satp)
      (ppn2pa f + contextKernelSp) sp) (ppn2pa f + contextTrapHandle) handle a = mem a := by
  have hpa : ppn2pa f = f * 4096 := ppn2pa_eq (by omega)
  have hsatp : contextKernelSatp = 288 := rfl
  have hsp : contextKernelSp = 296 := rfl
  have hhandle : contextTrapHandle = 304 := rfl
  rw [store64, LittleEndian.store_outside (by omega), store64,
    LittleEndian.store_outside (by omega), store64, LittleEndian.store_outside (by omega)]

/-- `k210_memmap`, base and size of each entry; no device has the number 13. -/
def k210Memmap : List (ℕ × ℕ) :=
  [(0x02000000, 0x10000), (0x0C000000, 0x3000), (0x0C200000, 0x1000), (0x10000000, 0x1000),
    (0x10001000, 0x1000), (0x38000000, 0x1000), (0x38001000, 0x1000), (0x50200000, 0x1000),
    (0x50240000, 0x1000), (0x502B0000, 0x1000), (0x502D0000, 0x1000), (0x502E0000, 0x1000),
    (0x502F0000, 0x1000), (0, 0), (0x50440000, 0x1000), (0x52000000, 0x1000),
    (0x53000000, 0x1000), (0x54000000, 0x1000), (0x50000000, 0x1000), (0x50460000, 0x1000)]

/-- The areas that `new_kenel` pushes for the image and the memory behind it. -/
def kernelAreas (img : KernelImage) : List MapArea :=
  [maNew rustsbiBase img.skernel .identical (vmR ||| vmX),
    maNew img.stext img.etext .identical (vmR ||| vmX),
    maNew img.srodata img.erodata .identical vmR,
    maNew img.sdata img.edata .identical (vmR ||| vmW),
    maNew img.sbssWithStack img.ebss .identical (vmR ||| vmW),
    maNew img.ekernel memoryEnd .identical (vmR ||| vmW)]

/-- The areas that its loop pushes for the devices. -/
def deviceAreas : List MapArea :=
  (k210Memmap.zipIdx.filter fun e => e.2 ≠ 1 ∧ e.2 ≠ 4 ∧ e.2 ≠ 3).map fun e =>
    maNew e.1.1 (e.1.1 + e.1.2) .identical (vmR ||| vmW)

def msPushAll : List MapArea → MemorySet → Physical → Option (MemorySet × Physical)
  | [], ms, s => some (ms, s)
  | ma :: mas, ms, s => do
      let (ms, s) ← msPush ms s ma none 0
      msPushAll mas ms s

def newKenel (img : KernelImage) (s : Physical) : Option (MemorySet × Physical) := do
  let (ms, s) ← msInit s
  let (ms, s) ← msMapTrampoline img.strampoline ms s
  let (ms, s) ← msMapKcontext img ms s
  msPushAll (kernelAreas img ++ deviceAreas) ms s

/-- An area of the memory or of a device that is mapped to itself. -/
structure IdentityArea (ma : MapArea) : Prop where
  type : ma.mapType = .identical
  perm : ma.mapPerm < 256
  le : ma.vmStart ≤ ma.vmEnd
  stop : ma.vmEnd ≤ 0x80800

theorem identityArea {a b perm : ℕ} (hab : a ≤ b) (hb : b ≤ memoryEnd) (hperm : perm < 256) :
    IdentityArea (maNew a b .identical perm) := by
  have hps : pageSize = 4096 := rfl
  have hend : memoryEnd = 0x80800000 := rfl
  refine ⟨rfl, hperm, ?_, ?_⟩ <;> simp only [maNew, vaFloor, vaCeil, paFloor, paCeil, hps] <;> omega

theorem kernelAreas_identity (img : KernelImage) : ∀ ma ∈ kernelAreas img, IdentityArea ma := by
  have hordered := img.ordered
  simp only [List.pairwise_cons, List.mem_cons, List.not_mem_nil, or_false, forall_eq_or_imp,
    forall_eq] at hordered
  simp only [kernelAreas, List.forall_mem_cons]
  refine ⟨?_, ?_, ?_, ?_, ?_, ?_, fun _ h => by cases h⟩ <;>
    exact identityArea (by omega) (by omega) (by decide)

theorem deviceAreas_identity : ∀ ma ∈ deviceAreas, IdentityArea ma := by
  have hall : ∀ e ∈ k210Memmap, e.1 + e.2 ≤ memoryEnd := by decide
  intro ma hma
  obtain ⟨e, he, rfl⟩ := List.mem_map.mp hma
  have hin := (List.mem_filter.mp he).1
  have hentry : e.1 ∈ k210Memmap := (List.mem_zipIdx hin).2.2 ▸ List.getElem_mem _
  exact identityArea (Nat.le_add_right _ _) (hall _ hentry) (by decide)

theorem IdentityArea.key_lt {ma : MapArea} (h : IdentityArea ma) (hk : k ∈ areaKeys ma) :
    k < 0x80800 := by
  have hle := h.le
  have hstop := h.stop
  obtain ⟨v, hlo, hhi, rfl⟩ := mem_pageKeys.mp hk
  rw [pageKey]
  omega

/-! ## Runs -/

/-- The kernel's address space from `new_kenel` on, and the pids whose stacks were added to it.
In between the rest of the kernel may do anything that leaves the frames of the table alone. -/
inductive KernelRun (img : KernelImage) : List ℕ → MemorySet → Physical → Prop
  | boot {s s' : Physical} {ks : MemorySet} (hsound : Sound s.frames)
      (hcall : newKenel img s = some (ks, s')) : KernelRun img [] ks s'
  | stack {pids : List ℕ} {ks ks' : MemorySet} {s s' : Physical} {pid : ℕ}
      (hrun : KernelRun img pids ks s) (hpid : StackPid pid) (hfresh : pid ∉ pids)
      (hcall : ksNew ks s pid = some (ks', s')) : KernelRun img (pid :: pids) ks' s'
  | other {pids : List ℕ} {ks : MemorySet} {s s' : Physical} (hrun : KernelRun img pids ks s)
      (hsound : Sound s'.frames) (htaken : ∀ f ∈ ks.pageTable.fnode, Taken s'.frames f)
      (hkept : ∀ f ∈ ks.pageTable.fnode, ∀ a, a / 4096 = f → s'.mem a = s.mem a) :
      KernelRun img pids ks s'

/-- The keys that the kernel may map: those of `new_kenel` and those of the stacks. -/
def KernelKey (pids : List ℕ) (k : ℕ) : Prop :=
  k = trampolineKey ∨ k = trapKey ∨ k < 0x80800 ∨ ∃ p ∈ pids, k ∈ areaKeys (ksArea p)

theorem StackPid.mappable (hp : StackPid p) :
    MapsKeys.Mappable (ksArea p) (ksArea p).vmEnd ∧ (ksArea p).vmStart ≤ (ksArea p).vmEnd := by
  obtain ⟨hstart, hend⟩ := ksArea_bounds hp
  exact ⟨⟨show vmR ||| vmW < 256 by decide, Or.inl rfl⟩, by omega⟩

theorem msPushAll_maps {mas : List MapArea} (hall : ∀ ma ∈ mas, IdentityArea ma)
    {ms ms' : MemorySet} {s s' : Physical} {K : ℕ → Prop} (h : MapsKeys ms.pageTable s K)
    (hK : ∀ k, K k → KernelKey [] k) (hcall : msPushAll mas ms s = some (ms', s')) :
    ∃ K', MapsKeys ms'.pageTable s' K' ∧ ∀ k, K' k → KernelKey [] k := by
  induction mas generalizing ms s K with
  | nil =>
    simp only [msPushAll, Option.some.injEq, Prod.mk.injEq] at hcall
    obtain ⟨rfl, rfl⟩ := hcall
    exact ⟨K, h, hK⟩
  | cons ma mas ih =>
    obtain ⟨⟨ms₁, s₁⟩, hpush, hrest⟩ := Option.bind_eq_some_iff.mp hcall
    have hma := hall ma List.mem_cons_self
    have hstop := hma.stop
    have h₁ := h.msPush hma.le ⟨hma.perm, Or.inr ⟨hma.type, by omega⟩⟩ hpush
    refine ih (fun ma hin => hall ma (List.mem_cons_of_mem _ hin)) h₁ ?_ hrest
    rintro k (hk | hk)
    · exact hK k hk
    · exact Or.inr (Or.inr (Or.inl (hma.key_lt hk)))

theorem newKenel_maps {img : KernelImage} {s s' : Physical} {ks : MemorySet}
    (hsound : Sound s.frames) (hcall : newKenel img s = some (ks, s')) :
    ∃ K, MapsKeys ks.pageTable s' K ∧ ∀ k, K k → KernelKey [] k := by
  obtain ⟨⟨ms₁, s₁⟩, hinit, hrest⟩ := Option.bind_eq_some_iff.mp hcall
  obtain ⟨⟨ms₂, s₂⟩, htramp, hrest⟩ := Option.bind_eq_some_iff.mp hrest
  obtain ⟨⟨ms₃, s₃⟩, hcontext, hrest⟩ := Option.bind_eq_some_iff.mp hrest
  obtain ⟨⟨pt, s₀⟩, hnew, heq⟩ := Option.map_eq_some_iff.mp hinit
  obtain ⟨rfl, rfl⟩ := Prod.mk.inj heq
  obtain ⟨htable, hempty⟩ := table_ptNew hsound hnew
  have h₁ : MapsKeys pt s₀ fun _ => False := ⟨htable, fun vpn => by simp [hempty vpn]⟩
  obtain ⟨⟨pt₂, s₂'⟩, hmap₂, heq₂⟩ := Option.map_eq_some_iff.mp htramp
  obtain ⟨rfl, rfl⟩ := Prod.mk.inj heq₂
  have htrampoline : pa2ppn img.strampoline < 2 ^ 44 := by
    have hordered := img.ordered
    simp only [List.pairwise_cons, List.mem_cons, List.not_mem_nil, or_false, forall_eq_or_imp,
      forall_eq] at hordered
    have hend : memoryEnd = 0x80800000 := rfl
    rw [pa2ppn, paFloor, show pageSize = 4096 from rfl]
    omega
  obtain ⟨h₂, -⟩ := h₁.map htrampoline (by decide) hmap₂
  obtain ⟨⟨f, frames⟩, halloc, hbind⟩ := Option.bind_eq_some_iff.mp hcontext
  obtain ⟨⟨pt₃, s₃'⟩, hmap₃, heq₃⟩ := Option.bind_eq_some_iff.mp hbind
  simp only [Option.pure_def, Option.some.injEq, Prod.mk.injEq] at heq₃
  obtain ⟨rfl, rfl⟩ := heq₃
  obtain ⟨h₂', hf, -⟩ := h₂.newFrame halloc fun hf a ha => kcontext_outside hf ha _ _ _
  obtain ⟨h₃, -⟩ := h₂'.map (by omega) (by decide) hmap₃
  refine msPushAll_maps ?_ h₃ ?_ hrest
  · intro ma hma
    rcases List.mem_append.mp hma with hma | hma
    · exact kernelAreas_identity img ma hma
    · exact deviceAreas_identity ma hma
  · rintro k ((hk | rfl) | rfl)
    · exact hk.elim
    · exact Or.inl rfl
    · exact Or.inr (Or.inl rfl)

/-- In a run the kernel maps the stacks that were added, and beside them only what `new_kenel`
maps. -/
theorem KernelRun.maps {img : KernelImage} {pids : List ℕ} {ks : MemorySet} {s : Physical}
    (hrun : KernelRun img pids ks s) :
    (∀ p ∈ pids, StackPid p) ∧ ∃ K, MapsKeys ks.pageTable s K ∧ (∀ k, K k → KernelKey pids k) ∧
      ∀ p ∈ pids, ∀ k ∈ areaKeys (ksArea p), K k := by
  induction hrun with
  | boot hsound hcall =>
    obtain ⟨K, h, hK⟩ := newKenel_maps hsound hcall
    exact ⟨List.forall_mem_nil _, K, h, hK, List.forall_mem_nil _⟩
  | @stack pids ks ks' s s' pid hrun hpid hfresh hcall ih =>
    obtain ⟨hpids, K, h, hK, hstacks⟩ := ih
    have h' := h.msPush hpid.mappable.2 hpid.mappable.1 (ksNew_eq ks s pid ▸ hcall)
    refine ⟨List.forall_mem_cons.mpr ⟨hpid, hpids⟩, _, h', ?_, ?_⟩
    · rintro k (hk | hk)
      · rcases hK k hk with hk | hk | hk | ⟨p, hp, hk⟩
        · exact Or.inl hk
        · exact Or.inr (Or.inl hk)
        · exact Or.inr (Or.inr (Or.inl hk))
        · exact Or.inr (Or.inr (Or.inr ⟨p, List.mem_cons_of_mem _ hp, hk⟩))
      · exact Or.inr (Or.inr (Or.inr ⟨pid, List.mem_cons_self, hk⟩))
    · intro p hp k hk
      rcases List.mem_cons.mp hp with rfl | hp
      · exact Or.inr hk
      · exact Or.inl (hstacks p hp k hk)
  | @other pids ks s s' hrun hsound htaken hkept ih =>
    obtain ⟨hpids, K, h, hK, hstacks⟩ := ih
    obtain ⟨htable, htr⟩ := h.table.congr hsound htaken hkept
    exact ⟨hpids, K, ⟨htable, fun v => by rw [htr, h.mapped_iff]⟩, hK, hstacks⟩

/-- What a call of `ks_new` for a pid without a stack does. -/
structure StackCall (ks : MemorySet) (s : Physical) (p : ℕ) : Prop where
  asserts : ksNewAsserts ks s p = false
  fails : ksNew ks s p = none → frameRemainSize s.frames < 12
  adds : ∀ ks' s', ksNew ks s p = some (ks', s') → ∀ vpn,
    translation s'.mem ks'.pageTable.rootPpn vpn ≠ none ↔
      translation s.mem ks.pageTable.rootPpn vpn ≠ none ∨ pageKey vpn ∈ areaKeys (ksArea p)

/-- The stacks of two pids share no page, and between them lies one that is never mapped. -/
structure StacksApart (img : KernelImage) (p q : ℕ) : Prop where
  disjoint : ∀ k ∈ areaKeys (ksArea p), k ∉ areaKeys (ksArea q)
  gap : ∀ k ∈ areaKeys (ksArea p), ∀ l ∈ areaKeys (ksArea q), ∃ g, min k l < g ∧ g < max k l ∧
    ∀ pids ks s, KernelRun img pids ks s → ∀ vpn, pageKey vpn = g →
      translation s.mem ks.pageTable.rootPpn vpn = none

variable {img : KernelImage}

theorem stackKeys_disjoint (hp : StackPid p) (hq : StackPid q) (hne : p ≠ q)
    (hk : k ∈ areaKeys (ksArea p)) : k ∉ areaKeys (ksArea q) := by
  have hle := hp.2
  have hle' := hq.2
  rw [mem_stackKeys hp] at hk
  rw [mem_stackKeys hq]
  omega

theorem KernelRun.guard_free {pids : List ℕ} {ks : MemorySet} {s : Physical}
    (hrun : KernelRun img pids ks s) (hp : StackPid p) {vpn : ℕ}
    (hvpn : pageKey vpn = guardKey p) : translation s.mem ks.pageTable.rootPpn vpn = none := by
  obtain ⟨hpids, K, h, hK, -⟩ := hrun.maps
  apply h.not_mapped
  have hle := hp.2
  intro hin
  rw [hvpn] at hin
  rcases hK _ hin with hk | hk | hk | ⟨q, hq, hk⟩
  · rw [trampolineKey_eq, guardKey] at hk
    omega
  · rw [trapKey_eq, guardKey] at hk
    omega
  · rw [guardKey] at hk
    omega
  · exact guardKey_not_mem hp (hpids q hq) hk

theorem KernelRun.stackCall {pids : List ℕ} {ks : MemorySet} {s : Physical}
    (hrun : KernelRun img pids ks s) (hp : StackPid p) (hfresh : p ∉ pids) :
    StackCall ks s p := by
  obtain ⟨hpids, K, h, hK, -⟩ := hrun.maps
  obtain ⟨hma, hle⟩ := hp.mappable
  have hpages := stackPages hp
  have hfour : (ksArea p).vmEnd - (ksArea p).vmStart = 4 := by
    rw [hpages.top.2]
    omega
  have hfree : ∀ k ∈ areaKeys (ksArea p), ¬ K k := by
    intro k hk hin
    rcases hK k hin with rfl | rfl | hlow | ⟨q, hq, hk'⟩
    · exact hpages.trampoline hk
    · exact hpages.context hk
    · have := hpages.memory k hk
      omega
    · exact stackKeys_disjoint hp (hpids q hq) (by rintro rfl; exact hfresh hq) hk hk'
  have hstop : (ksArea p).vmStart + ((ksArea p).vmEnd - (ksArea p).vmStart) = (ksArea p).vmEnd := by
    omega
  obtain ⟨hasserts, hnone⟩ := h.maMapLoop_free (hstop.symm ▸ hma) hfree hpages.four.2
  refine ⟨hasserts, fun hcall => ?_, fun ks' s' hcall vpn => ?_⟩
  · rw [hfour] at hnone
    apply hnone
    rw [← hfour]
    cases hmap : maMap (ksArea p) ks.pageTable s with
    | none => exact hmap
    | some x =>
      rw [ksNew_eq, msPush, hmap] at hcall
      cases hcall
  · have h' := h.msPush hle hma (ksNew_eq ks s p ▸ hcall)
    rw [h'.mapped_iff, h.mapped_iff]

theorem kernelStacks (img : KernelImage) (hp : StackPid p) (hq : StackPid q) (hne : p ≠ q) :
    StackPages p ∧ StacksApart img p q ∧
      ∀ pids ks s, KernelRun img pids ks s → p ∉ pids → StackCall ks s p := by
  refine ⟨stackPages hp, ⟨fun k hk => stackKeys_disjoint hp hq hne hk, fun k hk l hl => ?_⟩,
    fun pids ks s hrun hfresh => hrun.stackCall hp hfresh⟩
  rcases Nat.lt_or_gt_of_ne hne with hlt | hgt
  · obtain ⟨hlow, hhigh⟩ := guardKey_between hp hq hk hl hlt
    exact ⟨guardKey p, by omega, by omega, fun pids ks s hrun vpn => hrun.guard_free hp⟩
  · obtain ⟨hlow, hhigh⟩ := guardKey_between hq hp hl hk hgt
    exact ⟨guardKey q, by omega, by omega, fun pids ks s hrun vpn => hrun.guard_free hq⟩

/-- An image with one page in each section. -/
def smallImage : KernelImage where
  skernel := 0x80020000
  stext := 0x80020000
  strampoline := 0x80020000
  etext := 0x80021000
  srodata := 0x80021000
  erodata := 0x80022000
  sdata := 0x80022000
  edata := 0x80023000
  sbssWithStack := 0x80023000
  ebss := 0x80024000
  ekernel := 0x80024000
  bootStackTop := 0x80024000
  eDispatch := 0x80020000
  ordered := by decide

theorem kernelStacks_first_two :
    StackPages 1 ∧ StacksApart smallImage 1 2 ∧
      ∀ pids ks s, KernelRun smallImage pids ks s → 1 ∉ pids → StackCall ks s 1 :=
  kernelStacks smallImage ⟨by decide, by decide⟩ ⟨by decide, by decide⟩ (by decide)

end K210Os
