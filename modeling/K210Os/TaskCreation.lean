import K210Os.ElfLoad
import K210Os.TrapEntry

/-!
# The memory of a new task

`tcb_new` loads the image, makes a kernel stack in `KERNEL_SPACE` and writes the first
task context and the trap context. Of the address space only the page of the trap
context differs from what `from_elf` made.
-/

namespace K210Os

open FrameAllocator PagedSpace Riscv

/-! ## `tcb_new` -/

def trapContextSize : ℕ := 39 * 8

/-- The bytes of a `struct context`. -/
def trapContextBytes (app : ℕ → Word) (k : ℕ) : Byte := (app (k / 8)).extractLsb' (8 * (k % 8)) 8

/-- The addresses in the kernel that a new task is set up with. -/
structure KernelSymbols where
  strampoline : ℕ
  eReturn : ℕ
  eDispatch : ℕ

/-- The fields of the new task that concern memory; `sstatus` is what `app_context_init`
reads. -/
def TaskMemory.tcbNew (sym : KernelSymbols) (sstatus : Word) (image : ℕ → Byte)
    (sys : ForkState) : Option (TaskMemory × ForkState) := do
  let (ms, userSp, entryPoint, s) ← fromElf sym.strampoline image sys.phys
  let trapCxPpn ← pteFrame s.mem ms.pageTable.rootPpn (va2vpn trapContext)
  let (pid, pids) := sys.pids.pidAlloc
  let (kernelSpace, s) ← ksNew sys.kernelSpace s pid.toNat
  let kernelStackTop := ksGetTop pid.toNat
  let s ← pushTaskContext kernelSpace.pageTable.rootPpn s kernelStackTop sym.eReturn
  let trapCx := appContextInit sstatus (BitVec.ofNat 64 entryPoint) (BitVec.ofNat 64 userSp)
    (BitVec.ofNat 64 (token kernelSpace.pageTable)) (BitVec.ofNat 64 kernelStackTop)
    (BitVec.ofNat 64 sym.eDispatch)
  let mem := copyBytes s.mem (ppn2pa trapCxPpn) (trapContextBytes trapCx) trapContextSize
  return (⟨pid, ms, (userSp + pageSize) % 2 ^ 64, trapCxPpn⟩,
    ⟨kernelSpace, pids, { s with mem }⟩)

/-! ## Tables that grow -/

section Tables

variable {pt pt' : PageTable} {s s' : Physical} {n m vpn : ℕ} {A A' B : ℕ → Prop}

/-- Frames that somebody else holds beside. -/
theorem Grows.beside (h : Grows n s A s' A') (B : ℕ → Prop) :
    Grows n s (fun f => A f ∨ B f) s' (fun f => A' f ∨ B f) where
  sound := h.sound
  taken := h.taken
  mono f hf := hf.imp_left (h.mono f)
  fresh f hf := by
    rcases hf with hf | hf
    · exact (h.fresh f hf).imp_left Or.inl
    · exact Or.inl (Or.inr hf)
  held f hf := by
    rcases hf with hf | hf
    · exact (h.held f hf).imp_left Or.inl
    · exact Or.inl (Or.inr hf)
  keep a ha := h.keep a fun hin => ha (Or.inl hin)
  remain := h.remain

/-- What `ma_map` leaves of a table in which other areas may map anything: each of its
pages has a frame that nobody had. -/
structure AreaMapped (pt : PageTable) (s : Physical) (n vpn : ℕ) (pt' : PageTable)
    (s' : Physical) : Prop where
  table : Table pt' s'
  root : pt'.rootPpn = pt.rootPpn
  grows : ∃ A, Grows (3 * n) s (· ∈ pt.fnode) s' A ∧ (∀ f ∈ pt'.fnode, A f) ∧
    ∀ i < n, ∃ g, pteFrame s'.mem pt'.rootPpn (vpn + i) = some g ∧ A g ∧ g ∉ pt.fnode ∧
      g ∉ pt'.fnode
  keep : ∀ v q, translation s.mem pt.rootPpn v = some q →
    translation s'.mem pt'.rootPpn v = some q

theorem Table.maMapLoop_maps (h : Table pt s) {self self' : MapArea}
    (hframed : self.mapType = .framed) (hperm : self.mapPerm < 256)
    (hcall : maMapLoop n vpn self pt s = some (self', pt', s')) :
    AreaMapped pt s n vpn pt' s' := by
  induction n generalizing vpn self pt s with
  | zero =>
      simp only [maMapLoop, Option.some.injEq, Prod.mk.injEq] at hcall
      obtain ⟨-, rfl, rfl⟩ := hcall
      exact ⟨h, rfl, ⟨_, Grows.refl h.sound, fun f hf => hf, fun i hi =>
        absurd hi (Nat.not_lt_zero i)⟩, fun v q hq => hq⟩
  | succ n ih =>
      obtain ⟨⟨self₁, pt₁, s₁⟩, hone, hrest⟩ := Option.bind_eq_some_iff.mp hcall
      rcases h.maMapOne hframed hperm vpn with ⟨hnone, -⟩ | ⟨hfree, g, pt₂, s₂, hsome, hp⟩
      · rw [hnone] at hone
        contradiction
      · rw [hsome, Option.some.injEq, Prod.mk.injEq, Prod.mk.injEq] at hone
        obtain ⟨rfl, rfl, rfl⟩ := hone
        dsimp only at hrest
        have hmapped : AreaMapped pt₂ s₂ n (vpn + 1) pt' s' := by
          refine ih hp.table ?_ ?_ hrest
          · exact hframed
          · exact hperm
        obtain ⟨htable, hroot, ⟨A, hgrows, hfnode, hpages⟩, hkeep⟩ := hmapped
        have hleaf : ∀ v, translation s₂.mem pt₂.rootPpn v = if pageKey v = pageKey vpn
            then some (g, self.mapPerm ||| pteV) else translation s.mem pt.rootPpn v := by
          intro v
          rw [hp.root, hp.lookup]
        have hgt : Taken s₂.frames g := by
          rcases hp.grows.held g (Or.inr rfl) with hold | hnew
          · exact absurd (h.taken g hold) hp.new
          · exact hnew
        have hgold : g ∉ pt.fnode := fun hin => hp.new (h.taken g hin)
        have hgnew : g ∉ pt'.fnode := by
          intro hin
          rcases hgrows.fresh g (hfnode g hin) with hold | hnot
          · exact hp.apart hold
          · exact hnot hgt
        refine ⟨htable, hroot.trans hp.root, ⟨fun f => A f ∨ f = g, ?_,
          fun f hf => Or.inl (hfnode f hf), fun i hi => ?_⟩, fun v q hq => ?_⟩
        · exact (hp.grows.trans (hgrows.beside (· = g))).le (by omega)
        · cases i with
          | zero =>
              refine ⟨g, ?_, Or.inr rfl, hgold, hgnew⟩
              have hlast := hkeep vpn _ ((hleaf vpn).trans (if_pos rfl))
              rw [pteFrame_eq, Nat.add_zero, hlast]
              rfl
          | succ i =>
              obtain ⟨g', hg', hA, hfirst, hlast⟩ := hpages i (by omega)
              refine ⟨g', ?_, Or.inl hA, fun hin => ?_, hlast⟩
              · rw [← hg', Nat.add_assoc, Nat.add_comm 1 i]
              · rcases hp.grows.mono g' hin with hold | rfl
                · exact hfirst hold
                · exact hgold hin
        · apply hkeep
          rw [hleaf, if_neg, hq]
          intro heq
          rw [translation_congr_key _ _ heq, hfree] at hq
          contradiction

end Tables

/-! ## Spaces beside others -/

section Spaces

variable {pt : PageTable} {s s' : Physical} {frame : ℕ → ℕ} {σ : UserSpace} {n k : ℕ}
  {A A' : ℕ → Prop}

/-- A space whose frames are as they were. -/
theorem Backs.congr (h : Backs pt s frame σ) (hsound : Sound s'.frames)
    (htaken : ∀ f, Taken s.frames f → Taken s'.frames f)
    (hmem : ∀ a, SpaceFrame pt frame σ (a / 4096) → s'.mem a = s.mem a) : Backs pt s' frame σ := by
  obtain ⟨htable, htr⟩ := h.table.congr hsound (fun f hf => htaken f (h.table.taken f hf))
    fun f hf a ha => hmem a (Or.inl (ha ▸ hf))
  refine ⟨htable, fun v => ?_, fun k hk => htaken _ (h.taken k hk), h.apart, h.inj,
    fun k q hq i hi => ?_⟩
  · rw [htr, h.lookup]
  · have hk : σ k ≠ none := by
      rw [hq]
      exact Option.some_ne_none q
    have hdiv : (frame k * 4096 + i) / 4096 = frame k := by omega
    rw [hmem _ (Or.inr ⟨k, hk, hdiv.symm⟩)]
    exact h.bytes k q hq i hi

/-- A space none of whose frames anybody else holds. -/
theorem Backs.grows (h : Backs pt s frame σ) (hg : Grows n s A s' A')
    (hA : ∀ f, SpaceFrame pt frame σ f → ¬ A f) : Backs pt s' frame σ :=
  h.congr hg.sound hg.taken fun _ ha => hg.untouched (h.taken_of_spaceFrame ha) (hA _ ha) rfl

/-- Bytes in a frame that is not one of the space. -/
theorem Backs.writeOther (h : Backs pt s frame σ) {g : ℕ} (hg : ¬ SpaceFrame pt frame σ g)
    {mem : Memory} (hmem : ∀ a, a / 4096 ≠ g → mem a = s.mem a) :
    Backs pt { s with mem } frame σ := by
  apply h.congr
  · exact h.table.sound
  · exact fun _ hf => hf
  · intro a ha
    apply hmem
    rintro rfl
    exact hg ha

/-- Bytes in the frame of a page. -/
theorem Backs.writePage (h : Backs pt s frame σ) (hk : σ k ≠ none) {mem : Memory}
    (hmem : ∀ a, a / 4096 ≠ frame k → mem a = s.mem a) :
    Backs pt { s with mem } frame fun l => (σ l).map fun q =>
      (q.1, if l = k then fun i => mem (frame k * 4096 + i) else q.2) := by
  have hsame : ∀ l, ((σ l).map fun q => (q.1, if l = k then fun i => mem (frame k * 4096 + i)
      else q.2)) ≠ none ↔ σ l ≠ none := fun l => by rw [Ne, Option.map_eq_none_iff]
  have hkept : ∀ f ∈ pt.fnode, ∀ a, a / 4096 = f → mem a = s.mem a := by
    rintro f hf a rfl
    apply hmem
    intro heq
    exact h.apart k hk (heq ▸ hf)
  obtain ⟨htable, htr⟩ : Table pt { s with mem } ∧ ∀ v, translation mem pt.rootPpn v =
      translation s.mem pt.rootPpn v := h.table.congr h.table.sound h.table.taken hkept
  refine ⟨htable, fun v => ?_, fun l hl => h.taken l ((hsame l).mp hl),
    fun l hl => h.apart l ((hsame l).mp hl),
    fun l l' hl hl' => h.inj l l' ((hsame l).mp hl) ((hsame l').mp hl'), fun l q hq i hi => ?_⟩
  · rw [htr, h.lookup, Option.map_map]
    rfl
  · obtain ⟨q₀, hq₀, rfl⟩ := Option.map_eq_some_iff.mp hq
    dsimp only
    by_cases hlk : l = k
    · rw [if_pos hlk, hlk]
    · have hl : σ l ≠ none := by
        rw [hq₀]
        exact Option.some_ne_none q₀
      have hdiv : (frame l * 4096 + i) / 4096 = frame l := by omega
      rw [if_neg hlk, hmem, h.bytes l q₀ hq₀ i hi]
      exact fun heq => hlk (h.inj l k hl hk (hdiv.symm.trans heq))

end Spaces

/-! ## What `tcb_new` makes -/

section Creation

variable {image : ℕ → Byte} {strampoline : ℕ} {s s' : Physical} {ms : MemorySet}

theorem fromElfLoop_sizes {phs : List Proghdr} {n : ℕ} {x : ℕ × MemorySet × Physical}
    (hcall : fromElfLoop image phs n ms s = some x) :
    ∀ ph ∈ phs, ph.type = elfProgLoad → ph.filesz ≤ ph.memsz := by
  induction phs generalizing n ms s with
  | nil => exact fun ph hph => absurd hph List.not_mem_nil
  | cons ph phs ih =>
      intro ph' hph' htype
      rw [fromElfLoop] at hcall
      split at hcall
      · split at hcall
        · contradiction
        · rename_i hsize
          obtain ⟨⟨ms₁, s₁⟩, -, hrest⟩ := Option.bind_eq_some_iff.mp hcall
          rcases List.mem_cons.mp hph' with rfl | hph'
          · exact Nat.not_lt.mp hsize
          · exact ih hrest ph' hph' htype
      · rename_i hother
        rcases List.mem_cons.mp hph' with rfl | hph'
        · exact absurd htype hother
        · exact ih hcall ph' hph' htype

theorem fromElf_sizes {x : MemorySet × ℕ × ℕ × Physical}
    (hcall : fromElf strampoline image s = some x) :
    ∀ ph ∈ loadable image, ph.filesz ≤ ph.memsz := by
  intro ph hph
  obtain ⟨hph, htype⟩ := List.mem_filter.mp hph
  simp only [fromElf, Option.bind_eq_bind, Option.bind_eq_some_iff] at hcall
  obtain ⟨y, -, z, -, w, hloop, -⟩ := hcall
  exact fromElfLoop_sizes hloop ph hph (of_decide_eq_true htype)

/-- The address space that `from_elf` made. -/
structure FromElf (image : ℕ → Byte) (ms : MemorySet) (userSp : ℕ) (σ : UserSpace) : Prop where
  vma : ms.vma = []
  areas : ms.areas.map fromAnother = (loadable image).map elfArea ++
    [stackArea (maxEndVpn (loadable image)), trapArea]
  userSp : userSp = userStackTop (maxEndVpn (loadable image))
  nodup : (trampolineKey :: (elfSegments image).flatMap Segment.keys).Nodup
  mapped : ∀ k, σ k ≠ none ↔ k ∈ trampolineKey :: (elfSegments image).flatMap Segment.keys

/-- The areas of an address space have their pages in the space, with their flags. -/
def AreasMapped (ms : MemorySet) (σ : UserSpace) : Prop :=
  ∀ ma ∈ ms.areas, ma.mapType = .framed ∧ ma.mapPerm < 256 ∧
    ∀ k ∈ areaKeys ma, ∃ b, σ k = some (areaFlags ma, b)

/-- Every area that `from_elf` pushes is one of its segments. -/
theorem area_segment {ma : MapArea} (hma : ma ∈ (loadable image).map elfArea ++
      [stackArea (maxEndVpn (loadable image)), trapArea]) :
    ma.mapType = .framed ∧ ma.mapPerm < 256 ∧
      ∃ writes, areaSegment ma writes ∈ elfSegments image := by
  rcases List.mem_append.mp hma with hma | hma
  · obtain ⟨ph, hph, rfl⟩ := List.mem_map.mp hma
    exact ⟨rfl, elfPerm_lt ph, _, mem_elfSegments hph⟩
  · rw [List.mem_cons, List.mem_singleton] at hma
    rcases hma with rfl | rfl
    · exact ⟨rfl, show vmR ||| vmW ||| vmU < 256 by decide, [], List.mem_append_right _ (by simp)⟩
    · exact ⟨rfl, show vmR ||| vmW < 256 by decide, [], List.mem_append_right _ (by simp)⟩

theorem fromElf_makes {userSp entryPoint : ℕ} (hsound : Sound s.frames)
    (hold : Taken s.frames (pa2ppn strampoline))
    (hcall : fromElf strampoline image s = some (ms, userSp, entryPoint, s')) :
    ∃ frame σ, FromElf image ms userSp σ ∧ AreasMapped ms σ ∧
      (∃ b, σ trampolineKey = some (pteR ||| pteX ||| pteV, b)) ∧ Backs ms.pageTable s' frame σ ∧
      Grows (3 + 3 * keyCount (elfSegments image)) s (· = pa2ppn strampoline) s'
        (SpaceFrame ms.pageTable frame σ) := by
  rcases fromElf_cases hsound hold (fromElf_sizes hcall) with
    ⟨hnone, -⟩ | ⟨ms₁, s₁, frame, σ, hsome, hload, hvma, hareas, hbacks, -, hgrows⟩
  · rw [hnone] at hcall
    contradiction
  · rw [hsome, Option.some.injEq, Prod.mk.injEq, Prod.mk.injEq, Prod.mk.injEq] at hcall
    obtain ⟨rfl, rfl, -, rfl⟩ := hcall
    obtain ⟨hnodup, hnew, hmapped, hσ⟩ := (loadSegments_eq_some_iff
      (trampolineSpace_ne_none_iff s strampoline)).mp hload
    refine ⟨frame, σ, ⟨hvma, hareas, rfl, ?_, fun k => ?_⟩, fun ma hma => ?_, ?_, hbacks, hgrows⟩
    · exact List.nodup_cons.mpr ⟨fun hin => hnew _ hin List.mem_cons_self, hnodup⟩
    · rw [hσ, loaded_ne_none_iff, trampolineSpace_ne_none_iff, List.mem_singleton, List.mem_cons]
    · obtain ⟨hframed, hperm, writes, hseg⟩ := area_segment (hareas ▸ List.mem_map_of_mem hma)
      refine ⟨hframed, hperm, fun k hk => ?_⟩
      have hfree : trampolineSpace s strampoline k = none := by
        by_contra hin
        exact hnew k (List.mem_flatMap.mpr ⟨_, hseg, hk⟩)
          ((trampolineSpace_ne_none_iff s strampoline k).mp hin)
      rw [hσ, loaded_of_mem hnodup hseg hk hfree]
      exact ⟨_, rfl⟩
    · rw [hσ, loaded, trampolineSpace, if_pos rfl]
      exact ⟨_, rfl⟩

/-- What `tcb_new` relies on: the table of `KERNEL_SPACE` is in order, the trampoline's
code is in no frame of it, and the kernel stack of the pid lies above address 0. -/
structure KernelReady (strampoline : ℕ) (sys : ForkState) : Prop where
  table : Table sys.kernelSpace.pageTable sys.phys
  tramp : Taken sys.phys.frames (pa2ppn strampoline)
  apart : pa2ppn strampoline ∉ sys.kernelSpace.pageTable.fnode
  stack : sys.pids.pidAlloc.1.toNat * (kernelStackSize + pageSize) + kernelStackSize ≤ trapContext

theorem ksGetTop_eq {pid : ℕ}
    (hpid : pid * (kernelStackSize + pageSize) + kernelStackSize ≤ trapContext) :
    ksGetTop pid = 2 ^ 64 - 8192 - pid * 20480 ∧ 16384 ≤ ksGetTop pid := by
  have hsizes : kernelStackSize = 16384 ∧ pageSize = 4096 ∧ trapContext = 2 ^ 64 - 8192 := by decide
  obtain ⟨hks, hps, htc⟩ := hsizes
  rw [hks, hps, htc] at hpid
  have hlt : pid * (16384 + 4096) < 2 ^ 64 := by omega
  rw [ksGetTop, hks, hps, htc, Nat.mod_eq_of_lt hlt]
  generalize pid * (16384 + 4096) = x at hpid hlt
  omega

theorem ksNew_maps {ks ks' : MemorySet} {pid : ℕ} (h : Table ks.pageTable s)
    (hpid : pid * (kernelStackSize + pageSize) + kernelStackSize ≤ trapContext)
    (hcall : ksNew ks s pid = some (ks', s')) :
    AreaMapped ks.pageTable s 4 (ksGetTop pid / 4096 - 4) ks'.pageTable s' := by
  simp only [ksNew, insertFramedArea, msPush, pushData, Option.bind_eq_bind, Option.bind_some,
    Option.pure_def, Option.bind_eq_some_iff, Option.some.injEq, Prod.mk.injEq] at hcall
  obtain ⟨⟨ma, pt, s₁⟩, hmap, rfl, rfl⟩ := hcall
  have hks : kernelStackSize = 16384 := rfl
  have hps : pageSize = 4096 := rfl
  obtain ⟨htop, hlo⟩ := ksGetTop_eq hpid
  have hstart : vaFloor ((ksGetTop pid + 2 ^ 64 - kernelStackSize) % 2 ^ 64) =
      ksGetTop pid / 4096 - 4 := by
    rw [vaFloor, paFloor, hks, hps]
    omega
  have hend : vaCeil (ksGetTop pid) = ksGetTop pid / 4096 := by
    rw [vaCeil, paCeil, hps]
    omega
  have hn : ksGetTop pid / 4096 - (ksGetTop pid / 4096 - 4) = 4 := by omega
  rw [maMap, maNew, hstart, hend] at hmap
  dsimp only at hmap
  rw [hn] at hmap
  exact h.maMapLoop_maps rfl (show vmR ||| vmW < 256 by decide) hmap

/-- The first task context lies at the end of the last page of the stack. -/
theorem pushTaskContext_writes {pt pt' : PageTable} {s₁ : Physical} {pid ra : ℕ}
    (hpid : pid * (kernelStackSize + pageSize) + kernelStackSize ≤ trapContext)
    (hm : AreaMapped pt s₁ 4 (ksGetTop pid / 4096 - 4) pt' s)
    (hcall : pushTaskContext pt'.rootPpn s (ksGetTop pid) ra = some s') :
    ∃ g mem, s' = { s with mem } ∧ (∀ a, a / 4096 ≠ g → mem a = s.mem a) ∧
      ¬ Taken s₁.frames g ∧ g ∉ pt'.fnode := by
  obtain ⟨htop, hlo⟩ := ksGetTop_eq hpid
  obtain ⟨A, hgrows, hfnode, hpages⟩ := hm.grows
  obtain ⟨g, hleaf, hA, hnot, hlast⟩ := hpages 3 (by omega)
  have hnew : ¬ Taken s₁.frames g := (hgrows.fresh g hA).resolve_left hnot
  have hlt : g < 0x80800 := hgrows.sound.taken_lt ((hgrows.held g hA).resolve_left hnot)
  obtain ⟨dst, hdst⟩ : ∃ dst, (ksGetTop pid + 2 ^ 64 - taskContextSize) % 2 ^ 64 = dst := ⟨_, rfl⟩
  have hsize : taskContextSize = 104 := rfl
  have hpage : va2vpn dst = ksGetTop pid / 4096 - 4 + 3 := by
    rw [va2vpn, pa2ppn, paFloor, show pageSize = 4096 from rfl, ← hdst, hsize]
    omega
  have hoffset : getOffset dst = 3992 := by
    rw [getOffset_eq, ← hdst, hsize]
    omega
  simp only [pushTaskContext, hdst, hpage, hleaf, Option.map_some, Option.some.injEq] at hcall
  refine ⟨g, _, hcall.symm, fun a ha => ?_, hnew, hlast⟩
  apply copyBytes_outside
  rw [hoffset, ppn2pa_eq (by omega), hsize]
  omega

/-- A kernel stack with its first context was made in frames that nobody had. -/
structure StackMade (ks : MemorySet) (s : Physical) (ks' : MemorySet) (s' : Physical) : Prop where
  table : Table ks'.pageTable s'
  taken : ∀ f, Taken s.frames f → Taken s'.frames f
  apart : ∀ f, Taken s.frames f → f ∉ ks.pageTable.fnode → f ∉ ks'.pageTable.fnode
  keep : ∀ a, Taken s.frames (a / 4096) → a / 4096 ∉ ks.pageTable.fnode → s'.mem a = s.mem a

theorem stackMade {ks ks' : MemorySet} {s₁ : Physical} {pid ra : ℕ} (h : Table ks.pageTable s)
    (hpid : pid * (kernelStackSize + pageSize) + kernelStackSize ≤ trapContext)
    (hnew : ksNew ks s pid = some (ks', s₁))
    (hpush : pushTaskContext ks'.pageTable.rootPpn s₁ (ksGetTop pid) ra = some s') :
    StackMade ks s ks' s' := by
  have hm := ksNew_maps h hpid hnew
  obtain ⟨A, hgrows, hfnode, -⟩ := hm.grows
  obtain ⟨g, mem, rfl, hmem, hfresh, hg⟩ := pushTaskContext_writes hpid hm hpush
  obtain ⟨htable, -⟩ : Table ks'.pageTable { s₁ with mem } ∧ _ :=
    hm.table.congr hm.table.sound hm.table.taken fun f hf a ha =>
      hmem a fun heq => hg (heq ▸ ha ▸ hf)
  refine ⟨htable, hgrows.taken, fun f hf hnot hin => ?_, fun a ha hnot => ?_⟩
  · rcases hgrows.fresh f (hfnode f hin) with hold | hfree
    · exact hnot hold
    · exact hfree hf
  · calc mem a = s₁.mem a := hmem a fun heq => hfresh (heq ▸ ha)
      _ = s.mem a := hgrows.untouched ha hnot rfl

theorem StackMade.backs {ks ks' : MemorySet} {pt : PageTable} {frame : ℕ → ℕ} {σ : UserSpace}
    (h : StackMade ks s ks' s') (hb : Backs pt s frame σ)
    (hapart : ∀ f, SpaceFrame pt frame σ f → f ∉ ks.pageTable.fnode) : Backs pt s' frame σ :=
  hb.congr h.table.sound h.taken fun _ ha => h.keep _ (hb.taken_of_spaceFrame ha) (hapart _ ha)

/-- The kernel beside the frames `A` of others. -/
structure BesideKernel (strampoline : ℕ) (ks : MemorySet) (s : Physical) (A : ℕ → Prop) :
    Prop where
  table : Table ks.pageTable s
  held : Taken s.frames (pa2ppn strampoline)
  tramp : pa2ppn strampoline ∉ ks.pageTable.fnode
  apart : ∀ f, A f → f ∉ ks.pageTable.fnode

section Beside

variable {ks ks' : MemorySet} {A A' : ℕ → Prop} {n : ℕ}

theorem KernelReady.beside {sys : ForkState} (h : KernelReady strampoline sys) :
    BesideKernel strampoline sys.kernelSpace sys.phys (· = pa2ppn strampoline) :=
  ⟨h.table, h.tramp, h.apart, fun _ hf => hf ▸ h.apart⟩

theorem BesideKernel.grows (h : BesideKernel strampoline ks s A) (hg : Grows n s A s' A') :
    BesideKernel strampoline ks s' A' := by
  obtain ⟨htable, -⟩ := hg.table h.table fun f hf hA => h.apart f hA hf
  refine ⟨htable, hg.taken _ h.held, h.tramp, fun f hf hin => ?_⟩
  rcases hg.fresh f hf with hold | hfree
  · exact h.apart f hold hin
  · exact hfree (h.table.taken f hin)

theorem BesideKernel.stack (h : BesideKernel strampoline ks s A)
    (hA : ∀ f, A f → Taken s.frames f) (hmade : StackMade ks s ks' s') :
    BesideKernel strampoline ks' s' A :=
  ⟨hmade.table, hmade.taken _ h.held, hmade.apart _ h.held h.tramp,
    fun f hf => hmade.apart f (hA f hf) (h.apart f hf)⟩

theorem BesideKernel.write (h : BesideKernel strampoline ks s A) {g : ℕ} (hg : A g) {mem : Memory}
    (hmem : ∀ a, a / 4096 ≠ g → mem a = s.mem a) :
    BesideKernel strampoline ks { s with mem } A := by
  obtain ⟨htable, -⟩ : Table ks.pageTable { s with mem } ∧ _ :=
    h.table.congr h.table.sound h.table.taken fun f hf a ha =>
      hmem a fun heq => h.apart g hg (heq ▸ ha ▸ hf)
  exact ⟨htable, h.held, h.tramp, h.apart⟩

end Beside

def trapKey : ℕ := pageKey (va2vpn trapContext)

/-- The pages of a task: its trampoline and those of its areas, the page of the trap context
among them. -/
structure OwnPages (strampoline : ℕ) (p : TaskMemory) (sys : ForkState) (frame : ℕ → ℕ)
    (σ : UserSpace) : Prop where
  backs : Backs p.memorySet.pageTable sys.phys frame σ
  kernel : BesideKernel strampoline sys.kernelSpace sys.phys
    (SpaceFrame p.memorySet.pageTable frame σ)
  trampoline : ∃ b, σ trampolineKey = some (pteR ||| pteX ||| pteV, b)
  areas : AreasMapped p.memorySet σ
  context : trapKey ∈ p.memorySet.areas.flatMap areaKeys ∧ frame trapKey = p.trapCxPpn ∧
    ∃ b, σ trapKey = some (vmR ||| vmW ||| pteV, b)

/-- Contents of one page that are written. -/
theorem OwnPages.write {p : TaskMemory} {sys : ForkState} {frame : ℕ → ℕ} {σ : UserSpace}
    (h : OwnPages strampoline p sys frame σ) {k : ℕ} (hk : σ k ≠ none) {mem : Memory}
    (hmem : ∀ a, a / 4096 ≠ frame k → mem a = sys.phys.mem a) :
    OwnPages strampoline p { sys with phys := { sys.phys with mem } } frame fun l =>
      (σ l).map fun q => (q.1, if l = k then fun i => mem (frame k * 4096 + i) else q.2) := by
  have hspace : ∀ f, SpaceFrame p.memorySet.pageTable frame (fun l => (σ l).map fun q =>
      (q.1, if l = k then fun i => mem (frame k * 4096 + i) else q.2)) f ↔
        SpaceFrame p.memorySet.pageTable frame σ f := by
    intro f
    simp only [SpaceFrame, ne_eq, Option.map_eq_none_iff]
  have hkernel := h.kernel.write (Or.inr ⟨k, hk, rfl⟩) hmem
  obtain ⟨b, htramp⟩ := h.trampoline
  refine ⟨h.backs.writePage hk hmem, ⟨hkernel.table, hkernel.held, hkernel.tramp,
    fun f hf => hkernel.apart f ((hspace f).mp hf)⟩, ?_, fun ma hma => ?_, h.context.1,
    h.context.2.1, ?_⟩
  · rw [htramp]
    exact ⟨_, rfl⟩
  · obtain ⟨hframed, hperm, hpages⟩ := h.areas ma hma
    refine ⟨hframed, hperm, fun l hl => ?_⟩
    obtain ⟨b, hb⟩ := hpages l hl
    rw [hb]
    exact ⟨_, rfl⟩
  · obtain ⟨b, hb⟩ := h.context.2.2
    rw [hb]
    exact ⟨_, rfl⟩

/-- The space of a new task is the one that `from_elf` made, up to the page of the trap
context. -/
theorem tcbNew_makes {sym : KernelSymbols} {sstatus : Word} {sys sys' : ForkState} {p : TaskMemory}
    (hready : KernelReady sym.strampoline sys)
    (hcall : TaskMemory.tcbNew sym sstatus image sys = some (p, sys')) :
    ∃ frame σ userSp, OwnPages sym.strampoline p sys' frame σ ∧
      FromElf image p.memorySet userSp σ ∧ p.baseSize = (userSp + pageSize) % 2 ^ 64 := by
  simp only [TaskMemory.tcbNew, Option.bind_eq_bind, Option.bind_eq_some_iff, Option.pure_def,
    Option.some.injEq, Prod.mk.injEq] at hcall
  obtain ⟨⟨ms, userSp, entryPoint, s₁⟩, helf, trapCxPpn, htrap, ⟨ks, s₂⟩, hks, s₃, hpush, rfl,
    rfl⟩ := hcall
  obtain ⟨frame, σ, hmade, hareas, htramp, hbacks, hgrows⟩ :=
    fromElf_makes hready.table.sound hready.tramp helf
  have hkernel := hready.beside.grows hgrows
  have hstack := stackMade hkernel.table hready.stack hks hpush
  have hkernel₃ := hkernel.stack (fun f => hbacks.taken_of_spaceFrame) hstack
  rw [hbacks.pteFrame, Option.map_eq_some_iff] at htrap
  obtain ⟨q, hq, hframe⟩ := htrap
  have hkey : σ trapKey ≠ none := by
    rw [trapKey, hq]
    exact Option.some_ne_none q
  have hlt : trapCxPpn < 0x80800 := hframe ▸ hbacks.table.sound.taken_lt (hbacks.taken _ hkey)
  have hin : trapArea ∈ ms.areas.map fromAnother := by
    rw [hmade.areas]
    exact List.mem_append_right _ (by simp)
  obtain ⟨ma, hma, heq⟩ := List.mem_map.mp hin
  have htrapIn : trapKey ∈ areaKeys ma := by
    change trapKey ∈ areaKeys (fromAnother ma)
    rw [heq]
    decide
  have hflags : areaFlags ma = vmR ||| vmW ||| pteV := congrArg areaFlags heq
  have hown : OwnPages sym.strampoline
      ⟨sys.pids.pidAlloc.1, ms, (userSp + pageSize) % 2 ^ 64, trapCxPpn⟩
      ⟨ks, sys.pids.pidAlloc.2, s₃⟩ frame σ :=
    ⟨hstack.backs hbacks hkernel.apart, hkernel₃, htramp, hareas,
      List.mem_flatMap.mpr ⟨ma, hma, htrapIn⟩, hframe, hflags ▸ (hareas ma hma).2.2 _ htrapIn⟩
  refine ⟨frame, _, userSp, hown.write hkey fun a ha => ?_, ?_, rfl⟩
  · apply copyBytes_outside
    rw [ppn2pa_eq (by omega), show trapContextSize = 312 from rfl]
    rw [trapKey, hframe] at ha
    omega
  · refine ⟨hmade.vma, hmade.areas, hmade.userSp, hmade.nodup, fun k => ?_⟩
    rw [Ne, Option.map_eq_none_iff]
    exact hmade.mapped k

end Creation

end K210Os
