import K210Os.MmapContent
import Mathlib.Algebra.Order.BigOperators.Group.Finset

/-!
# The frames of tasks that exit

`exit_current_and_run_next` gives back the frames of the areas in `areas`. Those of the
page table, of the areas for files and of the kernel stack are left to `waitpid`, which only
says in a comment that it takes them back. Followed is how many frames are out.
-/

namespace K210Os

open FrameAllocator Riscv Transition

/-! ## Giving the areas back -/

/-- `vpmap_remove`. -/
def MapArea.vpmapRemove (self : MapArea) (vpn : ℕ) : Option (ℕ × MapArea) :=
  (self.dataframe.find? fun node => node.1 == vpn).map fun node =>
    (node.2, { self with dataframe := self.dataframe.eraseP fun node => node.1 == vpn })

/-- `ma_unmap_one` in front of `unmap`. -/
def MapArea.dropFrame (self : MapArea) (s : Physical) (vpn : ℕ) : Option (MapArea × Physical) :=
  match self.mapType with
  | .framed => do
      let (ppn, self) ← self.vpmapRemove vpn
      let frames ← frameDealloc s.frames ppn
      return (self, { s with frames })
  | _ => some (self, s)

def MapArea.maUnmapOne (self : MapArea) (pt : PageTable) (s : Physical) (vpn : ℕ) :
    Option (MapArea × PageTable × Physical) := do
  let (self, s) ← self.dropFrame s vpn
  let (pt, s) ← unmap pt s vpn
  return (self, pt, s)

/-- The loop of `ma_unmap`, with `n` pages to go. -/
def MapArea.maUnmapLoop :
    ℕ → ℕ → MapArea → PageTable → Physical → Option (MapArea × PageTable × Physical)
  | 0, _, self, pt, s => some (self, pt, s)
  | n + 1, vpn, self, pt, s => do
      let (self, pt, s) ← self.maUnmapOne pt s vpn
      maUnmapLoop n (vpn + 1) self pt s

def MapArea.maUnmap (self : MapArea) (pt : PageTable) (s : Physical) :
    Option (MapArea × PageTable × Physical) :=
  maUnmapLoop (self.vmEnd - self.vmStart) self.vmStart self pt s

def MemorySet.msMaFreeLoop : List MapArea → PageTable → Physical → Option (PageTable × Physical)
  | [], pt, s => some (pt, s)
  | p :: areas, pt, s => do
      let (_, pt, s) ← p.maUnmap pt s
      msMaFreeLoop areas pt s

def MemorySet.msMaFree (self : MemorySet) (s : Physical) : Option (MemorySet × Physical) :=
  (msMaFreeLoop self.areas self.pageTable s).map fun (pt, s) =>
    ({ self with pageTable := pt, areas := [] }, s)

/-! ## Tasks -/

/-- The tasks in `running` have not exited; `known` are those that ever were. -/
structure TaskSpaces (ι : Type) where
  memory : ι → TaskMemory
  parent : ι → Option ι
  running : Finset ι
  zombie : Finset ι
  known : Finset ι
  sys : ForkState

/-- `store` is what the programs and `copyout2` do to memory. -/
inductive SpaceOp (ι : Type) where
  | fork (p c : ι)
  | brk (p : ι) (addr : ℕ)
  | mmap (p : ι) (gr : Reg → Word) (ofile : Fin nofile → Option (Fin nfile)) (file : Fin nfile → File)
      (off : Fin nfile → BitVec 32)
  | pageIn (p : ι) (fat : Fat32) (file : Fin nfile → File) (fs : FileSystem) (va scause : ℕ)
  | exit (p : ι)
  | waitpid (p c : ι)
  | store (mem : Memory)

namespace TaskSpaces

variable {ι : Type} [DecidableEq ι]

def phys (st : TaskSpaces ι) : Physical := st.sys.phys

def setTask (st : TaskSpaces ι) (p : ι) (task : TaskMemory) (phys : Physical) : TaskSpaces ι :=
  { st with memory := Function.update st.memory p task, sys := { st.sys with phys } }

def setSpace (st : TaskSpaces ι) (p : ι) (memorySet : MemorySet) (phys : Physical) : TaskSpaces ι :=
  st.setTask p { st.memory p with memorySet } phys

def space (st : TaskSpaces ι) (p : ι) : MemorySet := (st.memory p).memorySet

def fork (sym : KernelSymbols) (st : TaskSpaces ι) (p c : ι) : Option (TaskSpaces ι) :=
  ((st.memory p).sysFork sym.strampoline sym.eReturn st.sys).map fun (_, child, sys) =>
    { st with
      memory := Function.update st.memory c child
      parent := Function.update st.parent c (some p)
      running := insert c st.running
      known := insert c st.known
      sys }

/-- The children are handed over to `INITPROC`. -/
def exit (initproc : ι) (st : TaskSpaces ι) (p : ι) : Option (TaskSpaces ι) :=
  if p = initproc then none
  else
    ((st.space p).msMaFree st.phys).map fun (ms, phys) =>
      { st.setSpace p ms phys with
        parent := fun c => if st.parent c = some p then some initproc else st.parent c
        running := st.running.erase p
        zombie := insert p st.zombie }

def spaceStep (sym : KernelSymbols) (initproc : ι) (st : TaskSpaces ι) :
    SpaceOp ι → Option (TaskSpaces ι)
  | .fork p c => st.fork sym p c
  | .brk p addr =>
      ((st.memory p).sysBrk st.phys addr).map fun (_, task, phys) => st.setTask p task phys
  | .mmap p gr ofile file off =>
      ((MmapTask.mk (st.space p) ofile file off).sysMmap gr).map fun (_, t) =>
        st.setSpace p t.memorySet st.phys
  | .pageIn p fat file fs va scause =>
      (mmapHandler fat file (st.space p) st.phys fs va scause).map fun (_, ms, phys, _) =>
        st.setSpace p ms phys
  | .exit p => st.exit initproc p
  | .waitpid _ c => some { st with zombie := st.zombie.erase c }
  | .store mem => some { st with sys := { st.sys with phys := { st.phys with mem } } }

def Permitted (st : TaskSpaces ι) : SpaceOp ι → Prop
  | .fork p c => p ∈ st.running ∧ c ∉ st.known
  | .brk p _ => p ∈ st.running
  | .mmap p .. => p ∈ st.running
  | .pageIn p .. => p ∈ st.running
  | .exit p => p ∈ st.running
  | .waitpid p c => p ∈ st.running ∧ c ∈ st.zombie ∧ st.parent c = some p
  | .store _ => True

def SpaceStep (sym : KernelSymbols) (initproc : ι) (st : TaskSpaces ι) (op : SpaceOp ι)
    (st' : TaskSpaces ι) : Prop :=
  st.Permitted op ∧ st.spaceStep sym initproc op = some st'

end TaskSpaces

/-! ## Frames that are out -/

section Counts

variable {start stop : ℕ} {fa fa' fa'' : FrameAllocator} {ppn : ℕ}

/-- The allocator is in order, for whatever is out. -/
def Managed (start stop : ℕ) (fa : FrameAllocator) : Prop :=
  ∃ held, Manages start stop fa held ∧ fa.current - 1 ∉ fa.recycled.elements

/-- The frames that may be handed out. -/
def freeFrames (fa : FrameAllocator) : Set ℕ :=
  {ppn | ppn ∈ fa.recycled.elements ∨ fa.current ≤ ppn ∧ ppn < fa.end_}

/-- The number of frames that are out, the ones below `start` included. -/
def outCount (fa : FrameAllocator) : ℤ := fa.current - fa.recycled.currentSize

theorem outCount_eq {held : Multiset ℕ} (h : Manages start stop fa held) :
    outCount fa = start + held.card := by
  have hcard := h.card
  have hstart := h.start_le
  have hstop := h.le_stop
  rw [outCount]
  omega

theorem outCount_of_freeFrames (h : Managed start stop fa) (h' : Managed start stop fa')
    (heq : freeFrames fa' = freeFrames fa) : outCount fa' = outCount fa := by
  obtain ⟨held, hm, -⟩ := h
  obtain ⟨held', hm', -⟩ := h'
  have hfree : ∀ {fa held}, Manages start stop fa held →
      (fa.recycled.elements + Multiset.Ico fa.current stop).Nodup ∧
        ∀ ppn, ppn ∈ fa.recycled.elements + Multiset.Ico fa.current stop ↔ ppn ∈ freeFrames fa := by
    intro fa held hm
    have hnodup := hm.nodup
    rw [add_assoc, Multiset.nodup_add] at hnodup
    refine ⟨hnodup.2.1, fun ppn => ?_⟩
    rw [Multiset.mem_add, Multiset.mem_Ico, freeFrames, hm.end_eq]
    rfl
  obtain ⟨hnodup, hmem⟩ := hfree hm
  obtain ⟨hnodup', hmem'⟩ := hfree hm'
  have hsame : fa'.recycled.elements + Multiset.Ico fa'.current stop =
      fa.recycled.elements + Multiset.Ico fa.current stop :=
    (Multiset.Nodup.ext hnodup' hnodup).mpr fun ppn => by rw [hmem', hmem, heq]
  have hcard := congrArg Multiset.card hsame
  rw [Multiset.card_add, Multiset.card_add, MaxHeap.card_elements, MaxHeap.card_elements, card_ico,
    card_ico] at hcard
  have hstop := hm.le_stop
  have hstop' := hm'.le_stop
  rw [outCount, outCount]
  omega

/-- At least `z` frames more are out than before. -/
structure Takes (start stop : ℕ) (z : ℤ) (fa fa' : FrameAllocator) : Prop where
  managed : Managed start stop fa'
  out : outCount fa + z ≤ outCount fa'

theorem Takes.refl (h : Managed start stop fa) : Takes start stop 0 fa fa :=
  ⟨h, by rw [add_zero]⟩

theorem Takes.trans {y z : ℤ} (h : Takes start stop y fa fa') (h' : Takes start stop z fa' fa'') :
    Takes start stop (y + z) fa fa'' := by
  have hout := h.out
  have hout' := h'.out
  exact ⟨h'.managed, by omega⟩

theorem Takes.le {y z : ℤ} (h : Takes start stop z fa fa') (hle : y ≤ z) :
    Takes start stop y fa fa' := by
  have hout := h.out
  exact ⟨h.managed, by omega⟩

theorem frameAlloc_takes (h : Managed start stop fa) (hcall : frameAlloc fa = some (ppn, fa')) :
    Takes start stop 1 fa fa' ∧ start ≤ ppn := by
  obtain ⟨held, hm, hfrontier⟩ := h
  rcases hm.frameAlloc hfrontier with ⟨-, hnone⟩ | ⟨g, fa₁, hsome, hm', hfrontier'⟩
  · rw [hnone] at hcall
    exact absurd hcall.symm (Option.some_ne_none _)
  · obtain ⟨rfl, rfl⟩ := Prod.mk.inj (Option.some.inj (hsome.symm.trans hcall))
    refine ⟨⟨⟨_, hm', hfrontier'⟩, ?_⟩, (hm'.mem_iff.mp (Or.inl (Multiset.mem_cons_self g held))).1⟩
    rw [outCount_eq hm, outCount_eq hm', Multiset.card_cons]
    omega

/-- A frame that is given back was out. -/
theorem frameDealloc_takes (h : Managed start stop fa) (hlo : start ≤ ppn)
    (hcall : frameDealloc fa ppn = some fa') : Takes start stop (-1) fa fa' := by
  obtain ⟨held, hm, -⟩ := h
  have hlt : ppn < fa.current := by
    by_contra hge
    rw [FrameAllocator.frameDealloc, if_pos] at hcall
    · exact absurd hcall.symm (Option.some_ne_none _)
    · rw [Bool.or_eq_true]
      exact Or.inl (decide_eq_true (not_lt.mp hge))
  by_cases hmem : ppn ∈ held
  · obtain ⟨fa₁, hsome, hm', hfrontier⟩ := hm.frameDealloc hmem
    obtain rfl := Option.some.inj (hsome.symm.trans hcall)
    refine ⟨⟨_, hm', hfrontier⟩, ?_⟩
    have hpos : 0 < held.card := Multiset.card_pos_iff_exists_mem.mpr ⟨ppn, hmem⟩
    rw [outCount_eq hm, outCount_eq hm', Multiset.card_erase_of_mem hmem, Nat.pred_eq_sub_one]
    omega
  · rw [hm.frameDealloc_eq_none hlo (hlt.trans_le hm.le_stop) hmem] at hcall
    exact absurd hcall.symm (Option.some_ne_none _)

end Counts

/-! ## What the functions take -/

section Calls

variable {start stop : ℕ} {pt pt' : PageTable} {s s' : Physical} {vpn : ℕ}

theorem ptNew_takes (h : Managed start stop s.frames) (hcall : ptNew s = some (pt, s')) :
    Takes start stop 1 s.frames s'.frames := by
  obtain ⟨⟨frame, frames⟩, halloc, hmade⟩ := Option.bind_eq_some_iff.mp hcall
  obtain ⟨-, rfl⟩ := Prod.mk.inj (Option.some.inj hmade)
  exact (frameAlloc_takes h halloc).1

theorem newTable_takes {pte : ℕ} (h : Managed start stop s.frames)
    (hcall : newTable pt s pte = some (pt', s')) : Takes start stop 0 s.frames s'.frames := by
  obtain ⟨⟨frame, frames⟩, halloc, hmade⟩ := Option.bind_eq_some_iff.mp hcall
  obtain ⟨-, rfl⟩ := Prod.mk.inj (Option.some.inj hmade)
  exact (frameAlloc_takes h halloc).1.le (by omega)

theorem findPteCreateLoop_takes {ppn pte : ℕ} {indexes : List ℕ} (h : Managed start stop s.frames)
    (hcall : findPteCreateLoop pt s ppn indexes = some (pte, pt', s')) :
    Takes start stop 0 s.frames s'.frames := by
  induction indexes generalizing pt s ppn with
  | nil => exact absurd hcall.symm (Option.some_ne_none _)
  | cons index indexes ih =>
      cases indexes with
      | nil =>
          obtain ⟨-, hmade⟩ := Prod.mk.inj (Option.some.inj hcall)
          obtain ⟨-, rfl⟩ := Prod.mk.inj hmade
          exact Takes.refl h
      | cons next indexes =>
          rw [findPteCreateLoop_cons] at hcall
          split at hcall
          · obtain ⟨⟨pt₁, s₁⟩, htable, hrest⟩ := Option.bind_eq_some_iff.mp hcall
            have htakes := newTable_takes h htable
            exact (htakes.trans (ih htakes.managed hrest)).le (by omega)
          · exact ih h hcall

theorem map_takes {ppn flags : ℕ} (h : Managed start stop s.frames)
    (hcall : map pt s vpn ppn flags = some (pt', s')) : Takes start stop 0 s.frames s'.frames := by
  obtain ⟨⟨pte, pt₁, s₁⟩, hfind, hrest⟩ := Option.bind_eq_some_iff.mp hcall
  have htakes := findPteCreateLoop_takes h hfind
  dsimp only at hrest
  split at hrest
  · exact absurd hrest.symm (Option.some_ne_none _)
  · obtain ⟨-, rfl⟩ := Prod.mk.inj (Option.some.inj hrest)
    exact htakes

theorem unmap_takes (h : Managed start stop s.frames) (hcall : unmap pt s vpn = some (pt', s')) :
    Takes start stop 0 s.frames s'.frames := by
  obtain ⟨⟨pte, pt₁, s₁⟩, hfind, hrest⟩ := Option.bind_eq_some_iff.mp hcall
  have htakes := findPteCreateLoop_takes h hfind
  dsimp only at hrest
  split at hrest
  · exact absurd hrest.symm (Option.some_ne_none _)
  · obtain ⟨-, rfl⟩ := Prod.mk.inj (Option.some.inj hrest)
    exact htakes

/-- The frames of the list are the allocator's. -/
def MapArea.FromAllocator (start : ℕ) (self : MapArea) : Prop :=
  ∀ node ∈ self.dataframe, start ≤ node.2

def dataFrames (areas : List MapArea) : ℤ := (areas.map fun ma => (ma.dataframe.length : ℤ)).sum

theorem dataFrames_append (areas areas' : List MapArea) :
    dataFrames (areas ++ areas') = dataFrames areas + dataFrames areas' := by
  rw [dataFrames, List.map_append, List.sum_append]
  rfl

variable {self self' : MapArea}

/-- What mapping pages does to the list of an area. -/
structure PagesTaken (start stop n : ℕ) (ma ma' : MapArea) (fa fa' : FrameAllocator) : Prop where
  takes : Takes start stop (ma'.dataframe.length - ma.dataframe.length) fa fa'
  allocator : ma.FromAllocator start → ma'.FromAllocator start
  mapType : ma'.mapType = ma.mapType
  framed : ma.mapType = .framed → ma'.dataframe.length = ma.dataframe.length + n

theorem maMapOne_takes {s' : Physical} (h : Managed start stop s.frames)
    (hcall : maMapOne self pt s vpn = some (self', pt', s')) :
    PagesTaken start stop 1 self self' s.frames s'.frames := by
  obtain ⟨⟨ppn, self₁, s₁⟩, hframe, hrest⟩ := Option.bind_eq_some_iff.mp hcall
  obtain ⟨⟨pt₁, s₂⟩, hmap, hmade⟩ := Option.bind_eq_some_iff.mp hrest
  obtain ⟨rfl, heq⟩ := Prod.mk.inj (Option.some.inj hmade)
  obtain ⟨rfl, rfl⟩ := Prod.mk.inj heq
  rw [maFrame] at hframe
  cases htype : self.mapType with
  | framed =>
      rw [htype] at hframe
      obtain ⟨⟨frame, frames⟩, halloc, hself⟩ := Option.map_eq_some_iff.mp hframe
      obtain ⟨-, hself⟩ := Prod.mk.inj hself
      obtain ⟨rfl, rfl⟩ := Prod.mk.inj hself
      obtain ⟨htakes, hlo⟩ := frameAlloc_takes h halloc
      have hall := htakes.trans (map_takes htakes.managed hmap)
      refine ⟨?_, fun hfrom node hnode => ?_, htype.symm, fun _ => List.length_append⟩
      · rw [List.length_append]
        exact hall.le (by simp)
      · rcases List.mem_append.mp hnode with hold | hnew
        · exact hfrom node hold
        · obtain rfl := List.mem_singleton.mp hnew
          exact hlo
  | identical =>
      rw [htype] at hframe
      obtain ⟨rfl, heq⟩ := Prod.mk.inj (Option.some.inj hframe)
      obtain ⟨rfl, rfl⟩ := Prod.mk.inj heq
      refine ⟨?_, id, rfl, fun hno => absurd hno (by rw [htype]; exact MapType.noConfusion)⟩
      rw [sub_self]
      exact map_takes h hmap
  | empty =>
      rw [htype] at hframe
      obtain ⟨rfl, heq⟩ := Prod.mk.inj (Option.some.inj hframe)
      obtain ⟨rfl, rfl⟩ := Prod.mk.inj heq
      refine ⟨?_, id, rfl, fun hno => absurd hno (by rw [htype]; exact MapType.noConfusion)⟩
      rw [sub_self]
      exact map_takes h hmap

theorem maMapLoop_takes {n : ℕ} (h : Managed start stop s.frames)
    (hcall : maMapLoop n vpn self pt s = some (self', pt', s')) :
    PagesTaken start stop n self self' s.frames s'.frames := by
  induction n generalizing vpn self pt s with
  | zero =>
      obtain ⟨rfl, heq⟩ := Prod.mk.inj (Option.some.inj hcall)
      obtain ⟨rfl, rfl⟩ := Prod.mk.inj heq
      refine ⟨?_, id, rfl, fun _ => rfl⟩
      rw [sub_self]
      exact Takes.refl h
  | succ n ih =>
      obtain ⟨⟨self₁, pt₁, s₁⟩, hone, hrest⟩ := Option.bind_eq_some_iff.mp hcall
      have hfirst := maMapOne_takes h hone
      have hlast := ih hfirst.takes.managed hrest
      refine ⟨?_, hlast.allocator ∘ hfirst.allocator, hlast.mapType.trans hfirst.mapType,
        fun hframed => ?_⟩
      · have hall := hfirst.takes.trans hlast.takes
        exact hall.le (by omega)
      · rw [hlast.framed (hfirst.mapType.trans hframed), hfirst.framed hframed]
        omega

theorem pushPage_frames {data : ℕ → Byte} (hcall : pushPage pt s vpn data = some s') :
    s'.frames = s.frames := by
  obtain ⟨ppn, -, rfl⟩ := Option.map_eq_some_iff.mp hcall
  rfl

theorem pushPages_frames {data : ℕ → Byte} {n off : ℕ}
    (hcall : pushPages pt data n vpn off s = some s') : s'.frames = s.frames := by
  induction n generalizing vpn off s with
  | zero => rw [Option.some.inj hcall]
  | succ n ih =>
      obtain ⟨s₁, hone, hrest⟩ := Option.bind_eq_some_iff.mp hcall
      rw [ih hrest, pushPage_frames hone]

theorem pushData_frames {data : Option (ℕ → Byte)} {size : ℕ}
    (hcall : pushData pt self data size s = some s') : s'.frames = s.frames := by
  cases data with
  | none => rw [Option.some.inj hcall]
  | some data =>
      rw [pushData] at hcall
      split at hcall
      · exact pushPage_frames hcall
      · exact pushPages_frames hcall

theorem copyPages_frames {src dst : PageTable} {n : ℕ} (hcall : copyPages src dst n vpn s = some s') :
    s'.frames = s.frames := by
  induction n generalizing vpn s with
  | zero => rw [Option.some.inj hcall]
  | succ n ih =>
      obtain ⟨ppn, -, hrest⟩ := Option.bind_eq_some_iff.mp hcall
      obtain ⟨s₁, hone, hrest⟩ := Option.bind_eq_some_iff.mp hrest
      rw [ih hrest, pushPage_frames hone]

variable {ms ms' : MemorySet}

/-- An area that is pushed. -/
structure Pushed (start stop : ℕ) (ms ms' : MemorySet) (ma : MapArea) (fa fa' : FrameAllocator) :
    Prop where
  areas : ∃ ma', ms'.areas = ms.areas ++ [ma'] ∧ ma'.FromAllocator start ∧
    Takes start stop ma'.dataframe.length fa fa' ∧
    (ma.mapType = .framed → ma'.dataframe.length = ma.vmEnd - ma.vmStart)
  vma : ms'.vma = ms.vma

theorem msPush_takes {ma : MapArea} {data : Option (ℕ → Byte)} {size : ℕ}
    (h : Managed start stop s.frames) (hnil : ma.dataframe = [])
    (hcall : msPush ms s ma data size = some (ms', s')) :
    Pushed start stop ms ms' ma s.frames s'.frames := by
  obtain ⟨⟨ma', pt₁, s₁⟩, hmap, hrest⟩ := Option.bind_eq_some_iff.mp hcall
  obtain ⟨s₂, hdata, hmade⟩ := Option.bind_eq_some_iff.mp hrest
  obtain ⟨rfl, rfl⟩ := Prod.mk.inj (Option.some.inj hmade)
  have hpages := maMapLoop_takes h hmap
  have htakes := hpages.takes
  have hlen := hpages.framed
  rw [hnil, List.length_nil, Nat.cast_zero, sub_zero] at htakes
  rw [hnil, List.length_nil, zero_add] at hlen
  refine ⟨⟨ma', rfl, hpages.allocator ?_, ?_, hlen⟩, rfl⟩
  · rw [MapArea.FromAllocator, hnil]
    exact fun node hnode => absurd hnode List.not_mem_nil
  · rw [pushData_frames hdata]
    exact htakes

/-- What is known of a space: the areas give frames back to the allocator that they came
from, and `sys_mmap` makes framed areas. -/
structure SpaceOk (start : ℕ) (ms : MemorySet) : Prop where
  areas : ∀ ma ∈ ms.areas, ma.FromAllocator start
  vma : ∀ t ∈ ms.vma, t.mapType = .framed

theorem Pushed.ok {ma : MapArea} {fa fa' : FrameAllocator} (h : Pushed start stop ms ms' ma fa fa')
    (hok : SpaceOk start ms) : SpaceOk start ms' ∧
      Takes start stop (dataFrames ms'.areas - dataFrames ms.areas) fa fa' := by
  obtain ⟨⟨ma', hareas, hfrom, htakes, -⟩, hvma⟩ := h
  refine ⟨⟨fun a ha => ?_, fun t ht => hok.vma t (hvma ▸ ht)⟩, ?_⟩
  · rw [hareas] at ha
    rcases List.mem_append.mp ha with hold | hnew
    · exact hok.areas a hold
    · obtain rfl := List.mem_singleton.mp hnew
      exact hfrom
  · rw [hareas, dataFrames_append]
    exact htakes.le (by simp [dataFrames])

theorem msInit_takes (h : Managed start stop s.frames) (hcall : msInit s = some (ms, s')) :
    Takes start stop 1 s.frames s'.frames ∧ SpaceOk start ms ∧ ms.areas = [] := by
  obtain ⟨⟨pt, s₁⟩, hnew, heq⟩ := Option.map_eq_some_iff.mp hcall
  obtain ⟨rfl, rfl⟩ := Prod.mk.inj heq
  exact ⟨ptNew_takes h hnew, ⟨fun ma hma => absurd hma List.not_mem_nil,
    fun t ht => absurd ht List.not_mem_nil⟩, rfl⟩

theorem fromExistedUserLoop_takes {src : PageTable} {mas : List MapArea}
    (h : Managed start stop s.frames) (hok : SpaceOk start ms)
    (hcall : fromExistedUserLoop src mas ms s = some (ms', s')) :
    SpaceOk start ms' ∧
      Takes start stop (dataFrames ms'.areas - dataFrames ms.areas) s.frames s'.frames := by
  induction mas generalizing ms s with
  | nil =>
      obtain ⟨rfl, rfl⟩ := Prod.mk.inj (Option.some.inj hcall)
      refine ⟨hok, ?_⟩
      rw [sub_self]
      exact Takes.refl h
  | cons ma mas ih =>
      obtain ⟨⟨ms₁, s₁⟩, hpush, hrest⟩ := Option.bind_eq_some_iff.mp hcall
      obtain ⟨s₂, hcopy, hrest⟩ := Option.bind_eq_some_iff.mp hrest
      obtain ⟨hok₁, htakes₁⟩ := (msPush_takes h rfl hpush).ok hok
      have hframes := copyPages_frames hcopy
      have hmanaged : Managed start stop s₂.frames := by
        rw [hframes]
        exact htakes₁.managed
      obtain ⟨hok', htakes'⟩ := ih hmanaged hok₁ hrest
      rw [hframes] at htakes'
      exact ⟨hok', (htakes₁.trans htakes').le (by omega)⟩

/-- The root of the new table is the frame that is taken beside those of the areas. -/
theorem fromExistedUser_takes {strampoline : ℕ} {a : MemorySet} (h : Managed start stop s.frames)
    (hcall : fromExistedUser strampoline a s = some (ms, s')) :
    SpaceOk start ms ∧ Takes start stop (dataFrames ms.areas + 1) s.frames s'.frames := by
  obtain ⟨⟨ms₁, s₁⟩, hinit, hrest⟩ := Option.bind_eq_some_iff.mp hcall
  obtain ⟨⟨ms₂, s₂⟩, htramp, hrest⟩ := Option.bind_eq_some_iff.mp hrest
  obtain ⟨htakes₁, hok₁, hnil⟩ := msInit_takes h hinit
  obtain ⟨⟨pt, s₃⟩, hmap, heq⟩ := Option.map_eq_some_iff.mp htramp
  obtain ⟨rfl, rfl⟩ := Prod.mk.inj heq
  have htakes₂ := map_takes htakes₁.managed hmap
  have hok₂ : SpaceOk start { ms₁ with pageTable := pt } := ⟨hok₁.areas, hok₁.vma⟩
  obtain ⟨hok, htakes₃⟩ := fromExistedUserLoop_takes htakes₂.managed hok₂ hrest
  refine ⟨hok, ((htakes₁.trans htakes₂).trans htakes₃).le ?_⟩
  rw [hnil, dataFrames, dataFrames, List.map_nil, List.sum_nil]
  omega

theorem ksNew_takes {kernelSpace kernelSpace' : MemorySet} {pid : ℕ}
    (h : Managed start stop s.frames)
    (hcall : ksNew kernelSpace s pid = some (kernelSpace', s')) :
    Takes start stop 0 s.frames s'.frames := by
  obtain ⟨⟨ma', -, -, htakes, -⟩, -⟩ := msPush_takes h rfl hcall
  exact htakes.le (Int.natCast_nonneg _)

/-- A fork takes the frames of the areas of the child, and more. -/
theorem sysFork_takes {strampoline eReturn : ℕ} {p child : TaskMemory} {sys sys' : ForkState}
    {pid : BitVec 64} (h : Managed start stop sys.phys.frames)
    (hcall : p.sysFork strampoline eReturn sys = some (pid, child, sys')) :
    SpaceOk start child.memorySet ∧
      Takes start stop (dataFrames child.memorySet.areas + 1) sys.phys.frames sys'.phys.frames := by
  obtain ⟨⟨newT, sys₁⟩, hfork, heq⟩ := Option.map_eq_some_iff.mp hcall
  obtain ⟨-, heq⟩ := Prod.mk.inj heq
  obtain ⟨rfl, rfl⟩ := Prod.mk.inj heq
  obtain ⟨⟨ms, s₁⟩, hcopy, hrest⟩ := Option.bind_eq_some_iff.mp hfork
  obtain ⟨ppn, -, hrest⟩ := Option.bind_eq_some_iff.mp hrest
  obtain ⟨⟨kernelSpace, s₂⟩, hstack, hrest⟩ := Option.bind_eq_some_iff.mp hrest
  obtain ⟨s₃, hcontext, hmade⟩ := Option.bind_eq_some_iff.mp hrest
  obtain ⟨rfl, rfl⟩ := Prod.mk.inj (Option.some.inj hmade)
  obtain ⟨q, -, rfl⟩ := Option.map_eq_some_iff.mp hcontext
  obtain ⟨hok, htakes⟩ := fromExistedUser_takes h hcopy
  exact ⟨hok, (htakes.trans (ksNew_takes htakes.managed hstack)).le (add_zero _).ge⟩

theorem vpmapRemove_spec {ppn : ℕ} (hfrom : self.FromAllocator start)
    (hcall : self.vpmapRemove vpn = some (ppn, self')) :
    start ≤ ppn ∧ self'.FromAllocator start ∧ self'.mapType = self.mapType ∧
      self'.dataframe.length + 1 = self.dataframe.length := by
  obtain ⟨node, hfind, heq⟩ := Option.map_eq_some_iff.mp hcall
  obtain ⟨rfl, rfl⟩ := Prod.mk.inj heq
  have hmem := List.mem_of_find?_eq_some hfind
  have hpred := List.find?_some hfind
  refine ⟨hfrom node hmem, fun a ha => hfrom a (List.mem_of_mem_eraseP ha), rfl, ?_⟩
  have hlen := List.length_eraseP_of_mem (p := fun node => node.1 == vpn) hmem hpred
  have hpos := List.length_pos_of_mem hmem
  dsimp only at hlen ⊢
  omega

theorem dropFrame_takes (h : Managed start stop s.frames) (hfrom : self.FromAllocator start)
    (hcall : self.dropFrame s vpn = some (self', s')) :
    self'.FromAllocator start ∧
      Takes start stop (self'.dataframe.length - self.dataframe.length) s.frames s'.frames := by
  rw [MapArea.dropFrame] at hcall
  split at hcall
  · obtain ⟨⟨ppn, self₁⟩, hremove, hrest⟩ := Option.bind_eq_some_iff.mp hcall
    obtain ⟨frames, hdealloc, hmade⟩ := Option.bind_eq_some_iff.mp hrest
    obtain ⟨rfl, rfl⟩ := Prod.mk.inj (Option.some.inj hmade)
    obtain ⟨hlo, hfrom', -, hlen⟩ := vpmapRemove_spec hfrom hremove
    exact ⟨hfrom', (frameDealloc_takes h hlo hdealloc).le (by omega)⟩
  · obtain ⟨rfl, rfl⟩ := Prod.mk.inj (Option.some.inj hcall)
    refine ⟨hfrom, ?_⟩
    rw [sub_self]
    exact Takes.refl h

theorem maUnmapLoop_takes {n : ℕ} (h : Managed start stop s.frames)
    (hfrom : self.FromAllocator start)
    (hcall : MapArea.maUnmapLoop n vpn self pt s = some (self', pt', s')) :
    Takes start stop (self'.dataframe.length - self.dataframe.length) s.frames s'.frames := by
  induction n generalizing vpn self pt s with
  | zero =>
      obtain ⟨rfl, heq⟩ := Prod.mk.inj (Option.some.inj hcall)
      obtain ⟨rfl, rfl⟩ := Prod.mk.inj heq
      rw [sub_self]
      exact Takes.refl h
  | succ n ih =>
      obtain ⟨⟨self₁, pt₁, s₁⟩, hone, hrest⟩ := Option.bind_eq_some_iff.mp hcall
      obtain ⟨⟨self₂, s₂⟩, hdrop, hone⟩ := Option.bind_eq_some_iff.mp hone
      obtain ⟨⟨pt₂, s₃⟩, hunmap, hmade⟩ := Option.bind_eq_some_iff.mp hone
      obtain ⟨rfl, heq⟩ := Prod.mk.inj (Option.some.inj hmade)
      obtain ⟨rfl, rfl⟩ := Prod.mk.inj heq
      obtain ⟨hfrom₁, htakes₁⟩ := dropFrame_takes h hfrom hdrop
      have htakes₂ := unmap_takes htakes₁.managed hunmap
      have htakes₃ := ih htakes₂.managed hfrom₁ hrest
      exact ((htakes₁.trans htakes₂).trans htakes₃).le (by omega)

/-- No more frames are given back than are in the lists. -/
theorem msMaFreeLoop_takes {areas : List MapArea} (h : Managed start stop s.frames)
    (hfrom : ∀ ma ∈ areas, ma.FromAllocator start)
    (hcall : MemorySet.msMaFreeLoop areas pt s = some (pt', s')) :
    Takes start stop (-dataFrames areas) s.frames s'.frames := by
  induction areas generalizing pt s with
  | nil =>
      obtain ⟨rfl, rfl⟩ := Prod.mk.inj (Option.some.inj hcall)
      exact Takes.refl h
  | cons ma areas ih =>
      obtain ⟨⟨ma', pt₁, s₁⟩, hunmap, hrest⟩ := Option.bind_eq_some_iff.mp hcall
      have htakes₁ := maUnmapLoop_takes h (hfrom ma List.mem_cons_self) hunmap
      have htakes₂ := ih htakes₁.managed (fun a ha => hfrom a (List.mem_cons_of_mem ma ha)) hrest
      refine (htakes₁.trans htakes₂).le ?_
      rw [dataFrames, List.map_cons, List.sum_cons, ← dataFrames]
      omega

/-- A call that changes one space. It is quiet if it takes no frame. -/
structure SpaceCall (start stop : ℕ) (quiet : Prop) (ms ms' : MemorySet)
    (fa fa' : FrameAllocator) : Prop where
  ok : SpaceOk start ms'
  takes : Takes start stop (dataFrames ms'.areas - dataFrames ms.areas) fa fa'
  grows : dataFrames ms.areas ≤ dataFrames ms'.areas
  idle : quiet → fa' = fa
  busy : ¬ quiet → outCount fa < outCount fa'

theorem SpaceCall.of_eq {quiet : Prop} {fa : FrameAllocator} (h : Managed start stop fa)
    (hok : SpaceOk start ms') (hareas : ms'.areas = ms.areas) (hquiet : quiet) :
    SpaceCall start stop quiet ms ms' fa fa := by
  refine ⟨hok, ?_, (congrArg dataFrames hareas).ge, fun _ => rfl, fun hno => absurd hquiet hno⟩
  rw [hareas, sub_self]
  exact Takes.refl h

/-- A call of `brk` adds no page to the space. -/
def TaskMemory.BrkQuiet (p : TaskMemory) (n : ℕ) : Prop :=
  n = 0 ∨ vaCeil p.baseSize = vaCeil ((p.baseSize + n) % 2 ^ 64) ∨
    vaCeil ((p.baseSize + n) % 2 ^ 64) ≤ vaFloor p.baseSize

/-- A call of `sys_brk` that takes no frame. -/
def TaskMemory.SysBrkQuiet (p : TaskMemory) (addr : ℕ) : Prop :=
  addr = 0 ∨ p.BrkQuiet ((addr + 2 ^ 64 - p.baseSize) % 2 ^ 64)

theorem msPush_none_of_le {ma : MapArea} (hle : ma.vmEnd ≤ ma.vmStart)
    (hcall : msPush ms s ma none 0 = some (ms', s')) : s' = s := by
  obtain ⟨⟨ma', pt₁, s₁⟩, hmap, hrest⟩ := Option.bind_eq_some_iff.mp hcall
  rw [maMap, Nat.sub_eq_zero_of_le hle] at hmap
  obtain ⟨-, heq⟩ := Prod.mk.inj (Option.some.inj hmap)
  obtain ⟨-, rfl⟩ := Prod.mk.inj heq
  exact (Prod.mk.inj (Option.some.inj hrest)).2.symm

theorem brk_takes {p p' : TaskMemory} {n : ℕ} (h : Managed start stop s.frames)
    (hok : SpaceOk start p.memorySet) (hcall : p.brk s n = some (p', s')) :
    SpaceCall start stop (p.BrkQuiet n) p.memorySet p'.memorySet s.frames s'.frames := by
  rw [TaskMemory.brk] at hcall
  dsimp only at hcall
  split at hcall
  case isFalse hzero =>
    obtain ⟨rfl, rfl⟩ := Prod.mk.inj (Option.some.inj hcall)
    exact SpaceCall.of_eq h hok rfl (Or.inl (Nat.eq_zero_of_not_pos hzero))
  case isTrue hpos =>
    split at hcall
    case isTrue hceil =>
      obtain ⟨rfl, rfl⟩ := Prod.mk.inj (Option.some.inj hcall)
      exact SpaceCall.of_eq h hok rfl (Or.inr (Or.inl hceil))
    case isFalse hceil =>
      obtain ⟨⟨ms₁, s₁⟩, hpush, heq⟩ := Option.map_eq_some_iff.mp hcall
      obtain ⟨rfl, rfl⟩ := Prod.mk.inj heq
      have hpushed := msPush_takes h rfl hpush
      obtain ⟨hok', htakes⟩ := hpushed.ok hok
      obtain ⟨⟨ma', hareas, -, hone, hlen⟩, -⟩ := hpushed
      have hlen : ma'.dataframe.length =
          vaCeil ((p.baseSize + n) % 2 ^ 64) - vaFloor p.baseSize := hlen rfl
      have hout := hone.out
      refine ⟨hok', htakes, ?_, fun hquiet => ?_, fun hbusy => ?_⟩
      · rw [hareas, dataFrames_append]
        simp [dataFrames]
      · rcases hquiet with rfl | hsame | hle
        · exact absurd hpos (lt_irrefl 0)
        · exact absurd hsame hceil
        · rw [msPush_none_of_le hle hpush]
      · rw [TaskMemory.BrkQuiet, not_or, not_or, not_le] at hbusy
        dsimp only at hout ⊢
        omega

theorem mmapPage_takes {fat : Fat32} {file : Fin nfile → File} {t t' : MmapArea}
    {fs fs' : FileSystem} {va : ℕ} (h : Managed start stop s.frames) (hframed : t.mapType = .framed)
    (hcall : mmapPage fat file t pt s fs va = some (t', pt', s', fs')) :
    t'.mapType = .framed ∧ Takes start stop 1 s.frames s'.frames := by
  obtain ⟨⟨ma, pt₁, s₁⟩, hone, hrest⟩ := Option.bind_eq_some_iff.mp hcall
  obtain ⟨ppn, -, hrest⟩ := Option.bind_eq_some_iff.mp hrest
  obtain ⟨⟨bytes, fs₁⟩, -, hmade⟩ := Option.bind_eq_some_iff.mp hrest
  obtain ⟨rfl, heq⟩ := Prod.mk.inj (Option.some.inj hmade)
  obtain ⟨-, heq⟩ := Prod.mk.inj heq
  obtain ⟨rfl, -⟩ := Prod.mk.inj heq
  have hpage := maMapOne_takes h hone
  have hlen := hpage.framed hframed
  exact ⟨hpage.mapType.trans hframed, hpage.takes.le (by omega)⟩

/-- The handler serves no page. -/
def MemorySet.PageInQuiet (ms : MemorySet) (va scause : ℕ) : Prop :=
  ∀ t, ms.vma.find? (fun t => t.contains va) = some t → t.refuses scause ≠ none

theorem mmapHandler_takes {fat : Fat32} {file : Fin nfile → File} {fs fs' : FileSystem}
    {va scause : ℕ} {ret : ℤ} (h : Managed start stop s.frames) (hok : SpaceOk start ms)
    (hcall : mmapHandler fat file ms s fs va scause = some (ret, ms', s', fs')) :
    SpaceCall start stop (ms.PageInQuiet va scause) ms ms' s.frames s'.frames := by
  cases hfind : ms.vma.find? (fun t => t.contains va) with
  | none =>
      rw [mmapHandler_of_find_none hfind] at hcall
      simp only [Option.some.injEq, Prod.mk.injEq] at hcall
      obtain ⟨-, rfl, rfl, -⟩ := hcall
      refine SpaceCall.of_eq h hok rfl fun t ht => ?_
      exact absurd (hfind.symm.trans ht) (Option.some_ne_none _).symm
  | some u =>
      obtain ⟨before, after, hvma, hrun⟩ : ∃ before after, ms.vma = before ++ u :: after ∧
          mmapHandler fat file ms s fs va scause = _ := mmapHandler_of_find hfind
      rw [hrun] at hcall
      have hmem : u ∈ ms.vma := List.mem_of_find?_eq_some hfind
      cases hrefuses : u.refuses scause with
      | some code =>
          simp only [hrefuses, Option.some.injEq, Prod.mk.injEq] at hcall
          obtain ⟨-, rfl, rfl, -⟩ := hcall
          refine SpaceCall.of_eq h hok rfl fun t ht => ?_
          obtain rfl := Option.some.inj (hfind.symm.trans ht)
          rw [hrefuses]
          exact Option.some_ne_none code
      | none =>
          rw [hrefuses] at hcall
          obtain ⟨⟨u', pt₁, s₁, fs₁⟩, hpage, hmade⟩ := Option.map_eq_some_iff.mp hcall
          simp only [Prod.mk.injEq] at hmade
          obtain ⟨-, rfl, rfl, -⟩ := hmade
          obtain ⟨hframed, htakes⟩ := mmapPage_takes h (hok.vma u hmem) hpage
          have hout := htakes.out
          refine ⟨⟨hok.areas, fun t ht => ?_⟩, ?_, le_refl _, fun hquiet => ?_, fun _ => by omega⟩
          · rcases List.mem_append.mp ht with hold | hnew
            · exact hok.vma t (hvma ▸ List.mem_append_left _ hold)
            · rcases List.mem_cons.mp hnew with rfl | hold
              · exact hframed
              · exact hok.vma t (hvma ▸ List.mem_append_right _ (List.mem_cons_of_mem u hold))
          · rw [sub_self]
            exact htakes.le (by omega)
          · exact absurd hrefuses (hquiet u hfind)

theorem sysBrk_takes {p p' : TaskMemory} {addr ret : ℕ} (h : Managed start stop s.frames)
    (hok : SpaceOk start p.memorySet) (hcall : p.sysBrk s addr = some (ret, p', s')) :
    SpaceCall start stop (p.SysBrkQuiet addr) p.memorySet p'.memorySet s.frames s'.frames := by
  rw [TaskMemory.sysBrk] at hcall
  split at hcall
  case isTrue hzero =>
    simp only [Option.some.injEq, Prod.mk.injEq] at hcall
    obtain ⟨-, rfl, rfl⟩ := hcall
    exact SpaceCall.of_eq h hok rfl (Or.inl hzero)
  case isFalse hne =>
    obtain ⟨⟨p₁, s₁⟩, hbrk, heq⟩ := Option.map_eq_some_iff.mp hcall
    simp only [Prod.mk.injEq] at heq
    obtain ⟨-, rfl, rfl⟩ := heq
    have htakes := brk_takes h hok hbrk
    refine ⟨htakes.ok, htakes.takes, htakes.grows, fun hquiet => ?_, fun hbusy => ?_⟩
    · exact htakes.idle (hquiet.resolve_left hne)
    · exact htakes.busy fun hno => hbusy (Or.inr hno)

theorem sysMmap_space {gr : Reg → Word} {t t' : MmapTask} {ret : ℕ}
    (hok : SpaceOk start t.memorySet) (hcall : t.sysMmap gr = some (ret, t')) :
    SpaceOk start t'.memorySet ∧ t'.memorySet.areas = t.memorySet.areas := by
  rcases sysMmap_appends hcall with rfl | ⟨f, rfl⟩
  · exact ⟨hok, rfl⟩
  · refine ⟨⟨hok.areas, fun u hu => ?_⟩, rfl⟩
    rcases List.mem_append.mp hu with hold | hnew
    · exact hok.vma u hold
    · obtain rfl := List.mem_singleton.mp hnew
      rfl

theorem fromElfLoop_ok {image : ℕ → Byte} {phs : List Proghdr} {maxEndVpn maxEndVpn' : ℕ}
    (h : Managed start stop s.frames) (hok : SpaceOk start ms)
    (hcall : fromElfLoop image phs maxEndVpn ms s = some (maxEndVpn', ms', s')) :
    SpaceOk start ms' ∧ Managed start stop s'.frames := by
  induction phs generalizing maxEndVpn ms s with
  | nil =>
      simp only [fromElfLoop, Option.some.injEq, Prod.mk.injEq] at hcall
      obtain ⟨-, rfl, rfl⟩ := hcall
      exact ⟨hok, h⟩
  | cons ph phs ih =>
      rw [fromElfLoop] at hcall
      split at hcall
      · split at hcall
        · exact absurd hcall.symm (Option.some_ne_none _)
        · obtain ⟨⟨ms₁, s₁⟩, hpush, hrest⟩ := Option.bind_eq_some_iff.mp hcall
          obtain ⟨hok₁, htakes⟩ := (msPush_takes h rfl hpush).ok hok
          exact ih htakes.managed hok₁ hrest
      · exact ih h hok hcall

theorem fromElf_ok {image : ℕ → Byte} {strampoline usp entry : ℕ} (h : Managed start stop s.frames)
    (hcall : fromElf strampoline image s = some (ms, usp, entry, s')) :
    SpaceOk start ms ∧ Managed start stop s'.frames := by
  obtain ⟨⟨ms₁, s₁⟩, hinit, hrest⟩ := Option.bind_eq_some_iff.mp hcall
  obtain ⟨⟨ms₂, s₂⟩, htramp, hrest⟩ := Option.bind_eq_some_iff.mp hrest
  obtain ⟨⟨maxEndVpn, ms₃, s₃⟩, hloop, hrest⟩ := Option.bind_eq_some_iff.mp hrest
  obtain ⟨⟨ms₄, s₄⟩, hstack, hrest⟩ := Option.bind_eq_some_iff.mp hrest
  obtain ⟨⟨ms₅, s₅⟩, htrap, hmade⟩ := Option.bind_eq_some_iff.mp hrest
  simp only [Option.pure_def, Option.some.injEq, Prod.mk.injEq] at hmade
  obtain ⟨rfl, -, -, rfl⟩ := hmade
  obtain ⟨htakes₁, hok₁, -⟩ := msInit_takes h hinit
  obtain ⟨⟨pt, s₆⟩, hmap, heq⟩ := Option.map_eq_some_iff.mp htramp
  obtain ⟨rfl, rfl⟩ := Prod.mk.inj heq
  have hok₂ : SpaceOk start { ms₁ with pageTable := pt } := ⟨hok₁.areas, hok₁.vma⟩
  obtain ⟨hok₃, h₃⟩ := fromElfLoop_ok (map_takes htakes₁.managed hmap).managed hok₂ hloop
  obtain ⟨hok₄, htakes₄⟩ := (msPush_takes h₃ rfl hstack).ok hok₃
  obtain ⟨hok₅, htakes₅⟩ := (msPush_takes htakes₄.managed rfl htrap).ok hok₄
  exact ⟨hok₅, htakes₅.managed⟩

theorem tcbNew_ok {sym : KernelSymbols} {sstatus : Word} {image : ℕ → Byte} {p : TaskMemory}
    {sys sys' : ForkState} (h : Managed start stop sys.phys.frames)
    (hcall : TaskMemory.tcbNew sym sstatus image sys = some (p, sys')) :
    SpaceOk start p.memorySet ∧ Managed start stop sys'.phys.frames := by
  obtain ⟨⟨ms, usp, entry, s₁⟩, hload, hrest⟩ := Option.bind_eq_some_iff.mp hcall
  obtain ⟨ppn, -, hrest⟩ := Option.bind_eq_some_iff.mp hrest
  obtain ⟨⟨kernelSpace, s₂⟩, hstack, hrest⟩ := Option.bind_eq_some_iff.mp hrest
  obtain ⟨s₃, hcontext, hmade⟩ := Option.bind_eq_some_iff.mp hrest
  obtain ⟨rfl, rfl⟩ := Prod.mk.inj (Option.some.inj hmade)
  obtain ⟨q, -, rfl⟩ := Option.map_eq_some_iff.mp hcontext
  obtain ⟨hok, h₁⟩ := fromElf_ok h hload
  exact ⟨hok, (ksNew_takes h₁ hstack).managed⟩

end Calls

/-! ## Runs -/

namespace TaskSpaces

section Runs

variable {ι : Type} [DecidableEq ι] {start stop : ℕ} {sym : KernelSymbols} {initproc : ι}
  {st st' st'' : TaskSpaces ι} {op : SpaceOp ι} {ops : List (SpaceOp ι)}

/-- The step takes no frame and gives none back. -/
def Quiet (st : TaskSpaces ι) : SpaceOp ι → Prop
  | .fork .. => False
  | .brk p addr => (st.memory p).SysBrkQuiet addr
  | .pageIn p _ _ _ va scause => (st.space p).PageInQuiet va scause
  | .exit _ => False
  | .mmap .. | .waitpid .. | .store _ => True

structure Ok (start stop : ℕ) (st : TaskSpaces ι) : Prop where
  managed : Managed start stop st.phys.frames
  spaces : ∀ p ∈ st.running, SpaceOk start (st.space p)
  known : st.running ⊆ st.known

/-- The task `p` alone. -/
def alone (p : ι) (task : TaskMemory) (sys : ForkState) : TaskSpaces ι where
  memory := fun _ => task
  parent := fun _ => none
  running := {p}
  zombie := ∅
  known := {p}
  sys

omit [DecidableEq ι] in
theorem ok_alone {sstatus : Word} {image : ℕ → Byte} {task : TaskMemory} {sys sys' : ForkState}
    (h : Managed start stop sys.phys.frames)
    (hnew : TaskMemory.tcbNew sym sstatus image sys = some (task, sys')) (p : ι) :
    Ok start stop (alone p task sys') := by
  obtain ⟨hok, h'⟩ := tcbNew_ok h hnew
  exact ⟨h', fun _ _ => hok, subset_refl _⟩

/-- The tasks but `p` are left alone. -/
def Others (p : ι) (st st' : TaskSpaces ι) : Prop := ∀ q, q ≠ p → st'.space q = st.space q

/-- What a step does. -/
inductive Moved (start stop : ℕ) (quiet : Prop) (st st' : TaskSpaces ι) : Prop
  | fork (c : ι) (hnew : c ∉ st.known) (hrunning : st'.running = insert c st.running)
      (hknown : st'.known = insert c st.known) (hothers : Others c st st')
      (hok : SpaceOk start (st'.space c))
      (htakes : Takes start stop (dataFrames (st'.space c).areas + 1) st.phys.frames
        st'.phys.frames) (hbusy : ¬ quiet)
  | call (p : ι) (hmem : p ∈ st.running) (hrunning : st'.running = st.running)
      (hknown : st'.known = st.known) (hothers : Others p st st')
      (hcall : SpaceCall start stop quiet (st.space p) (st'.space p) st.phys.frames st'.phys.frames)
  | exit (p : ι) (hmem : p ∈ st.running) (hrunning : st'.running = st.running.erase p)
      (hknown : st'.known = st.known) (hothers : Others p st st')
      (htakes : Takes start stop (-dataFrames (st.space p).areas) st.phys.frames st'.phys.frames)
      (hbusy : ¬ quiet)
  | idle (hrunning : st'.running = st.running) (hknown : st'.known = st.known)
      (hspaces : ∀ q, st'.space q = st.space q) (hframes : st'.phys.frames = st.phys.frames)
      (hquiet : quiet)

@[simp] theorem setTask_space_self (st : TaskSpaces ι) (p : ι) (task : TaskMemory)
    (phys : Physical) : (st.setTask p task phys).space p = task.memorySet := by
  show (Function.update st.memory p task p).memorySet = task.memorySet
  rw [Function.update_self]

@[simp] theorem setSpace_space_self (st : TaskSpaces ι) (p : ι) (ms : MemorySet)
    (phys : Physical) : (st.setSpace p ms phys).space p = ms := by
  rw [setSpace, setTask_space_self]

theorem update_others (st : TaskSpaces ι) (p : ι) (task : TaskMemory) {q : ι} (hne : q ≠ p) :
    (Function.update st.memory p task q).memorySet = st.space q := by
  rw [Function.update_of_ne hne]
  rfl

theorem Ok.moved (h : Ok start stop st) (hstep : SpaceStep sym initproc st op st') :
    Moved start stop (st.Quiet op) st st' := by
  obtain ⟨hp, hcall⟩ := hstep
  cases op with
  | fork p c =>
      obtain ⟨⟨pid, child, sys⟩, hfork, rfl⟩ := Option.map_eq_some_iff.mp hcall
      obtain ⟨hok, htakes⟩ := sysFork_takes h.managed hfork
      have hself : (Function.update st.memory c child c).memorySet = child.memorySet :=
        congrArg TaskMemory.memorySet (Function.update_self c child st.memory)
      rw [← hself] at hok htakes
      exact .fork c hp.2 rfl rfl (fun q => update_others st c child) hok htakes id
  | brk p addr =>
      obtain ⟨⟨ret, task, phys⟩, hbrk, rfl⟩ := Option.map_eq_some_iff.mp hcall
      have htakes := sysBrk_takes h.managed (h.spaces p hp) hbrk
      refine .call p hp rfl rfl (fun q => update_others st p task) ?_
      dsimp only
      rw [setTask_space_self]
      exact htakes
  | mmap p gr ofile file off =>
      obtain ⟨⟨ret, t⟩, hmmap, rfl⟩ := Option.map_eq_some_iff.mp hcall
      obtain ⟨hok, hareas⟩ := sysMmap_space (h.spaces p hp) hmmap
      refine .call p hp rfl rfl (fun q => update_others st p _) ?_
      dsimp only
      rw [setSpace_space_self]
      exact SpaceCall.of_eq h.managed hok hareas trivial
  | pageIn p fat file fs va scause =>
      obtain ⟨⟨ret, ms, phys, fs'⟩, hpage, rfl⟩ := Option.map_eq_some_iff.mp hcall
      have htakes := mmapHandler_takes h.managed (h.spaces p hp) hpage
      refine .call p hp rfl rfl (fun q => update_others st p _) ?_
      dsimp only
      rw [setSpace_space_self]
      exact htakes
  | exit p =>
      rw [spaceStep, TaskSpaces.exit] at hcall
      split at hcall
      · exact absurd hcall.symm (Option.some_ne_none _)
      · obtain ⟨⟨ms, phys⟩, hfree, rfl⟩ := Option.map_eq_some_iff.mp hcall
        obtain ⟨⟨pt, s⟩, hloop, heq⟩ := Option.map_eq_some_iff.mp hfree
        obtain ⟨rfl, rfl⟩ := Prod.mk.inj heq
        have htakes := msMaFreeLoop_takes h.managed (h.spaces p hp).areas hloop
        exact .exit p hp rfl rfl (fun q => update_others st p _) htakes id
  | waitpid p c =>
      obtain rfl := Option.some.inj hcall
      exact .idle rfl rfl (fun q => rfl) rfl trivial
  | store mem =>
      obtain rfl := Option.some.inj hcall
      exact .idle rfl rfl (fun q => rfl) rfl trivial

theorem Ok.step (h : Ok start stop st) (hstep : SpaceStep sym initproc st op st') :
    Ok start stop st' := by
  cases h.moved hstep with
  | fork c hnew hrunning hknown hothers hok htakes hbusy =>
      refine ⟨htakes.managed, fun q hq => ?_, ?_⟩
      · rcases eq_or_ne q c with rfl | hne
        · exact hok
        · rw [hrunning] at hq
          rw [hothers q hne]
          exact h.spaces q (Finset.mem_of_mem_insert_of_ne hq hne)
      · rw [hrunning, hknown]
        exact Finset.insert_subset_insert c h.known
  | call p hmem hrunning hknown hothers hcall =>
      refine ⟨hcall.takes.managed, fun q hq => ?_, ?_⟩
      · rcases eq_or_ne q p with rfl | hne
        · exact hcall.ok
        · rw [hothers q hne]
          exact h.spaces q (hrunning ▸ hq)
      · rw [hrunning, hknown]
        exact h.known
  | exit p hmem hrunning hknown hothers htakes hbusy =>
      refine ⟨htakes.managed, fun q hq => ?_, ?_⟩
      · rw [hrunning] at hq
        obtain ⟨hne, hq⟩ := Finset.mem_erase.mp hq
        rw [hothers q hne]
        exact h.spaces q hq
      · rw [hrunning, hknown]
        exact (Finset.erase_subset p _).trans h.known
  | idle hrunning hknown hspaces hframes hquiet =>
      refine ⟨?_, fun q hq => ?_, ?_⟩
      · rw [hframes]
        exact h.managed
      · rw [hspaces q]
        exact h.spaces q (hrunning ▸ hq)
      · rw [hrunning, hknown]
        exact h.known

/-- The frames in the lists of the tasks that run. -/
def heldFrames (st : TaskSpaces ι) : ℤ := ∑ p ∈ st.running, dataFrames (st.space p).areas

/-- The frames that are out and in no list of a task that runs, less one for every task
there has been. -/
def lost (st : TaskSpaces ι) : ℤ :=
  outCount st.phys.frames - st.heldFrames - st.known.card

theorem heldFrames_update {p : ι} (hp : p ∈ st.running) (hrunning : st'.running = st.running)
    (hothers : Others p st st') : st'.heldFrames =
      st.heldFrames + (dataFrames (st'.space p).areas - dataFrames (st.space p).areas) := by
  rw [heldFrames, heldFrames, hrunning, ← Finset.add_sum_erase _ _ hp, ← Finset.add_sum_erase _ _ hp]
  have hrest : ∑ q ∈ st.running.erase p, dataFrames (st'.space q).areas =
      ∑ q ∈ st.running.erase p, dataFrames (st.space q).areas :=
    Finset.sum_congr rfl fun q hq => by rw [hothers q (Finset.ne_of_mem_erase hq)]
  rw [hrest]
  omega

theorem heldFrames_insert {c : ι} (hc : c ∉ st.running) (hrunning : st'.running = insert c st.running)
    (hothers : Others c st st') :
    st'.heldFrames = st.heldFrames + dataFrames (st'.space c).areas := by
  rw [heldFrames, heldFrames, hrunning, Finset.sum_insert hc, add_comm]
  congr 1
  refine Finset.sum_congr rfl fun q hq => ?_
  rw [hothers q (ne_of_mem_of_not_mem hq hc)]

theorem heldFrames_erase {p : ι} (hp : p ∈ st.running) (hrunning : st'.running = st.running.erase p)
    (hothers : Others p st st') :
    st'.heldFrames = st.heldFrames - dataFrames (st.space p).areas := by
  rw [heldFrames, heldFrames, hrunning, ← Finset.add_sum_erase _ _ hp, add_sub_cancel_left]
  exact Finset.sum_congr rfl fun q hq => by rw [hothers q (Finset.ne_of_mem_erase hq)]

/-- The tasks of a later state. -/
structure Follows (st st' : TaskSpaces ι) : Prop where
  known : st.known ⊆ st'.known
  stays : ∀ p ∈ st'.running, p ∈ st.known → p ∈ st.running
  grows : ∀ p ∈ st.running, p ∈ st'.running →
    dataFrames (st.space p).areas ≤ dataFrames (st'.space p).areas
  lost : st.lost ≤ st'.lost

omit [DecidableEq ι] in
theorem Follows.refl (st : TaskSpaces ι) : Follows st st :=
  ⟨subset_refl _, fun _ hp _ => hp, fun _ _ _ => le_refl _, le_refl _⟩

omit [DecidableEq ι] in
theorem Follows.trans (h : Follows st st') (h' : Follows st' st'') (hknown : st.running ⊆ st.known) :
    Follows st st'' where
  known := h.known.trans h'.known
  stays p hp hin := h.stays p (h'.stays p hp (h.known hin)) hin
  grows p hp hp' :=
    have hmid : p ∈ st'.running := h'.stays p hp' (h.known (hknown hp))
    (h.grows p hp hmid).trans (h'.grows p hmid hp')
  lost := h.lost.trans h'.lost

theorem Ok.follows (h : Ok start stop st) (hstep : SpaceStep sym initproc st op st') :
    Follows st st' := by
  cases h.moved hstep with
  | fork c hnew hrunning hknown hothers hok htakes hbusy =>
      have hheld := heldFrames_insert (fun hin => hnew (h.known hin)) hrunning hothers
      have hout := htakes.out
      refine ⟨?_, fun q hq hin => ?_, fun q hq _ => ?_, ?_⟩
      · rw [hknown]
        exact Finset.subset_insert c st.known
      · rw [hrunning] at hq
        exact Finset.mem_of_mem_insert_of_ne hq (ne_of_mem_of_not_mem hin hnew)
      · rw [hothers q (ne_of_mem_of_not_mem (h.known hq) hnew)]
      · rw [TaskSpaces.lost, TaskSpaces.lost, hheld, hknown, Finset.card_insert_of_notMem hnew]
        omega
  | call p hmem hrunning hknown hothers hcall =>
      have hheld := heldFrames_update hmem hrunning hothers
      have hout := hcall.takes.out
      refine ⟨hknown.ge, fun q hq _ => hrunning ▸ hq, fun q hq _ => ?_, ?_⟩
      · rcases eq_or_ne q p with rfl | hne
        · exact hcall.grows
        · rw [hothers q hne]
      · rw [TaskSpaces.lost, TaskSpaces.lost, hheld, hknown]
        omega
  | exit p hmem hrunning hknown hothers htakes hbusy =>
      have hheld := heldFrames_erase hmem hrunning hothers
      have hout := htakes.out
      refine ⟨hknown.ge, fun q hq _ => ?_, fun q hq hq' => ?_, ?_⟩
      · exact Finset.mem_of_mem_erase (hrunning ▸ hq)
      · rw [hothers q (Finset.ne_of_mem_erase (hrunning ▸ hq'))]
      · rw [TaskSpaces.lost, TaskSpaces.lost, hheld, hknown]
        omega
  | idle hrunning hknown hspaces hframes hquiet =>
      refine ⟨hknown.ge, fun q hq _ => hrunning ▸ hq, fun q _ _ => by rw [hspaces q], ?_⟩
      rw [TaskSpaces.lost, TaskSpaces.lost, heldFrames, heldFrames, hrunning, hknown, hframes]
      simp only [hspaces, le_refl]

theorem Ok.run (h : Ok start stop st) (hrun : Run (SpaceStep sym initproc) st ops st') :
    Ok start stop st' ∧ Follows st st' := by
  induction hrun with
  | done st => exact ⟨h, Follows.refl st⟩
  | step hstep hrest ih =>
      obtain ⟨hok, hfollows⟩ := ih (h.step hstep)
      exact ⟨hok, (h.follows hstep).trans hfollows h.known⟩

/-- A task that is forked costs a frame for good, if no task that ran before has gone. -/
theorem Ok.outCount_lt_of_fork (h : Ok start stop st)
    (hrun : Run (SpaceStep sym initproc) st ops st') (hstay : st.running ⊆ st'.running)
    (hforked : st.known ≠ st'.known) (hreaped : st'.running ⊆ st.running) :
    outCount st.phys.frames < outCount st'.phys.frames := by
  obtain ⟨-, hfollows⟩ := h.run hrun
  have hrunning : st'.running = st.running := hreaped.antisymm hstay
  have hcard := Finset.card_lt_card (hfollows.known.ssubset_of_ne hforked)
  have hheld : st.heldFrames ≤ st'.heldFrames := by
    rw [heldFrames, heldFrames, hrunning]
    exact Finset.sum_le_sum fun p hp => hfollows.grows p hp (hstay hp)
  have hlost := hfollows.lost
  rw [lost, lost] at hlost
  omega

/-- A step that takes no frame leaves the free frames and the tasks that run alone. -/
theorem Ok.quiet_frames (h : Ok start stop st) (hstep : SpaceStep sym initproc st op st')
    (hquiet : st.Quiet op) : st'.phys.frames = st.phys.frames := by
  cases h.moved hstep with
  | fork c hnew hrunning hknown hothers hok htakes hbusy => exact absurd hquiet hbusy
  | call p hmem hrunning hknown hothers hcall => exact hcall.idle hquiet
  | exit p hmem hrunning hknown hothers htakes hbusy => exact absurd hquiet hbusy
  | idle hrunning hknown hspaces hframes hquiet => exact hframes

/-- Without a fork a step that is not quiet takes a frame, unless a task exits. -/
theorem Ok.busy_step (h : Ok start stop st) (hstep : SpaceStep sym initproc st op st')
    (hknown : st.known = st'.known) (hbusy : ¬ st.Quiet op) :
    st'.running ⊂ st.running ∨
      st'.running = st.running ∧ outCount st.phys.frames < outCount st'.phys.frames := by
  cases h.moved hstep with
  | fork c hnew hrunning hknown' hothers hok htakes hbusy =>
      exact absurd (hknown'.symm.trans hknown.symm) (Finset.insert_ne_self.mpr hnew)
  | call p hmem hrunning hknown hothers hcall => exact Or.inr ⟨hrunning, hcall.busy hbusy⟩
  | exit p hmem hrunning hknown hothers htakes hbusy =>
      exact Or.inl (hrunning ▸ Finset.erase_ssubset hmem)
  | idle hrunning hknown hspaces hframes hquiet => exact absurd hquiet hbusy

/-- A step of a run that takes no frame. -/
def QuietStep (sym : KernelSymbols) (initproc : ι) (st : TaskSpaces ι) (op : SpaceOp ι)
    (st' : TaskSpaces ι) : Prop :=
  SpaceStep sym initproc st op st' ∧ st.Quiet op

theorem Ok.quiet_run (h : Ok start stop st) (hrun : Run (QuietStep sym initproc) st ops st') :
    st'.phys.frames = st.phys.frames := by
  induction hrun with
  | done st => rfl
  | step hstep hrest ih => exact (ih (h.step hstep.1)).trans (h.quiet_frames hstep.1 hstep.2)

theorem Ok.quiet_or_lt (h : Ok start stop st) (hrun : Run (SpaceStep sym initproc) st ops st')
    (hknown : st.known = st'.known) (hstay : st.running ⊆ st'.running) :
    Run (QuietStep sym initproc) st ops st' ∨
      outCount st.phys.frames < outCount st'.phys.frames := by
  induction hrun with
  | done st => exact Or.inl (.done st)
  | @step s t u op ops hstep hrest ih =>
      have hok := h.step hstep
      have hfirst := h.follows hstep
      obtain ⟨-, hlast⟩ := hok.run hrest
      -- nobody is forked, so nobody comes back either
      have hknown₁ : s.known = t.known := hfirst.known.antisymm (hlast.known.trans hknown.ge)
      have hknown₂ : t.known = u.known := hknown₁.symm.trans hknown
      have hback₁ : t.running ⊆ s.running := fun p hp =>
        hfirst.stays p hp (hknown₁ ▸ hok.known hp)
      have hback₂ : u.running ⊆ t.running := fun p hp =>
        hlast.stays p hp (hknown₂ ▸ (hok.run hrest).1.known hp)
      have hstay₂ := ih hok hknown₂ (hback₁.trans hstay)
      have hle : outCount t.phys.frames ≤ outCount u.phys.frames := by
        rcases hstay₂ with hquiet | hlt
        · rw [hok.quiet_run hquiet]
        · exact hlt.le
      by_cases hquiet : s.Quiet op
      · have hframes := h.quiet_frames hstep hquiet
        rcases hstay₂ with hrun | hlt
        · exact Or.inl (.step ⟨hstep, hquiet⟩ hrun)
        · exact Or.inr (hframes ▸ hlt)
      · rcases h.busy_step hstep hknown₁ hquiet with hgone | ⟨-, hlt⟩
        · exact absurd (hstay.trans hback₂) hgone.2
        · exact Or.inr (hlt.trans_le hle)

/-- The frames that are free before and after a run are the same exactly if no step of it
took one. -/
theorem frees_all_iff (h : Ok start stop st) (hrun : Run (SpaceStep sym initproc) st ops st')
    (hreaped : ∀ c ∈ st'.known, c ∉ st.known → c ∉ st'.running ∧ c ∉ st'.zombie)
    (hstay : st.running ⊆ st'.running) :
    freeFrames st'.phys.frames = freeFrames st.phys.frames ↔
      Run (QuietStep sym initproc) st ops st' := by
  obtain ⟨hok, hfollows⟩ := h.run hrun
  refine ⟨fun heq => ?_, fun hquiet => by rw [h.quiet_run hquiet]⟩
  have hout := outCount_of_freeFrames h.managed hok.managed heq
  have hback : st'.running ⊆ st.running := by
    intro p hp
    by_contra hno
    have hnew : p ∉ st.known := fun hin => hno (hfollows.stays p hp hin)
    exact (hreaped p (hok.known hp) hnew).1 hp
  have hknown : st.known = st'.known := by
    by_contra hforked
    have hlt := h.outCount_lt_of_fork hrun hstay hforked hback
    omega
  refine (h.quiet_or_lt hrun hknown hstay).resolve_right fun hlt => ?_
  omega

instance decidablePermitted (st : TaskSpaces ι) : DecidablePred st.Permitted
  | .fork p c => inferInstanceAs (Decidable (p ∈ st.running ∧ c ∉ st.known))
  | .brk p _ => inferInstanceAs (Decidable (p ∈ st.running))
  | .mmap p .. => inferInstanceAs (Decidable (p ∈ st.running))
  | .pageIn p .. => inferInstanceAs (Decidable (p ∈ st.running))
  | .exit p => inferInstanceAs (Decidable (p ∈ st.running))
  | .waitpid p c => inferInstanceAs
      (Decidable (p ∈ st.running ∧ c ∈ st.zombie ∧ st.parent c = some p))
  | .store _ => isTrue trivial

/-- A step that is taken where it is permitted. -/
def permittedStep (sym : KernelSymbols) (initproc : ι) (st : TaskSpaces ι) (op : SpaceOp ι) :
    Option (TaskSpaces ι) :=
  if st.Permitted op then st.spaceStep sym initproc op else none

theorem of_permittedStep (h : permittedStep sym initproc st op = some st') :
    SpaceStep sym initproc st op st' := by
  rw [permittedStep] at h
  split at h
  · next hp => exact ⟨hp, h⟩
  · exact absurd h.symm (Option.some_ne_none _)

/-- A task forks, the child exits, and its parent waits for it. -/
def exampleRun : List (SpaceOp ℕ) := [.fork 1 2, .exit 2, .waitpid 1 2]

theorem managed_freshPhysical : ∃ start stop, Managed start stop freshPhysical.frames :=
  ⟨_, _, 0, manages_init (by decide) _, by decide +kernel⟩

/-- Where the first task is when the example run is over. -/
theorem exampleRun_ends : ∃ pt s task sys, ptNew freshPhysical = some (pt, s) ∧
    TaskMemory.tcbNew exampleSymbols 0 (oneSegment 0x10000 4 4) (bareKernel pt s) =
      some (task, sys) ∧
    ∃ st', Run (SpaceStep exampleSymbols 0) (alone 1 task sys) exampleRun st' ∧
      st'.running = {1} ∧ st'.zombie = ∅ ∧
      (sys.phys.frames.current ≤ 525586 ∧ 525586 < sys.phys.frames.end_) ∧
      525586 ∉ st'.phys.frames.recycled.elements ∧ 525586 < st'.phys.frames.current := by
  have heval : ((ptNew freshPhysical).bind fun x =>
      (TaskMemory.tcbNew exampleSymbols 0 (oneSegment 0x10000 4 4) (bareKernel x.1 x.2)).bind
        fun y => (execute (permittedStep exampleSymbols 0) (alone 1 y.1 y.2) exampleRun).map
          fun z => (decide (y.2.phys.frames.current ≤ 525586 ∧ 525586 < y.2.phys.frames.end_),
            decide (525586 ∉ z.phys.frames.recycled.elements ∧ 525586 < z.phys.frames.current),
            decide (z.running = {1} ∧ z.zombie = ∅))) = some (true, true, true) := by
    decide +kernel
  simp only [Option.bind_eq_some_iff, Option.map_eq_some_iff] at heval
  obtain ⟨⟨pt, s⟩, hpt, ⟨task, sys⟩, hnew, st', hexec, hobs⟩ := heval
  simp only [Prod.mk.injEq, decide_eq_true_eq] at hobs
  obtain ⟨hfree, hout, hrunning, hzombie⟩ := hobs
  have hrun : Run (SpaceStep exampleSymbols 0) (alone 1 task sys) exampleRun st' :=
    (run_of_execute hexec).mono fun _ _ _ => of_permittedStep
  exact ⟨pt, s, task, sys, hpt, hnew, st', hrun, hrunning, hzombie, hfree, hout⟩

/-- The child took frames that are not free when it is gone. -/
theorem fork_exit_takes_frames : ∃ (task : TaskMemory) (sys : ForkState) (st' : TaskSpaces ℕ),
    Run (SpaceStep exampleSymbols 0) (alone 1 task sys) exampleRun st' ∧
      st'.running = {1} ∧ st'.zombie = ∅ ∧
      freeFrames st'.phys.frames ≠ freeFrames sys.phys.frames := by
  obtain ⟨pt, s, task, sys, hpt, hnew, st', hrun, hrunning, hzombie, -⟩ := exampleRun_ends
  obtain ⟨start, stop, hmanaged⟩ := managed_freshPhysical
  have hok : Ok start stop (alone 1 task sys) :=
    ok_alone (ptNew_takes hmanaged hpt).managed hnew 1
  refine ⟨task, sys, st', hrun, hrunning, hzombie, fun heq => ?_⟩
  have hreaped : ∀ c ∈ st'.known, c ∉ (alone 1 task sys).known →
      c ∉ st'.running ∧ c ∉ st'.zombie := by
    rw [hrunning, hzombie]
    exact fun c _ hnew => ⟨hnew, Finset.notMem_empty c⟩
  cases (frees_all_iff hok hrun hreaped hrunning.ge).mp heq with
  | step hstep hrest => exact hstep.2

/-- The root of the child's page table was free before the fork. -/
theorem fork_exit_keeps_root : ∃ pt s task sys, ptNew freshPhysical = some (pt, s) ∧
    TaskMemory.tcbNew exampleSymbols 0 (oneSegment 0x10000 4 4) (bareKernel pt s) =
      some (task, sys) ∧
    ∃ st', Run (SpaceStep exampleSymbols 0) (alone 1 task sys) exampleRun st' ∧
      st'.running = {1} ∧ st'.zombie = ∅ ∧ 525586 ∈ freeFrames sys.phys.frames ∧
      525586 ∉ freeFrames st'.phys.frames := by
  obtain ⟨pt, s, task, sys, hpt, hnew, st', hrun, hrunning, hzombie, hfree, hout, hlt⟩ :=
    exampleRun_ends
  refine ⟨pt, s, task, sys, hpt, hnew, st', hrun, hrunning, hzombie, Or.inr hfree, ?_⟩
  rintro (hin | ⟨hge, -⟩)
  · exact hout hin
  · exact absurd hlt (not_lt.mpr hge)

end Runs

end TaskSpaces

end K210Os
