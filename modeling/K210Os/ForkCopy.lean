import K210Os.MmapContent
import K210Os.SpaceCopy

/-!
# Forking a task

`from_existed_user` goes through the list `areas` and not through the list `vma`, in which
`sys_mmap` puts its areas and `mmap_handler` looks for them. A task that forks has pages of its
program, of its stack and of `brk` in the one list, and what it maps from files in the other.
-/

namespace K210Os

open FrameAllocator PagedSpace Riscv Transition

/-! ## How much a read delivers -/

section Reads

variable {fat : Fat32} {data : Transfer} {n : ℕ} {d d' : Disk} {entry entry' : Dirent} {got : ℕ}
  {bytes : List Byte}

variable (data d) in
theorem rwClusReadLoop_length (fuel sec off : ℕ) {tot : ℕ} (h : tot ≤ n) :
    tot + (rwClusReadLoop data n d fuel sec off tot).2.length =
      (rwClusReadLoop data n d fuel sec off tot).1 ∧
    (rwClusReadLoop data n d fuel sec off tot).1 ≤ n := by
  induction fuel generalizing sec off tot with
  | zero => exact ⟨rfl, h⟩
  | succ fuel ih =>
      rw [rwClusReadLoop]
      split
      · dsimp only
        split
        · have hm := roundLen_eq bsize off (n - tot)
          have hle : tot + roundLen bsize off (n - tot) ≤ n := by omega
          obtain ⟨hlen, hlast⟩ := ih ((sec + 1) % 2 ^ 32) (off + roundLen bsize off (n - tot)) hle
          refine ⟨?_, hlast⟩
          rw [List.length_append, List.length_map, List.length_range, ← Nat.add_assoc]
          exact hlen
        · exact ⟨rfl, h⟩
      · exact ⟨rfl, h⟩

theorem ereadLoop_length {fuel off tot : ℕ} (h : tot ≤ n)
    (hcall : ereadLoop fat data n fuel d entry off tot = some (got, bytes, d', entry')) :
    tot + bytes.length ≤ n := by
  induction fuel generalizing d d' entry entry' off tot got bytes with
  | zero =>
      simp only [ereadLoop, Option.some.injEq, Prod.mk.injEq] at hcall
      rw [← hcall.2.1]
      exact h
  | succ fuel ih =>
      rw [ereadLoop] at hcall
      split at hcall
      · obtain ⟨⟨off', d₁, entry₁⟩, -, hcall⟩ := Option.bind_eq_some_iff.mp hcall
        obtain ⟨⟨put, part⟩, hread, hcall⟩ := Option.bind_eq_some_iff.mp hcall
        have hm := roundLen_eq fat.bytsPerClus off (n - tot)
        obtain ⟨hpart, hput⟩ :
            part.length = put ∧ put ≤ roundLen fat.bytsPerClus off (n - tot) := by
          rw [rwClusRead] at hread
          split at hread
          · contradiction
          · obtain ⟨rfl, rfl⟩ := Prod.mk.inj (Option.some.inj hread)
            obtain ⟨hlen, hle⟩ := rwClusReadLoop_length (data.drop tot) d₁ _ _ _
              (Nat.zero_le (roundLen fat.bytsPerClus off (n - tot)))
            rw [Nat.zero_add] at hlen
            exact ⟨hlen, hle⟩
        dsimp only at hcall
        split at hcall
        · simp only [Option.pure_def, Option.some.injEq, Prod.mk.injEq] at hcall
          rw [← hcall.2.1]
          omega
        · obtain ⟨⟨tot', rest, d₂, entry₂⟩, hloop, hcall⟩ := Option.bind_eq_some_iff.mp hcall
          have hrest := ih (by omega) hloop
          simp only [Option.pure_def, Option.some.injEq, Prod.mk.injEq] at hcall
          rw [← hcall.2.1, List.length_append]
          omega
      · simp only [Option.some.injEq, Prod.mk.injEq] at hcall
        rw [← hcall.2.1]
        exact h

/-- `eread` delivers no more than it is asked for, whatever is on the disk. -/
theorem eread_length {off : ℕ}
    (hcall : eread fat d entry data off n = some (got, bytes, d', entry')) : bytes.length ≤ n := by
  rw [eread] at hcall
  split at hcall
  · simp only [Option.some.injEq, Prod.mk.injEq] at hcall
    rw [← hcall.2.1]
    exact Nat.zero_le n
  · have hlen := ereadLoop_length (Nat.zero_le _) hcall
    split at hlen
    · omega
    · omega

end Reads

/-! ## What a task does to its memory -/

/-- A task and the memory of the system. -/
structure LoneTask where
  task : TaskMemory
  sys : ForkState

namespace LoneTask

/-- The entry of a page in the table of the task. -/
def lookup (st : LoneTask) (vpn : ℕ) : Option (ℕ × ℕ) :=
  translation st.sys.phys.mem st.task.memorySet.pageTable.rootPpn vpn

/-- The task with its address space in another state. -/
def withSpace (st : LoneTask) (ms : MemorySet) (s : Physical) : LoneTask :=
  ⟨{ st.task with memorySet := ms }, { st.sys with phys := s }⟩

end LoneTask

/-- `store` is a byte that the task writes, or the kernel for it, to its page of an address. -/
inductive MemoryOp where
  | brk (addr : ℕ)
  | mmap (gr : Reg → Word)
  | pageIn (va scause : ℕ)
  | store (va : ℕ) (b : Byte)

/-- A call that returns, whatever files there are. -/
def MemoryStep (st : LoneTask) (op : MemoryOp) (st' : LoneTask) : Prop :=
  match op with
  | .brk addr => ∃ ret task s, st.task.sysBrk st.sys.phys addr = some (ret, task, s) ∧
      st' = ⟨task, { st.sys with phys := s }⟩
  | .mmap gr => ∃ (p : MmapTask) (ret : ℕ) (p' : MmapTask), p.memorySet = st.task.memorySet ∧
      p.sysMmap gr = some (ret, p') ∧ st' = st.withSpace p'.memorySet st.sys.phys
  | .pageIn va scause => ∃ fat file fs code ms s fs',
      mmapHandler fat file st.task.memorySet st.sys.phys fs va scause = some (code, ms, s, fs') ∧
        st' = st.withSpace ms s
  | .store va b => ∃ ppn flags, st.lookup (va2vpn va) = some (ppn, flags) ∧ flags &&& pteW ≠ 0 ∧
      st' = st.withSpace st.task.memorySet
        { st.sys.phys with mem := Function.update st.sys.phys.mem (ppn * 4096 + va % 4096) b }

/-- The page lies in an area of `vma`. -/
def FilePage (ms : MemorySet) (k : ℕ) : Prop :=
  ∃ t ∈ ms.vma, ∃ va, t.contains va = true ∧ pageKey (va2vpn va) = k

/-- The task has its pages, and beside them pages of its areas for files only. -/
structure PagesOk (strampoline : ℕ) (st : LoneTask) (frame : ℕ → ℕ) (σ : UserSpace) : Prop where
  own : OwnPages strampoline st.task st.sys frame σ
  vma : ∀ t ∈ st.task.memorySet.vma, t.mapType = .framed ∧ t.mapPerm < 256
  only : ∀ k, σ k ≠ none → k ∈ trampolineKey :: st.task.memorySet.areas.flatMap areaKeys ∨
    FilePage st.task.memorySet k

section Steps

variable {strampoline : ℕ} {st st' : LoneTask} {frame frame' : ℕ → ℕ} {σ σ' : UserSpace}

/-- A task whose address space grew, with some areas more. -/
theorem OwnPages.extend {p p' : TaskMemory} {sys : ForkState} {s' : Physical} {n : ℕ}
    {mas : List MapArea} (h : OwnPages strampoline p sys frame σ)
    (hb : Backs p'.memorySet.pageTable s' frame' σ')
    (hg : Grows n sys.phys (SpaceFrame p.memorySet.pageTable frame σ) s'
      (SpaceFrame p'.memorySet.pageTable frame' σ'))
    (hkeep : ∀ k, σ k ≠ none → σ' k = σ k ∧ frame' k = frame k)
    (hareas : p'.memorySet.areas = p.memorySet.areas ++ mas)
    (hmas : ∀ ma ∈ mas, ma.mapType = .framed ∧ ma.mapPerm < 256 ∧
      ∀ k ∈ areaKeys ma, ∃ b, σ' k = some (areaFlags ma, b))
    (htrap : p'.trapCxPpn = p.trapCxPpn) :
    OwnPages strampoline p' { sys with phys := s' } frame' σ' := by
  have hsame : ∀ {k fl}, (∃ b, σ k = some (fl, b)) → ∃ b, σ' k = some (fl, b) := by
    rintro k fl ⟨b, hb⟩
    exact ⟨b, (hkeep k (by rw [hb]; exact Option.some_ne_none _)).1.trans hb⟩
  obtain ⟨hin, hframe, b, hpage⟩ := h.context
  have hmapped : σ trapKey ≠ none := by
    rw [hpage]
    exact Option.some_ne_none _
  refine ⟨hb, h.kernel.grows hg, hsame h.trampoline, fun ma hma => ?_, ?_, ?_, hsame ⟨b, hpage⟩⟩
  · rw [hareas] at hma
    rcases List.mem_append.mp hma with hma | hma
    · obtain ⟨hframed, hperm, hpages⟩ := h.areas ma hma
      exact ⟨hframed, hperm, fun k hk => hsame (hpages k hk)⟩
    · exact hmas ma hma
  · rw [hareas, List.flatMap_append]
    exact List.mem_append_left _ hin
  · exact ((hkeep _ hmapped).2.trans hframe).trans htrap.symm

/-- A new area of `brk`. -/
theorem PagesOk.push (h : PagesOk strampoline st frame σ) {ma : MapArea} {ms : MemorySet}
    {s : Physical} {size : ℕ} (hframed : ma.mapType = .framed) (hperm : ma.mapPerm < 256)
    (hcall : msPush st.task.memorySet st.sys.phys ma none 0 = some (ms, s)) :
    ∃ frame' σ', PagesOk strampoline
      ⟨{ st.task with memorySet := ms, baseSize := size }, { st.sys with phys := s }⟩
      frame' σ' := by
  obtain ⟨frame', ma', hsame, hvma, hareas, hfree, hbacks, hgrows, hkeeps⟩ :=
    h.own.backs.msPush_empty hframed hperm hcall
  have hkeys : areaKeys ma' = areaKeys ma := hsame.keys
  have hkeep : ∀ k, σ k ≠ none → (if k ∈ areaKeys ma then some (areaFlags ma, zeroPage) else σ k) =
      σ k ∧ frame' k = frame k := by
    intro k hk
    exact ⟨if_neg fun hin => hk (hfree k hin), hkeeps k hk⟩
  refine ⟨frame', _, h.own.extend hbacks hgrows hkeep hareas (fun ma₁ hma₁ => ?_) rfl, ?_, ?_⟩
  · obtain rfl := List.mem_singleton.mp hma₁
    refine ⟨(congrArg MapArea.mapType hsame).trans hframed,
      (congrArg MapArea.mapPerm hsame).trans_lt hperm, fun k hk => ⟨zeroPage, ?_⟩⟩
    rw [if_pos (hkeys ▸ hk), hsame.flags]
  · intro t ht
    exact h.vma t (hvma ▸ ht)
  · intro k hk
    dsimp only at hk ⊢
    rw [FilePage, hvma, hareas, List.flatMap_append, ← List.cons_append]
    by_cases hin : k ∈ areaKeys ma
    · refine Or.inl (List.mem_append_right _ ?_)
      rw [List.flatMap_cons, List.flatMap_nil, List.append_nil, hkeys]
      exact hin
    · rw [if_neg hin] at hk
      exact (h.only k hk).imp_left (List.mem_append_left _)

theorem PagesOk.brk (h : PagesOk strampoline st frame σ) {addr ret : ℕ} {task : TaskMemory}
    {s : Physical} (hcall : st.task.sysBrk st.sys.phys addr = some (ret, task, s)) :
    ∃ frame' σ', PagesOk strampoline ⟨task, { st.sys with phys := s }⟩ frame' σ' := by
  have hsize : ∀ size, PagesOk strampoline
      ⟨{ st.task with baseSize := size }, { st.sys with phys := st.sys.phys }⟩ frame σ :=
    fun size => ⟨⟨h.own.backs, h.own.kernel, h.own.trampoline, h.own.areas, h.own.context⟩, h.vma, h.only⟩
  rw [TaskMemory.sysBrk] at hcall
  split at hcall
  · simp only [Option.some.injEq, Prod.mk.injEq] at hcall
    obtain ⟨-, rfl, rfl⟩ := hcall
    exact ⟨frame, σ, h⟩
  · obtain ⟨⟨task', s'⟩, hbrk, heq⟩ := Option.map_eq_some_iff.mp hcall
    simp only [Prod.mk.injEq] at heq
    obtain ⟨-, rfl, rfl⟩ := heq
    rw [TaskMemory.brk] at hbrk
    dsimp only at hbrk
    split at hbrk
    · split at hbrk
      · obtain ⟨rfl, rfl⟩ := Prod.mk.inj (Option.some.inj hbrk)
        exact ⟨frame, σ, hsize _⟩
      · obtain ⟨⟨ms, s₁⟩, hpush, heq⟩ := Option.map_eq_some_iff.mp hbrk
        obtain ⟨rfl, rfl⟩ := Prod.mk.inj heq
        exact h.push rfl (show vmR ||| vmU ||| vmX ||| vmW < 256 by decide) hpush
    · obtain ⟨rfl, rfl⟩ := Prod.mk.inj (Option.some.inj hbrk)
      exact ⟨frame, σ, hsize _⟩

theorem PagesOk.mmap (h : PagesOk strampoline st frame σ) {gr : Reg → Word} {p p' : MmapTask}
    {ret : ℕ} (hp : p.memorySet = st.task.memorySet) (hcall : p.sysMmap gr = some (ret, p')) :
    PagesOk strampoline (st.withSpace p'.memorySet st.sys.phys) frame σ := by
  rcases sysMmap_appends hcall with rfl | ⟨f, rfl⟩
  · rw [hp]
    exact h
  · have hms : (p.withArea gr f).memorySet = { st.task.memorySet with
        vma := st.task.memorySet.vma ++ [MmapTask.newArea gr st.task.memorySet f] } := by
      rw [← hp]
      rfl
    rw [hms]
    refine ⟨⟨h.own.backs, h.own.kernel, h.own.trampoline, h.own.areas, h.own.context⟩,
      fun t ht => ?_, fun k hk => ?_⟩
    · rcases List.mem_append.mp ht with ht | ht
      · exact h.vma t ht
      · obtain rfl := List.mem_singleton.mp ht
        exact ⟨rfl, MmapTask.newArea_perm_lt gr _ f⟩
    · refine (h.only k hk).imp_right ?_
      rintro ⟨t, ht, hva⟩
      exact ⟨t, List.mem_append_left _ ht, hva⟩

/-- An area for files in which a page was mapped is where it was. -/
theorem FilePage.replace {ms ms' : MemorySet} {before after : List MmapArea} {u u' : MmapArea}
    {k : ℕ} (h : FilePage ms k) (hvma : ms.vma = before ++ u :: after)
    (hvma' : ms'.vma = before ++ u' :: after) (hsame : SameArea u.toMapArea u'.toMapArea) : FilePage ms' k := by
  obtain ⟨t, ht, va, hva, hkey⟩ := h
  have hcontains : u'.contains va = u.contains va := by
    rw [MmapArea.contains, MmapArea.contains, hsame.range.1, hsame.range.2]
  rw [hvma, List.mem_append, List.mem_cons] at ht
  rcases ht with ht | rfl | ht
  · exact ⟨t, hvma' ▸ List.mem_append_left _ ht, va, hva, hkey⟩
  · exact ⟨u', hvma' ▸ List.mem_append_right _ List.mem_cons_self, va, hcontains.trans hva, hkey⟩
  · exact ⟨t, hvma' ▸ List.mem_append_right _ (List.mem_cons_of_mem _ ht), va, hva, hkey⟩

/-- Writing to a page of the task. -/
theorem PagesOk.write (h : PagesOk strampoline st frame σ) {k : ℕ} (hk : σ k ≠ none) {mem : Memory}
    (hmem : ∀ a, a / 4096 ≠ frame k → mem a = st.sys.phys.mem a) :
    ∃ σ', PagesOk strampoline
      (st.withSpace st.task.memorySet { st.sys.phys with mem }) frame σ' := by
  refine ⟨_, h.own.write hk hmem, h.vma, fun l hl => h.only l ?_⟩
  rwa [Ne, Option.map_eq_none_iff] at hl

/-- A page that `ma_map_one` maps for an area for files. -/
theorem PagesOk.maMapOne (h : PagesOk strampoline st frame σ) {va : ℕ} {u : MmapArea} {ma : MapArea}
    {before after : List MmapArea} {pt : PageTable} {s : Physical}
    (hvma : st.task.memorySet.vma = before ++ u :: after) (hva : u.contains va = true)
    (hcall : K210Os.maMapOne u.toMapArea st.task.memorySet.pageTable st.sys.phys (va2vpn va) =
      some (ma, pt, s)) :
    ∃ frame', PagesOk strampoline (st.withSpace { st.task.memorySet with
        pageTable := pt, vma := before ++ { u with toMapArea := ma } :: after } s) frame'
      (Function.update σ (pageKey (va2vpn va)) (some (areaFlags u.toMapArea, zeroPage))) := by
  have hu : u ∈ st.task.memorySet.vma := hvma ▸ List.mem_append_right _ List.mem_cons_self
  obtain ⟨hframed, hperm⟩ := h.vma u hu
  rcases h.own.backs.maMapOne hframed hperm (va2vpn va) with
    ⟨hnone, -⟩ | ⟨x, frame', σ', hsome, hkey, hsame, hb, hg, hkeeps⟩
  · rw [hnone] at hcall
    contradiction
  · obtain rfl := Option.some.inj (hcall.symm.trans hsome)
    obtain ⟨hfree, rfl⟩ := mapKey_eq_some_iff.mp hkey
    have hkeep : ∀ k, σ k ≠ none → Function.update σ (pageKey (va2vpn va))
        (some (areaFlags u.toMapArea, zeroPage)) k = σ k ∧ frame' k = frame k := by
      intro k hk
      refine ⟨Function.update_of_ne ?_ _ _, (hkeeps k hk).2⟩
      rintro rfl
      exact hk hfree
    refine ⟨frame', h.own.extend hb hg hkeep (List.append_nil _).symm
      (fun ma hma => absurd hma List.not_mem_nil) rfl, fun t ht => ?_, fun k hk => ?_⟩
    · rcases List.mem_append.mp ht with ht | ht
      · exact h.vma t (hvma ▸ List.mem_append_left _ ht)
      · rcases List.mem_cons.mp ht with rfl | ht
        · exact ⟨(congrArg MapArea.mapType hsame).trans hframed,
            (congrArg MapArea.mapPerm hsame).trans_lt hperm⟩
        · exact h.vma t (hvma ▸ List.mem_append_right _ (List.mem_cons_of_mem _ ht))
    · have hreplace : FilePage st.task.memorySet k → FilePage { st.task.memorySet with
          pageTable := pt, vma := before ++ { u with toMapArea := ma } :: after } k := fun hold =>
        hold.replace hvma rfl hsame
      by_cases hnew : k = pageKey (va2vpn va)
      · exact Or.inr (hreplace ⟨u, hu, va, hva, hnew.symm⟩)
      · rw [Function.update_of_ne hnew] at hk
        exact (h.only k hk).imp_right hreplace

theorem PagesOk.mmapPage (h : PagesOk strampoline st frame σ) {fat : Fat32}
    {file : Fin nfile → File} {fs fs' : FileSystem} {va : ℕ} {u u' : MmapArea}
    {before after : List MmapArea} {pt : PageTable} {s : Physical}
    (hvma : st.task.memorySet.vma = before ++ u :: after) (hva : u.contains va = true)
    (hcall : K210Os.mmapPage fat file u st.task.memorySet.pageTable st.sys.phys fs va =
      some (u', pt, s, fs')) :
    ∃ frame' σ', PagesOk strampoline
      (st.withSpace { st.task.memorySet with pageTable := pt, vma := before ++ u' :: after } s)
      frame' σ' := by
  obtain ⟨⟨ma, pt', s₁⟩, hone, hrest⟩ := Option.bind_eq_some_iff.mp hcall
  obtain ⟨ppn, hppn, hrest⟩ := Option.bind_eq_some_iff.mp hrest
  obtain ⟨⟨bytes, fs₁⟩, hread, hrest⟩ := Option.bind_eq_some_iff.mp hrest
  simp only [Option.pure_def, Option.some.injEq, Prod.mk.injEq] at hrest
  obtain ⟨rfl, rfl, rfl, rfl⟩ := hrest
  have hlen : bytes.length ≤ 4096 := by
    obtain ⟨⟨got, bytes', d, e⟩, heread, heq⟩ := Option.map_eq_some_iff.mp hread
    obtain ⟨rfl, -⟩ := Prod.mk.inj heq
    exact eread_length heread
  obtain ⟨frame', h₁⟩ := h.maMapOne hvma hva hone
  have hb : Backs pt' s₁ frame' _ := h₁.own.backs
  have hmapped : Function.update σ (pageKey (va2vpn va))
      (some (areaFlags u.toMapArea, zeroPage)) (pageKey (va2vpn va)) ≠ none := by
    rw [Function.update_self]
    exact Option.some_ne_none _
  have hframe : frame' (pageKey (va2vpn va)) = ppn := by
    rw [hb.pteFrame, Function.update_self] at hppn
    exact Option.some.inj hppn
  have hlt : ppn < 0x80800 := hframe ▸ hb.table.sound.taken_lt (hb.taken _ hmapped)
  refine ⟨frame', h₁.write hmapped fun a ha => ?_⟩
  apply copyBytes_outside
  rw [hframe] at ha
  rw [ppn2pa_eq (by omega)]
  omega

theorem PagesOk.pageIn (h : PagesOk strampoline st frame σ) {fat : Fat32} {file : Fin nfile → File}
    {fs fs' : FileSystem} {va scause : ℕ} {code : ℤ} {ms : MemorySet} {s : Physical}
    (hcall : mmapHandler fat file st.task.memorySet st.sys.phys fs va scause =
      some (code, ms, s, fs')) :
    ∃ frame' σ', PagesOk strampoline (st.withSpace ms s) frame' σ' := by
  cases hfind : st.task.memorySet.vma.find? (fun t => t.contains va) with
  | none =>
      rw [mmapHandler_of_find_none hfind] at hcall
      simp only [Option.some.injEq, Prod.mk.injEq] at hcall
      obtain ⟨-, rfl, rfl, -⟩ := hcall
      exact ⟨frame, σ, h⟩
  | some u =>
      obtain ⟨before, after, hvma, hrun⟩ := mmapHandler_of_find hfind
      rw [hrun] at hcall
      cases hrefuses : u.refuses scause with
      | some code' =>
          simp only [hrefuses, Option.some.injEq, Prod.mk.injEq] at hcall
          obtain ⟨-, rfl, rfl, -⟩ := hcall
          exact ⟨frame, σ, h⟩
      | none =>
          rw [hrefuses] at hcall
          obtain ⟨⟨u', pt, s', fs''⟩, hpage, heq⟩ := Option.map_eq_some_iff.mp hcall
          simp only [Prod.mk.injEq] at heq
          obtain ⟨-, rfl, rfl, -⟩ := heq
          have hva := List.find?_some hfind
          exact h.mmapPage hvma hva hpage

theorem PagesOk.store (h : PagesOk strampoline st frame σ) {va ppn flags : ℕ} {b : Byte}
    (hpage : st.lookup (va2vpn va) = some (ppn, flags)) :
    ∃ σ', PagesOk strampoline (st.withSpace st.task.memorySet { st.sys.phys with
      mem := Function.update st.sys.phys.mem (ppn * 4096 + va % 4096) b }) frame σ' := by
  rw [LoneTask.lookup, h.own.backs.lookup] at hpage
  obtain ⟨q, hq, heq⟩ := Option.map_eq_some_iff.mp hpage
  obtain ⟨rfl, -⟩ := Prod.mk.inj heq
  apply h.write (by rw [hq]; exact Option.some_ne_none q)
  intro a ha
  apply Function.update_of_ne
  omega

/-- Every step keeps the pages of the task in order. -/
theorem PagesOk.step (h : PagesOk strampoline st frame σ) {op : MemoryOp}
    (hstep : MemoryStep st op st') : ∃ frame' σ', PagesOk strampoline st' frame' σ' := by
  cases op with
  | brk addr =>
      obtain ⟨ret, task, s, hcall, rfl⟩ := hstep
      exact h.brk hcall
  | mmap gr =>
      obtain ⟨p, ret, p', hp, hcall, rfl⟩ := hstep
      exact ⟨frame, σ, h.mmap hp hcall⟩
  | pageIn va scause =>
      obtain ⟨fat, file, fs, code, ms, s, fs', hcall, rfl⟩ := hstep
      exact h.pageIn hcall
  | store va b =>
      obtain ⟨ppn, flags, hpage, -, rfl⟩ := hstep
      exact ⟨frame, h.store hpage⟩

theorem pagesOk_of_tcbNew {sym : KernelSymbols} {sstatus : Word} {image : ℕ → Byte}
    {sys sys' : ForkState} {p : TaskMemory} (hready : KernelReady sym.strampoline sys)
    (hnew : TaskMemory.tcbNew sym sstatus image sys = some (p, sys')) :
    ∃ frame σ, PagesOk sym.strampoline ⟨p, sys'⟩ frame σ := by
  obtain ⟨frame, σ, userSp, hown, hmade, -⟩ := tcbNew_makes hready hnew
  refine ⟨frame, σ, hown, fun t ht => ?_, fun k hk => Or.inl ?_⟩
  · rw [hmade.vma] at ht
    contradiction
  · rw [hmade.keys]
    exact (hmade.mapped k).mp hk

end Steps

/-! ## What is wanted of a fork -/

/-- The trap context in the frame `ppn'` is the one in `ppn` but for two words. -/
structure ContextCopied (mem : Memory) (ppn : ℕ) (mem' : Memory) (ppn' kernelSp : ℕ) : Prop where
  kernelSp : load64 mem' (ppn' * 4096 + contextKernelSp) = kernelSp
  a0 : load64 mem' (ppn' * 4096 + contextA0) = 0
  rest : ∀ i < trapContextSize, (i < contextKernelSp ∨ contextKernelSp + 8 ≤ i) →
    (i < contextA0 ∨ contextA0 + 8 ≤ i) → mem' (ppn' * 4096 + i) = mem (ppn * 4096 + i)

/-- What is wanted: the child has the user pages of the parent in frames of its own and pages in
what the parent would, its trap context differs in two words, and the parent keeps what it has.
`sys` is the memory after the call. -/
structure ForkLaws (st : LoneTask) (child : TaskMemory) (sys : ForkState) : Prop where
  pages : ∀ vpn ppn flags, st.lookup vpn = some (ppn, flags) → flags &&& pteU ≠ 0 →
    ∃ ppn', LoneTask.lookup ⟨child, sys⟩ vpn = some (ppn', flags) ∧
      (∀ i < 4096, sys.phys.mem (ppn' * 4096 + i) = st.sys.phys.mem (ppn * 4096 + i)) ∧
      ∀ v q, st.lookup v = some q → q.1 ≠ ppn'
  later : ∀ fat file fs va scause ms s fs',
    mmapHandler fat file st.task.memorySet sys.phys fs va scause = some (0, ms, s, fs') →
    ∃ ms' s' fs'', mmapHandler fat file child.memorySet sys.phys fs va scause =
        some (0, ms', s', fs'') ∧
      ∃ ppn ppn' flags, translation s.mem ms.pageTable.rootPpn (va2vpn va) = some (ppn, flags) ∧
        translation s'.mem ms'.pageTable.rootPpn (va2vpn va) = some (ppn', flags) ∧
        ∀ i < 4096, s'.mem (ppn' * 4096 + i) = s.mem (ppn * 4096 + i)
  context : pteFrame sys.phys.mem child.memorySet.pageTable.rootPpn (va2vpn trapContext) =
      some child.trapCxPpn ∧
    ContextCopied st.sys.phys.mem st.task.trapCxPpn sys.phys.mem child.trapCxPpn
      (ksGetTop child.pid.toNat)
  kept : ∀ vpn, LoneTask.lookup ⟨st.task, sys⟩ vpn = st.lookup vpn ∧
    ∀ q, st.lookup vpn = some q →
      ∀ i < 4096, sys.phys.mem (q.1 * 4096 + i) = st.sys.phys.mem (q.1 * 4096 + i)

/-- No area for files has a page that is not also one of `areas`, and the next kernel stack lies
above address 0. -/
structure ForksWell (st : LoneTask) : Prop where
  quiet : ∀ k, FilePage st.task.memorySet k →
    k ∈ trampolineKey :: st.task.memorySet.areas.flatMap areaKeys
  stack : st.sys.pids.pidAlloc.1.toNat * (kernelStackSize + pageSize) + kernelStackSize ≤
    trapContext

/-- The copy beside the task that it was made of. -/
structure Forked (st : LoneTask) (frame : ℕ → ℕ) (σ : UserSpace) (child : TaskMemory)
    (sys : ForkState) (frame' : ℕ → ℕ) (τ : UserSpace) : Prop where
  original : Backs st.task.memorySet.pageTable sys.phys frame σ
  copy : Backs child.memorySet.pageTable sys.phys frame' τ
  vma : child.memorySet.vma = []
  fresh : ∀ k, τ k ≠ none → k ≠ trampolineKey → ¬ Taken st.sys.phys.frames (frame' k)
  same : ∀ k ∈ st.task.memorySet.areas.flatMap areaKeys, k ≠ trapKey → SamePage σ τ k
  mapped : τ trapKey ≠ none ∧ frame' trapKey = child.trapCxPpn
  context : ContextCopied st.sys.phys.mem st.task.trapCxPpn sys.phys.mem child.trapCxPpn
    (ksGetTop child.pid.toNat)

section Fork

variable {strampoline eReturn : ℕ} {st : LoneTask} {frame frame' : ℕ → ℕ} {σ τ : UserSpace}
  {child : TaskMemory} {sys : ForkState} {pid : BitVec 64}

theorem ksGetTop_lt (pid : ℕ) : ksGetTop pid < 2 ^ 64 := Nat.mod_lt _ (by decide)

/-- The two words of the trap context that are written. -/
theorem context_stores (mem : Memory) (base top : ℕ) (htop : top < 2 ^ 64) :
    load64 (store64 (store64 mem (base + contextKernelSp) top) (base + contextA0) 0)
        (base + contextKernelSp) = top ∧
      load64 (store64 (store64 mem (base + contextKernelSp) top) (base + contextA0) 0)
        (base + contextA0) = 0 ∧
      ∀ a, (a < base + contextKernelSp ∨ base + contextKernelSp + 8 ≤ a) →
        (a < base + contextA0 ∨ base + contextA0 + 8 ≤ a) →
        store64 (store64 mem (base + contextKernelSp) top) (base + contextA0) 0 a = mem a := by
  have hsp : contextKernelSp = 296 := rfl
  have ha0 : contextA0 = 80 := rfl
  refine ⟨?_, ?_, fun a hsp' ha0' => ?_⟩
  · rw [load64, store64, LittleEndian.load_store_of_disjoint (by omega), store64,
      LittleEndian.load_store]
    exact Nat.mod_eq_of_lt htop
  · rw [load64, store64, LittleEndian.load_store]
    rfl
  · rw [store64, LittleEndian.store_outside ha0', store64, LittleEndian.store_outside hsp']

theorem PagesOk.sysFork (h : PagesOk strampoline st frame σ) (hw : ForksWell st)
    (hcall : st.task.sysFork strampoline eReturn st.sys = some (pid, child, sys)) :
    ∃ frame' τ, Forked st frame σ child sys frame' τ := by
  simp only [TaskMemory.sysFork, TaskMemory.fork, Option.bind_eq_bind, Option.bind_eq_some_iff,
    Option.map_eq_some_iff, Option.pure_def, Option.some.injEq, Prod.mk.injEq] at hcall
  obtain ⟨-, ⟨⟨ms, s₁⟩, hcopy, ppn, htrap, ⟨ks, s₂⟩, hstack, s₃, hpush, rfl⟩, -, rfl, rfl⟩ := hcall
  obtain ⟨hb, hkernel, -, hareas, hin, hframe, bσ, hσ⟩ := id h.own
  obtain ⟨hvma, frame', τ, hcopying, hsame⟩ := hb.fromExistedUser hkernel.held hareas hcopy
  obtain ⟨n, hgrows⟩ := hcopying.grows
  have hbeside : BesideKernel strampoline st.sys.kernelSpace st.sys.phys (· = pa2ppn strampoline) :=
    ⟨hkernel.table, hkernel.held, hkernel.tramp, fun f hf => hf ▸ hkernel.tramp⟩
  have hbeside₁ := hbeside.grows hgrows
  have hmade := stackMade hbeside₁.table hw.stack hstack hpush
  have horiginal := hmade.backs (hcopying.source hb) hkernel.apart
  have hcopied := hmade.backs hcopying.backs hbeside₁.apart
  obtain ⟨fl, b, b', hσ', hτ, hbytes⟩ := hsame trapKey hin
  have hmapped : τ trapKey ≠ none := by
    rw [hτ]
    exact Option.some_ne_none _
  have htramp : τ trampolineKey ≠ none := by
    obtain ⟨fl₀, b₀, hpage, -⟩ := hcopying.page
    rw [hpage]
    exact Option.some_ne_none _
  have hfresh : ∀ k, τ k ≠ none → k ≠ trampolineKey → ¬ Taken st.sys.phys.frames (frame' k) := by
    intro k hk hne
    refine hcopying.fresh (Or.inr ⟨k, hk, rfl⟩) fun heq => hne ?_
    exact hcopying.backs.inj k trampolineKey hk htramp (heq.trans hcopying.shared.symm)
  have hppn : frame' trapKey = ppn := by
    have hpte := (hcopying.backs.pteFrame (va2vpn trapContext)).symm.trans htrap
    obtain ⟨q, -, hq⟩ := Option.map_eq_some_iff.mp hpte
    exact hq
  have hlt : ppn < 0x80800 := hppn ▸ hcopied.table.sound.taken_lt (hcopied.taken _ hmapped)
  have hpa : ppn2pa ppn = ppn * 4096 := ppn2pa_eq (by omega)
  dsimp only at hpa ⊢
  rw [hpa]
  obtain ⟨hsp, ha0, hrest⟩ := context_stores s₃.mem (ppn * 4096)
    (ksGetTop st.sys.pids.pidAlloc.1.toNat) (ksGetTop_lt _)
  have hcontext : contextKernelSp = 296 ∧ contextA0 = 80 := ⟨rfl, rfl⟩
  have hmem : ∀ a, a / 4096 ≠ ppn → store64 (store64 s₃.mem (ppn * 4096 + contextKernelSp)
      (ksGetTop st.sys.pids.pidAlloc.1.toNat)) (ppn * 4096 + contextA0) 0 a = s₃.mem a := by
    intro a ha
    exact hrest a (by omega) (by omega)
  have hout : ¬ SpaceFrame st.task.memorySet.pageTable frame σ ppn := fun hf =>
    hfresh trapKey hmapped (by decide) (hppn ▸ hb.taken_of_spaceFrame hf)
  refine ⟨frame', _, horiginal.writeOther hout hmem, hcopied.writePage hmapped (hppn ▸ hmem), hvma,
    fun k hk => hfresh k ?_, fun k hk hne => ?_, ⟨?_, hppn⟩, hsp, ha0, fun i hi hsp' ha0' => ?_⟩
  · rwa [Ne, Option.map_eq_none_iff] at hk
  · obtain ⟨fl, b, b', hσ, hτ, hbytes⟩ := hsame k hk
    refine ⟨fl, b, b', hσ, ?_, hbytes⟩
    dsimp only
    rw [hτ, Option.map_some, if_neg hne]
  · rwa [Ne, Option.map_eq_none_iff]
  · have hpage : i < 4096 := lt_trans hi (by decide)
    dsimp only
    rw [hrest _ (by omega) (by omega), ← hppn, ← hframe, hcopied.bytes _ _ hτ i hpage,
      hb.bytes _ _ hσ' i hpage]
    exact hbytes i hpage

/-- The handler serves no page that is mapped. -/
theorem Backs.mmapHandler_mapped {ms ms' : MemorySet} {s s' : Physical} {fat : Fat32}
    {file : Fin nfile → File} {fs fs' : FileSystem} {va scause : ℕ}
    (h : Backs ms.pageTable s frame σ)
    (hvma : ∀ t ∈ ms.vma, t.mapType = .framed ∧ t.mapPerm < 256)
    (hmapped : ∀ t ∈ ms.vma, t.contains va = true → σ (pageKey (va2vpn va)) ≠ none) :
    mmapHandler fat file ms s fs va scause ≠ some (0, ms', s', fs') := by
  intro hcall
  cases hfind : ms.vma.find? (fun t => t.contains va) with
  | none =>
      rw [mmapHandler_of_find_none hfind] at hcall
      simp at hcall
  | some u =>
      obtain ⟨before, after, -, hrun⟩ := mmapHandler_of_find hfind
      rw [hrun] at hcall
      have hu := List.mem_of_find?_eq_some hfind
      have hva := List.find?_some hfind
      obtain ⟨hframed, hperm⟩ := hvma u hu
      cases hrefuses : u.refuses scause with
      | some code =>
          rw [hrefuses, Option.some.injEq, Prod.mk.injEq] at hcall
          exact u.refuses_ne_zero (hcall.1 ▸ hrefuses)
      | none =>
          rw [hrefuses] at hcall
          obtain ⟨x, hpage, -⟩ := Option.map_eq_some_iff.mp hcall
          obtain ⟨y, hone, -⟩ := Option.bind_eq_some_iff.mp hpage
          rcases h.maMapOne hframed hperm (va2vpn va) with
            ⟨hnone, -⟩ | ⟨x, frame', σ', hsome, hkey, -⟩
          · rw [hnone] at hone
            contradiction
          · exact hmapped u hu hva (mapKey_eq_some_iff.mp hkey).1

/-- User code has neither the trampoline nor the trap context. -/
theorem OwnPages.not_user {p : TaskMemory} (h : OwnPages strampoline p sys frame σ) {k flags : ℕ}
    {b : ℕ → Byte} (hσ : σ k = some (flags, b)) (huser : flags &&& pteU ≠ 0) :
    k ≠ trampolineKey ∧ k ≠ trapKey := by
  constructor
  · rintro rfl
    obtain ⟨b', hb⟩ := h.trampoline
    obtain rfl : flags = pteR ||| pteX ||| pteV :=
      congrArg Prod.fst (Option.some.inj (hσ.symm.trans hb))
    exact huser (by decide)
  · rintro rfl
    obtain ⟨b', hb⟩ := h.context.2.2
    obtain rfl : flags = vmR ||| vmW ||| pteV :=
      congrArg Prod.fst (Option.some.inj (hσ.symm.trans hb))
    exact huser (by decide)

theorem Forked.laws (h : PagesOk strampoline st frame σ) (hw : ForksWell st)
    (hf : Forked st frame σ child sys frame' τ) : ForkLaws st child sys := by
  have hareas : ∀ k ∈ trampolineKey :: st.task.memorySet.areas.flatMap areaKeys, σ k ≠ none := by
    intro k hk
    rcases List.mem_cons.mp hk with rfl | hk
    · obtain ⟨b, hb⟩ := h.own.trampoline
      rw [hb]
      exact Option.some_ne_none _
    · obtain ⟨ma, hma, hk⟩ := List.mem_flatMap.mp hk
      obtain ⟨b, hb⟩ := (h.own.areas ma hma).2.2 k hk
      rw [hb]
      exact Option.some_ne_none _
  refine ⟨fun vpn ppn flags hpage huser => ?_, fun fat file fs va scause ms s fs' hcall => ?_, ⟨?_,
    hf.context⟩, fun vpn => ⟨?_, fun q hq i hi => ?_⟩⟩
  · rw [LoneTask.lookup, h.own.backs.lookup] at hpage
    obtain ⟨⟨fl, b⟩, hσ, heq⟩ := Option.map_eq_some_iff.mp hpage
    obtain ⟨rfl, rfl⟩ := Prod.mk.inj heq
    have hin : pageKey vpn ∈ trampolineKey :: st.task.memorySet.areas.flatMap areaKeys :=
      (h.only _ (by rw [hσ]; exact Option.some_ne_none _)).elim id (hw.quiet _)
    obtain ⟨htramp, htrap⟩ := h.own.not_user hσ huser
    obtain ⟨fl', b₁, b', hσ', hτ, hbytes⟩ :=
      hf.same _ ((List.mem_cons.mp hin).resolve_left htramp) htrap
    obtain ⟨rfl, rfl⟩ := Prod.mk.inj (Option.some.inj (hσ.symm.trans hσ'))
    have hmapped : τ (pageKey vpn) ≠ none := by
      rw [hτ]
      exact Option.some_ne_none _
    refine ⟨frame' (pageKey vpn), ?_, fun i hi => ?_, fun v q hq heq => ?_⟩
    · rw [LoneTask.lookup, hf.copy.lookup, hτ]
      rfl
    · rw [hf.copy.bytes _ _ hτ i hi, h.own.backs.bytes _ _ hσ i hi]
      exact hbytes i hi
    · rw [LoneTask.lookup, h.own.backs.lookup] at hq
      obtain ⟨p, hp, rfl⟩ := Option.map_eq_some_iff.mp hq
      refine hf.fresh _ hmapped htramp (heq ▸ h.own.backs.taken _ ?_)
      rw [hp]
      exact Option.some_ne_none p
  · refine absurd hcall (hf.original.mmapHandler_mapped h.vma fun t ht hva => ?_)
    exact hareas _ (hw.quiet _ ⟨t, ht, va, hva, rfl⟩)
  · obtain ⟨hmapped, hframe⟩ := hf.mapped
    obtain ⟨q, hq⟩ := Option.ne_none_iff_exists'.mp hmapped
    rw [hf.copy.pteFrame]
    change (τ trapKey).map (fun _ => frame' trapKey) = _
    rw [hq, hframe]
    rfl
  · rw [LoneTask.lookup, LoneTask.lookup, hf.original.lookup, h.own.backs.lookup]
  · rw [LoneTask.lookup, h.own.backs.lookup] at hq
    obtain ⟨p, hp, rfl⟩ := Option.map_eq_some_iff.mp hq
    exact (hf.original.bytes _ p hp i hi).trans (h.own.backs.bytes _ p hp i hi).symm

/-- In every run of a task that `tcb_new` made, a fork does what is wanted where no page was mapped
from a file or is to be. -/
theorem sysFork_run {sym : KernelSymbols} {sstatus : Word} {image : ℕ → Byte}
    {sys₀ sys₁ : ForkState} {p : TaskMemory} (hready : KernelReady sym.strampoline sys₀)
    (hnew : TaskMemory.tcbNew sym sstatus image sys₀ = some (p, sys₁)) {ops : List MemoryOp}
    (hrun : Run MemoryStep ⟨p, sys₁⟩ ops st) (hw : ForksWell st)
    (hcall : st.task.sysFork sym.strampoline sym.eReturn st.sys = some (pid, child, sys)) :
    ForkLaws st child sys := by
  have hpages : ∃ frame σ, PagesOk sym.strampoline st frame σ := by
    refine hrun.invariant (I := fun st => ∃ frame σ, PagesOk sym.strampoline st frame σ) ?_
      (pagesOk_of_tcbNew hready hnew)
    rintro st op st' ⟨frame, σ, h⟩ hstep
    exact h.step hstep
  obtain ⟨frame, σ, h⟩ := hpages
  obtain ⟨frame', τ, hf⟩ := h.sysFork hw hcall
  exact Forked.laws h hw hf

/-- A task that forks at once. -/
theorem sysFork_new_task : ∃ pt s p sys child sys', ptNew freshPhysical = some (pt, s) ∧
    TaskMemory.tcbNew exampleSymbols 0 (oneSegment 0x10000 4 4) (bareKernel pt s) = some (p, sys) ∧
    p.sysFork exampleSymbols.strampoline exampleSymbols.eReturn sys = some (2, child, sys') ∧
    ForkLaws ⟨p, sys⟩ child sys' := by
  have heval : ((ptNew freshPhysical).bind fun x =>
      (TaskMemory.tcbNew exampleSymbols 0 (oneSegment 0x10000 4 4)
        (bareKernel x.1 x.2)).bind fun y =>
        (y.1.sysFork exampleSymbols.strampoline exampleSymbols.eReturn y.2).map fun z =>
          (z.1, y.1.memorySet.vma.length, y.2.pids.pidAlloc.1)) = some (2, 0, 2) := by
    decide +kernel
  simp only [Option.bind_eq_some_iff, Option.map_eq_some_iff, Prod.mk.injEq] at heval
  obtain ⟨⟨pt, s⟩, hpt, ⟨p, sys⟩, hnew, ⟨pid, child, sys'⟩, hfork, rfl, hvma, hpid⟩ := heval
  refine ⟨pt, s, p, sys, child, sys', hpt, hnew, hfork,
    sysFork_run (bareKernel_ready hpt) hnew (.done _) ⟨?_, ?_⟩ hfork⟩
  · rintro k ⟨t, ht, -⟩
    rw [List.length_eq_zero_iff.mp hvma] at ht
    contradiction
  · dsimp only at hpid ⊢
    rw [hpid]
    decide

/-- The child cannot page in what its parent mapped from a file. -/
theorem sysFork_drops_mmap : ∃ pt s p sys st child sys', ptNew freshPhysical = some (pt, s) ∧
    TaskMemory.tcbNew exampleSymbols 0 (oneSegment 0x10000 4 4) (bareKernel pt s) = some (p, sys) ∧
    Run MemoryStep ⟨p, sys⟩ [.mmap (MmapTask.exampleCall 5000)] st ∧
    st.task.sysFork exampleSymbols.strampoline exampleSymbols.eReturn st.sys =
      some (2, child, sys') ∧
    ¬ ForkLaws st child sys' := by
  have heval : ((ptNew freshPhysical).bind fun x =>
      (TaskMemory.tcbNew exampleSymbols 0 (oneSegment 0x10000 4 4)
        (bareKernel x.1 x.2)).bind fun y =>
        (MmapTask.sysMmap (MmapTask.exampleCall 5000)
          { MmapTask.exampleTask with memorySet := y.1.memorySet }).bind fun m =>
          (TaskMemory.sysFork exampleSymbols.strampoline exampleSymbols.eReturn
            { y.1 with memorySet := m.2.memorySet } y.2).bind fun z =>
            (mmapHandler smallFat MmapTask.exampleTask.file m.2.memorySet z.2.2.phys byteFiles
              vmaStart 13).bind fun w =>
              (mmapHandler smallFat MmapTask.exampleTask.file z.2.1.memorySet z.2.2.phys byteFiles
                vmaStart 13).map fun w' => (z.1, w.1, w'.1)) =
        some ((2 : BitVec 64), (0 : ℤ), (-1 : ℤ)) := by decide +kernel
  simp only [Option.bind_eq_some_iff, Option.map_eq_some_iff, Prod.mk.injEq] at heval
  obtain ⟨⟨pt, s⟩, hpt, ⟨p, sys⟩, hnew, ⟨ret, p'⟩, hmmap, ⟨pid, child, sys'⟩, hfork,
    ⟨code, ms, s₁, fs⟩, hparent, ⟨code', ms', s₂, fs'⟩, hchild, rfl, rfl, rfl⟩ := heval
  refine ⟨pt, s, p, sys, _, child, sys', hpt, hnew,
    .step ⟨_, ret, p', rfl, hmmap, rfl⟩ (.done _), hfork, fun hlaws => ?_⟩
  obtain ⟨ms₁, s₃, fs₁, hserved, -⟩ := hlaws.later _ _ _ _ _ _ _ _ hparent
  exact absurd (Prod.mk.inj (Option.some.inj (hserved.symm.trans hchild))).1 (by decide)

end Fork

end K210Os
