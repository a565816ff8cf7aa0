import K210Os.TaskCreation

/-!
# Growing a task

`sys_brk` moves `base_size` byte by byte and maps pages when it passes the end of one.
The area of a step begins with the page of the old `base_size`, which is new only if
`base_size` is the first byte of it.
-/

namespace K210Os

open FrameAllocator PagedSpace Riscv Transition

/-- The value returned comes first. -/
def TaskMemory.sysBrk (p : TaskMemory) (s : Physical) (addr : ℕ) :
    Option (ℕ × TaskMemory × Physical) :=
  if addr = 0 then some (p.baseSize, p, s)
  else (p.brk s ((addr + 2 ^ 64 - p.baseSize) % 2 ^ 64)).map fun (p, s) => (p.baseSize, p, s)

/-! ## Areas side by side -/

/-- The page lies in the area. -/
def MapArea.Covers (ma : MapArea) (vpn : ℕ) : Prop := ma.vmStart ≤ vpn ∧ vpn < ma.vmEnd

def Apart (mas : List MapArea) : Prop :=
  mas.Pairwise fun ma ma' => ∀ vpn, ma.Covers vpn → ¬ ma'.Covers vpn

/-- Areas that follow each other from page `lo` to page `hi`. -/
def Consecutive : ℕ → List MapArea → ℕ → Prop
  | lo, [], hi => lo = hi
  | lo, ma :: mas, hi => ma.vmStart = lo ∧ lo ≤ ma.vmEnd ∧ Consecutive ma.vmEnd mas hi

section Areas

variable {lo hi vpn : ℕ} {ma : MapArea} {mas : List MapArea}

theorem Consecutive.le (h : Consecutive lo mas hi) : lo ≤ hi := by
  induction mas generalizing lo with
  | nil => exact le_of_eq h
  | cons ma mas ih => exact h.2.1.trans (ih h.2.2)

theorem Consecutive.snoc (h : Consecutive lo mas ma.vmStart) (hle : ma.vmStart ≤ ma.vmEnd) :
    Consecutive lo (mas ++ [ma]) ma.vmEnd := by
  induction mas generalizing lo with
  | nil => exact ⟨h.symm, h.trans_le hle, rfl⟩
  | cons ma' mas ih => exact ⟨h.1, h.2.1, ih h.2.2⟩

theorem Consecutive.inside (h : Consecutive lo mas hi) (hma : ma ∈ mas) (hc : ma.Covers vpn) :
    lo ≤ vpn ∧ vpn < hi := by
  induction mas generalizing lo with
  | nil => contradiction
  | cons ma' mas ih =>
      obtain ⟨hstart, hle, hrest⟩ := h
      rcases List.mem_cons.mp hma with rfl | hma
      · exact ⟨hstart.symm.trans_le hc.1, hc.2.trans_le hrest.le⟩
      · obtain ⟨hlo, hhi⟩ := ih hrest hma
        exact ⟨hle.trans hlo, hhi⟩

theorem Consecutive.covered (h : Consecutive lo mas hi) (hlo : lo ≤ vpn) (hhi : vpn < hi) :
    ∃ ma ∈ mas, ma.Covers vpn := by
  induction mas generalizing lo with
  | nil => exact absurd (hlo.trans_lt hhi) (by rw [show lo = hi from h]; exact lt_irrefl hi)
  | cons ma mas ih =>
      obtain ⟨hstart, hle, hrest⟩ := h
      by_cases hin : vpn < ma.vmEnd
      · exact ⟨ma, List.mem_cons_self, hstart.trans_le hlo, hin⟩
      · obtain ⟨ma', hma', hc⟩ := ih hrest (not_lt.mp hin)
        exact ⟨ma', List.mem_cons_of_mem ma hma', hc⟩

theorem Consecutive.apart (h : Consecutive lo mas hi) : Apart mas := by
  induction mas generalizing lo with
  | nil => exact List.Pairwise.nil
  | cons ma mas ih =>
      obtain ⟨-, -, hrest⟩ := h
      refine List.Pairwise.cons (fun ma' hma' vpn hc hc' => ?_) (ih hrest)
      exact absurd hc.2 (not_lt.mpr (hrest.inside hma' hc').1)

end Areas

/-! ## Calls -/

structure RunningTask where
  task : TaskMemory
  phys : Physical

/-- A call of `sys_brk` that returns. -/
def BrkCall (st : RunningTask) (addr ret : ℕ) (st' : RunningTask) : Prop :=
  st.task.sysBrk st.phys addr = some (ret, st'.task, st'.phys)

/-- The calls in question: they do not shrink the task, which stays below `VMA_START`,
and there are frames for the new pages and for their tables. -/
structure RaisesBreak (st : RunningTask) (addr : ℕ) : Prop where
  le : st.task.baseSize ≤ addr
  below : addr < vmaStart
  frames : 3 * (vaCeil addr - vaCeil st.task.baseSize) ≤ frameRemainSize st.phys.frames

/-- The call stays on the last page, or it begins at the end of a page and none of the
pages that it is to add was mapped when the task was made. -/
def Continues (start st : RunningTask) (addr : ℕ) : Prop :=
  vaCeil st.task.baseSize = vaCeil addr ∨
    st.task.baseSize % pageSize = 0 ∧ ∀ vpn, vaFloor st.task.baseSize ≤ vpn → vpn < vaCeil addr →
      pteFrame start.phys.mem start.task.memorySet.pageTable.rootPpn vpn = none

def RunningTask.lookup (st : RunningTask) (vpn : ℕ) : Option (ℕ × ℕ) :=
  translation st.phys.mem st.task.memorySet.pageTable.rootPpn vpn

def breakFlags : ℕ := vmR ||| vmU ||| vmX ||| vmW ||| pteV

/-- What is wanted of a call: pages from the first `base_size` up to `addr` are mapped,
new ones are cleared, and what was mapped before stays. -/
structure BrkLaws (start st : RunningTask) (addr ret : ℕ) (st' : RunningTask) : Prop where
  returned : ret = addr ∧ st'.task.baseSize = addr
  mapped : ∀ a, start.task.baseSize ≤ a → a < addr →
    (∃ g, st'.lookup (va2vpn a) = some (g, breakFlags)) ∧
    ∃ ma ∈ st'.task.memorySet.areas, ma.Covers (va2vpn a)
  cleared : ∀ vpn q, st.lookup vpn = none → st'.lookup vpn = some q →
    ∀ i < 4096, st'.phys.mem (q.1 * 4096 + i) = 0
  kept : ∀ vpn q, st.lookup vpn = some q → st'.lookup vpn = some q ∧
    ∀ i < 4096, st'.phys.mem (q.1 * 4096 + i) = st.phys.mem (q.1 * 4096 + i)
  apart : Apart st'.task.memorySet.areas

/-! ## The invariant -/

section Invariant

variable {σ₀ σ σ' : UserSpace} {start st st' : RunningTask} {frame frame' : ℕ → ℕ} {addr ret : ℕ}

theorem vaCeil_eq {a : ℕ} (ha : a + 4095 < 2 ^ 64) : vaCeil a = (a + 4095) / 4096 := by
  rw [vaCeil, paCeil, show pageSize = 4096 from rfl]
  omega

/-- What holds of a task when it is made. -/
structure Starts (σ₀ : UserSpace) (start : RunningTask) : Prop where
  backs : ∃ frame, Backs start.task.memorySet.pageTable start.phys frame σ₀
  aligned : start.task.baseSize % 4096 = 0
  lt : start.task.baseSize < 2 ^ 64
  apart : Apart start.task.memorySet.areas
  keys : ∀ ma ∈ start.task.memorySet.areas, ∀ vpn, ma.Covers vpn → σ₀ (pageKey vpn) ≠ none

/-- The pages from the first `base_size` up to the present one are cleared pages of the
areas that came with the calls. -/
structure Extends (σ₀ : UserSpace) (start st : RunningTask) (frame : ℕ → ℕ) (σ : UserSpace) :
    Prop where
  backs : Backs st.task.memorySet.pageTable st.phys frame σ
  le : start.task.baseSize ≤ st.task.baseSize
  space : ∀ k, σ k = if start.task.baseSize / 4096 ≤ k ∧ k < vaCeil st.task.baseSize
    then some (breakFlags, zeroPage) else σ₀ k
  free : ∀ k, start.task.baseSize / 4096 ≤ k → k < vaCeil st.task.baseSize → σ₀ k = none
  areas : ∃ grown, st.task.memorySet.areas = start.task.memorySet.areas ++ grown ∧
    Consecutive (start.task.baseSize / 4096) grown (vaCeil st.task.baseSize)

theorem Starts.extends (h : Starts σ₀ start) : ∃ frame, Extends σ₀ start start frame σ₀ := by
  obtain ⟨frame, hbacks⟩ := h.backs
  have hceil : vaCeil start.task.baseSize = start.task.baseSize / 4096 := by
    have haligned := h.aligned
    have hlt := h.lt
    rw [vaCeil_eq (by omega)]
    omega
  refine ⟨frame, hbacks, le_rfl, fun k => ?_, fun k hlo hhi => ?_, [], (List.append_nil _).symm,
    hceil.symm⟩
  · rw [if_neg]
    rw [hceil]
    omega
  · rw [hceil] at hhi
    omega

theorem Extends.lookup (h : Extends σ₀ start st frame σ) (vpn : ℕ) :
    st.lookup vpn = (σ (pageKey vpn)).map fun p => (frame (pageKey vpn), p.1) :=
  h.backs.lookup vpn

theorem Extends.laws (hstart : Starts σ₀ start) (h : Extends σ₀ start st frame σ)
    (h' : Extends σ₀ start st' frame' σ') (hkeeps : KeepsFrames σ frame σ' frame')
    (hle : vaCeil st.task.baseSize ≤ vaCeil st'.task.baseSize) (hbase : st'.task.baseSize = addr)
    (hbelow : addr < vmaStart) (hret : ret = addr) : BrkLaws start st addr ret st' := by
  have hvma : vmaStart = 2 ^ 30 := by decide
  have hceil : vaCeil st'.task.baseSize = (addr + 4095) / 4096 := by
    rw [hbase, vaCeil_eq (by omega)]
  obtain ⟨grown, hareas, hgrown⟩ := h'.areas
  refine ⟨⟨hret, hbase⟩, fun a hlo hhi => ?_, fun vpn q hnone hq => ?_, fun vpn q hq => ?_, ?_⟩
  · have hpage : va2vpn a = a / 4096 := rfl
    have hkey : pageKey (va2vpn a) = a / 4096 := by
      rw [pageKey, hpage]
      omega
    have hin : start.task.baseSize / 4096 ≤ a / 4096 ∧ a / 4096 < vaCeil st'.task.baseSize := by
      omega
    constructor
    · refine ⟨frame' (a / 4096), ?_⟩
      rw [h'.lookup, hkey, h'.space, if_pos hin]
      rfl
    · obtain ⟨ma, hma, hc⟩ := hgrown.covered hin.1 hin.2
      exact ⟨ma, hareas ▸ List.mem_append_right _ hma, hpage ▸ hc⟩
  · rw [h.lookup, Option.map_eq_none_iff, h.space] at hnone
    rw [h'.lookup, Option.map_eq_some_iff] at hq
    obtain ⟨p, hp, rfl⟩ := hq
    have hnew : p = (breakFlags, zeroPage) := by
      rw [h'.space] at hp
      split at hp
      · exact (Option.some.inj hp).symm
      · split at hnone
        · exact absurd hnone (Option.some_ne_none _)
        · exact absurd (hnone.symm.trans hp).symm (Option.some_ne_none p)
    intro i hi
    rw [h'.backs.bytes _ p hp i hi, hnew]
    rfl
  · rw [h.lookup, Option.map_eq_some_iff] at hq
    obtain ⟨p, hp, rfl⟩ := hq
    have hsame : σ' (pageKey vpn) = some p := by
      rw [h.space] at hp
      rw [h'.space]
      split at hp
      · rename_i hin
        rw [if_pos ⟨hin.1, hin.2.trans_le hle⟩]
        exact hp
      · rw [if_neg fun hin => ?_]
        · exact hp
        · exact absurd ((h'.free _ hin.1 hin.2).symm.trans hp).symm (Option.some_ne_none p)
    have hframe : frame' (pageKey vpn) = frame (pageKey vpn) := (hkeeps _ (by simp [hp])).2
    refine ⟨?_, fun i hi => ?_⟩
    · rw [h'.lookup, hsame, hframe]
      rfl
    · rw [h.backs.bytes _ p hp i hi, ← h'.backs.bytes _ p hsame i hi, hframe]
  · rw [hareas]
    refine List.pairwise_append.mpr ⟨hstart.apart, hgrown.apart, fun ma hma ma' hma' vpn hc hc' => ?_⟩
    obtain ⟨hlo, hhi⟩ := hgrown.inside hma' hc'
    have hkey : pageKey vpn = vpn := by
      rw [pageKey]
      omega
    apply hstart.keys ma hma vpn hc
    rw [hkey]
    exact h'.free vpn hlo hhi

/-- A call that does not shrink the task. -/
theorem sysBrk_eq {p : TaskMemory} (s : Physical) (hle : p.baseSize ≤ addr) (hlt : addr < 2 ^ 64) :
    p.sysBrk s addr = if vaCeil p.baseSize = vaCeil addr
      then some (addr, { p with baseSize := addr }, s)
      else (msPush p.memorySet s (maNew p.baseSize addr .framed (vmR ||| vmU ||| vmX ||| vmW))
        none 0).map fun x => (addr, { p with memorySet := x.1, baseSize := addr }, x.2) := by
  have hsub : (addr + 2 ^ 64 - p.baseSize) % 2 ^ 64 = addr - p.baseSize := by omega
  have hsize : (p.baseSize + (addr - p.baseSize)) % 2 ^ 64 = addr := by omega
  obtain ⟨pid, ms, baseSize, ppn⟩ := p
  dsimp only at hle hsub hsize ⊢
  rw [TaskMemory.sysBrk, TaskMemory.brk]
  dsimp only
  rw [hsub, hsize]
  by_cases hzero : addr = 0
  · obtain rfl : baseSize = 0 := by omega
    subst hzero
    simp
  · rw [if_neg hzero]
    by_cases hn : addr - baseSize > 0
    · rw [if_pos hn]
      split
      · rfl
      · rw [Option.map_map]
        rfl
    · obtain rfl : baseSize = addr := by omega
      simp

/-- The area of a call that adds pages. -/
def breakArea (st : RunningTask) (addr : ℕ) : MapArea :=
  maNew st.task.baseSize addr .framed (vmR ||| vmU ||| vmX ||| vmW)

theorem mem_breakKeys (hg : RaisesBreak st addr) (k : ℕ) :
    k ∈ areaKeys (breakArea st addr) ↔ st.task.baseSize / 4096 ≤ k ∧ k < vaCeil addr := by
  have hvma : vmaStart = 2 ^ 30 := by decide
  have hbelow := hg.below
  have hceil : vaCeil addr = (addr + 4095) / 4096 := vaCeil_eq (by omega)
  have hstart : (breakArea st addr).vmStart = st.task.baseSize / 4096 := rfl
  have hend : (breakArea st addr).vmEnd = vaCeil addr := rfl
  rw [areaKeys, mem_pageKeys, hstart, hend]
  constructor
  · rintro ⟨v, hlo, hhi, rfl⟩
    rw [pageKey]
    omega
  · rintro ⟨hlo, hhi⟩
    refine ⟨k, hlo, by omega, ?_⟩
    rw [pageKey]
    omega

theorem nodup_breakKeys (hg : RaisesBreak st addr) : (areaKeys (breakArea st addr)).Nodup := by
  have hvma : vmaStart = 2 ^ 30 := by decide
  have hbelow := hg.below
  have hceil : vaCeil addr = (addr + 4095) / 4096 := vaCeil_eq (by omega)
  have hend : (breakArea st addr).vmEnd = vaCeil addr := rfl
  refine List.Nodup.map_on ?_ List.nodup_range'
  intro x hx y hy heq
  rw [List.mem_range'_1] at hx hy
  rw [pageKey, pageKey] at heq
  omega

theorem Starts.unmapped_iff (h : Starts σ₀ start) (vpn : ℕ) :
    pteFrame start.phys.mem start.task.memorySet.pageTable.rootPpn vpn = none ↔
      σ₀ (pageKey vpn) = none := by
  obtain ⟨frame, hbacks⟩ := h.backs
  rw [hbacks.pteFrame, Option.map_eq_none_iff]

/-- The pages that a call is to add are free exactly if it begins where it may. -/
theorem Extends.free_iff (hstart : Starts σ₀ start) (h : Extends σ₀ start st frame σ)
    (hg : RaisesBreak st addr) (hne : vaCeil st.task.baseSize ≠ vaCeil addr) :
    (∀ k ∈ areaKeys (breakArea st addr), σ k = none) ↔ Continues start st addr := by
  have hvma : vmaStart = 2 ^ 30 := by decide
  have hbelow := hg.below
  have hle := hg.le
  have hceil : vaCeil addr = (addr + 4095) / 4096 := vaCeil_eq (by omega)
  have hbase : vaCeil st.task.baseSize = (st.task.baseSize + 4095) / 4096 := vaCeil_eq (by omega)
  have hfloor : vaFloor st.task.baseSize = st.task.baseSize / 4096 := rfl
  have hfirst := h.le
  constructor
  · intro hfree
    have hunmapped : ∀ k, st.task.baseSize / 4096 ≤ k → k < vaCeil addr →
        ¬ (start.task.baseSize / 4096 ≤ k ∧ k < vaCeil st.task.baseSize) ∧ σ₀ k = none := by
      intro k hlo hhi
      have hnone := hfree k ((mem_breakKeys hg k).mpr ⟨hlo, hhi⟩)
      rw [h.space] at hnone
      split at hnone
      · exact absurd hnone (Option.some_ne_none _)
      · rename_i hout
        exact ⟨hout, hnone⟩
    have hpage : st.task.baseSize / 4096 < vaCeil addr := by omega
    obtain ⟨hout, -⟩ := hunmapped _ le_rfl hpage
    refine Or.inr ⟨?_, fun vpn hlo hhi => ?_⟩
    · rw [show pageSize = 4096 from rfl]
      omega
    · have hkey : pageKey vpn = vpn := by
        rw [pageKey]
        omega
      rw [hstart.unmapped_iff, hkey]
      exact (hunmapped vpn hlo hhi).2
  · rintro (heq | ⟨haligned, hnone⟩) k hk
    · exact absurd heq hne
    · obtain ⟨hlo, hhi⟩ := (mem_breakKeys hg k).mp hk
      rw [show pageSize = 4096 from rfl] at haligned
      have hkey : pageKey k = k := by
        rw [pageKey]
        omega
      have hout : ¬ (start.task.baseSize / 4096 ≤ k ∧ k < vaCeil st.task.baseSize) := by omega
      rw [h.space, if_neg hout]
      have hfree := (hstart.unmapped_iff k).mp (hnone k hlo hhi)
      rwa [hkey] at hfree

/-- A call that stays on the last page. -/
theorem Extends.stay (hstart : Starts σ₀ start) (h : Extends σ₀ start st frame σ)
    (hg : RaisesBreak st addr) (heq : vaCeil st.task.baseSize = vaCeil addr) :
    ∃ st', BrkCall st addr addr st' ∧ Extends σ₀ start st' frame σ ∧
      BrkLaws start st addr addr st' := by
  have hvma : vmaStart = 2 ^ 30 := by decide
  have hbelow := hg.below
  have hcall := sysBrk_eq st.phys hg.le (show addr < 2 ^ 64 by omega)
  rw [if_pos heq] at hcall
  obtain ⟨hbacks, hle, hspace, hfree, hareas⟩ := id h
  rw [heq] at hspace hfree hareas
  let st' : RunningTask := ⟨{ st.task with baseSize := addr }, st.phys⟩
  have h' : Extends σ₀ start st' frame σ := ⟨hbacks, hle.trans hg.le, hspace, hfree, hareas⟩
  exact ⟨st', hcall, h', h.laws hstart h' (fun k hk => ⟨hk, rfl⟩) heq.le rfl hbelow rfl⟩

/-- New pages in an area behind the others. -/
theorem Extends.pushed (hstart : Starts σ₀ start) (h : Extends σ₀ start st frame σ)
    (hg : RaisesBreak st addr) (haligned : st.task.baseSize % 4096 = 0)
    (hnew : ∀ k ∈ areaKeys (breakArea st addr), σ k = none)
    (hσ' : σ' = fun k => if k ∈ areaKeys (breakArea st addr) then some (breakFlags, zeroPage)
      else σ k) {ms : MemorySet} {s' : Physical} {ma : MapArea}
    (hbacks : Backs ms.pageTable s' frame' σ') (hma : SameArea (breakArea st addr) ma)
    (hareas : ms.areas = st.task.memorySet.areas ++ [ma]) :
    Extends σ₀ start ⟨{ st.task with memorySet := ms, baseSize := addr }, s'⟩ frame' σ' := by
  have hvma : vmaStart = 2 ^ 30 := by decide
  have hbelow := hg.below
  have hbase := hg.le
  have hfirst := h.le
  have hfloor := hstart.aligned
  have hmem := mem_breakKeys hg
  have hceil : vaCeil addr = (addr + 4095) / 4096 := vaCeil_eq (by omega)
  have hbaseCeil : vaCeil st.task.baseSize = st.task.baseSize / 4096 := by
    rw [vaCeil_eq (by omega)]
    omega
  refine ⟨hbacks, h.le.trans hg.le, fun k => ?_, fun k hlo hhi => ?_, ?_⟩
  · rw [hσ']
    dsimp only
    by_cases hk : k ∈ areaKeys (breakArea st addr)
    · have hin := (hmem k).mp hk
      have hrange : start.task.baseSize / 4096 ≤ k ∧ k < vaCeil addr := by omega
      rw [if_pos hk, if_pos hrange]
    · rw [if_neg hk, h.space]
      rw [hmem] at hk
      exact if_congr (by omega) rfl rfl
  · have hlast : k < vaCeil addr := hhi
    by_cases hk : k ∈ areaKeys (breakArea st addr)
    · have hin := (hmem k).mp hk
      have hnone := hnew k hk
      rw [h.space, if_neg (by omega)] at hnone
      exact hnone
    · rw [hmem] at hk
      exact h.free k hlo (by omega)
  · obtain ⟨grown, hgrown, hcons⟩ := h.areas
    have hend : ma.vmEnd = vaCeil addr := congrArg MapArea.vmEnd hma
    have hbegin : ma.vmStart = vaCeil st.task.baseSize :=
      (congrArg MapArea.vmStart hma).trans hbaseCeil.symm
    refine ⟨grown ++ [ma], ?_, ?_⟩
    · rw [← List.append_assoc, ← hgrown]
      exact hareas
    · rw [← hbegin] at hcons
      have hsnoc := hcons.snoc (by omega)
      rwa [hend] at hsnoc

/-- A call that adds pages does so exactly if they are free. -/
theorem Extends.push (hstart : Starts σ₀ start) (h : Extends σ₀ start st frame σ)
    (hg : RaisesBreak st addr) (hne : vaCeil st.task.baseSize ≠ vaCeil addr) :
    (Continues start st addr → ∃ st' frame' σ', BrkCall st addr addr st' ∧
      Extends σ₀ start st' frame' σ' ∧ BrkLaws start st addr addr st') ∧
    ((∃ ret st', BrkCall st addr ret st') → Continues start st addr) := by
  have hvma : vmaStart = 2 ^ 30 := by decide
  have hbelow := hg.below
  have hbase := hg.le
  have hceil : vaCeil addr = (addr + 4095) / 4096 := vaCeil_eq (by omega)
  have hbaseCeil : vaCeil st.task.baseSize = (st.task.baseSize + 4095) / 4096 := vaCeil_eq (by omega)
  have hcall := sysBrk_eq st.phys hg.le (show addr < 2 ^ 64 by omega)
  rw [if_neg hne] at hcall
  have hpush := h.backs.msPush (show (breakArea st addr).mapType = .framed from rfl)
    (show vmR ||| vmU ||| vmX ||| vmW < 256 by decide) none 0
  have hload : loadSegment zeroPage σ (areaSegment (breakArea st addr)
      (pushWrites (breakArea st addr) none 0)) =
        mapKeys breakFlags zeroPage σ (areaKeys (breakArea st addr)) :=
    Option.bind_fun_some _
  have hlen : (areaKeys (breakArea st addr)).length = vaCeil addr - st.task.baseSize / 4096 := by
    rw [areaKeys, pageKeys, List.length_map, List.length_range']
    rfl
  rw [hload, hlen] at hpush
  have hfree := h.free_iff hstart hg hne
  rcases hpush with ⟨hnone, hor⟩ | ⟨⟨ms, s'⟩, frame', σ', hsome, hmap, ⟨-, ma, hma, hareas⟩, hbacks,
    -, hkeeps⟩
  · constructor
    · intro hcont
      exfalso
      obtain ⟨haligned, -⟩ := hcont.resolve_left hne
      rw [show pageSize = 4096 from rfl] at haligned
      rcases hor with habs | hfew
      · have hmap : mapKeys breakFlags zeroPage σ (areaKeys (breakArea st addr)) = some _ :=
          mapKeys_eq_some_iff.mpr ⟨nodup_breakKeys hg, hfree.mpr hcont, rfl⟩
        exact absurd (habs.symm.trans hmap).symm (Option.some_ne_none _)
      · have hframes := hg.frames
        omega
    · rintro ⟨ret, st', hret⟩
      have hfails : st.task.sysBrk st.phys addr = none := by
        rw [hcall]
        exact congrArg (Option.map _) hnone
      exact absurd (hfails.symm.trans hret).symm (Option.some_ne_none _)
  · obtain ⟨-, hnew, hσ'⟩ := mapKeys_eq_some_iff.mp hmap
    have hcont := hfree.mp hnew
    refine ⟨fun _ => ?_, fun _ => hcont⟩
    obtain ⟨haligned, hunmapped⟩ := hcont.resolve_left hne
    rw [show pageSize = 4096 from rfl] at haligned
    let st' : RunningTask := ⟨{ st.task with memorySet := ms, baseSize := addr }, s'⟩
    have hret : BrkCall st addr addr st' := by
      rw [BrkCall, hcall]
      exact congrArg (Option.map _) hsome
    dsimp only at hareas hbacks
    have h' := h.pushed hstart hg haligned hnew hσ' hbacks hma hareas
    exact ⟨st', frame', σ', hret, h', h.laws hstart h' hkeeps (by show _ ≤ vaCeil addr; omega) rfl
      hbelow rfl⟩

/-! ## Tasks that `tcb_new` made -/

theorem MapArea.Covers.key_mem {ma : MapArea} {vpn : ℕ} (hc : ma.Covers vpn) :
    pageKey vpn ∈ areaKeys ma := by
  obtain ⟨hlo, hhi⟩ := hc
  exact mem_pageKeys.mpr ⟨vpn, hlo, by omega, rfl⟩

theorem elfSegments_keys (image : ℕ → Byte) : (elfSegments image).flatMap Segment.keys =
    ((loadable image).map elfArea ++
      [stackArea (maxEndVpn (loadable image)), trapArea]).flatMap areaKeys := by
  rw [elfSegments, List.flatMap_append, List.flatMap_append, List.flatMap_map, List.flatMap_map]
  rfl

variable {image : ℕ → Byte} {ms : MemorySet} {userSp : ℕ}

theorem FromElf.keys (h : FromElf image ms userSp σ) :
    ms.areas.flatMap areaKeys = (elfSegments image).flatMap Segment.keys := by
  rw [elfSegments_keys, ← h.areas, List.flatMap_map]
  rfl

theorem FromElf.covered (h : FromElf image ms userSp σ) {ma : MapArea} (hma : ma ∈ ms.areas)
    {vpn : ℕ} (hc : ma.Covers vpn) : σ (pageKey vpn) ≠ none := by
  rw [h.mapped, ← h.keys]
  exact List.mem_cons_of_mem _ (List.mem_flatMap.mpr ⟨ma, hma, hc.key_mem⟩)

theorem FromElf.apart (h : FromElf image ms userSp σ) : Apart ms.areas := by
  have hnodup := (List.nodup_cons.mp h.nodup).2
  rw [← h.keys, List.nodup_flatMap] at hnodup
  exact hnodup.2.imp fun hdisj vpn hc hc' => hdisj hc.key_mem hc'.key_mem

theorem userStackTop_aligned (maxEndVpn : ℕ) : (userStackTop maxEndVpn + pageSize) % 2 ^ 64 % 4096 =
    0 := by
  have hva : vpn2va maxEndVpn = maxEndVpn * 4096 % 2 ^ 64 := by
    rw [vpn2va, ppn2pa, Nat.shiftLeft_eq]
    rfl
  rw [userStackTop, userStackBottom, hva, show pageSize = 4096 from rfl,
    show userStackSize = 8192 from rfl]
  omega

theorem starts_of_tcbNew {sym : KernelSymbols} {sstatus : Word} {sys sys' : ForkState}
    {p : TaskMemory} (hready : KernelReady sym.strampoline sys)
    (hcall : TaskMemory.tcbNew sym sstatus image sys = some (p, sys')) :
    ∃ σ₀, Starts σ₀ ⟨p, sys'.phys⟩ := by
  obtain ⟨frame, σ₀, userSp, hown, hmade, hbase⟩ := tcbNew_makes hready hcall
  have haligned : p.baseSize % 4096 = 0 := by
    rw [hbase, hmade.userSp]
    exact userStackTop_aligned _
  have hlt : p.baseSize < 2 ^ 64 := by
    rw [hbase]
    omega
  exact ⟨σ₀, ⟨frame, hown.backs⟩, haligned, hlt, hmade.apart, fun ma hma vpn hc => hmade.covered hma hc⟩

/-- Calls that grow the task and return keep the invariant. -/
theorem Extends.call (hstart : Starts σ₀ start) (h : Extends σ₀ start st frame σ)
    (hg : RaisesBreak st addr) (hcall : BrkCall st addr ret st') :
    ∃ frame' σ', Extends σ₀ start st' frame' σ' := by
  have hunique : ∀ {t : RunningTask}, BrkCall st addr addr t → t = st' := by
    intro t ht
    have heq := Option.some.inj (ht.symm.trans hcall)
    cases t
    cases st'
    simp only [Prod.mk.injEq] at heq
    rw [heq.2.1, heq.2.2]
  by_cases heq : vaCeil st.task.baseSize = vaCeil addr
  · obtain ⟨t, ht, h', -⟩ := h.stay hstart hg heq
    exact ⟨frame, σ, hunique ht ▸ h'⟩
  · obtain ⟨hgrow, hcont⟩ := h.push hstart hg heq
    obtain ⟨t, frame', σ', ht, h', -⟩ := hgrow (hcont ⟨ret, st', hcall⟩)
    exact ⟨frame', σ', hunique ht ▸ h'⟩

/-- After any calls that grow the task, the next one does what is wanted exactly if it
continues behind the last page. -/
theorem sysBrk_run_iff {sym : KernelSymbols} {sstatus : Word} {sys sys' : ForkState}
    {p : TaskMemory} (hready : KernelReady sym.strampoline sys)
    (hnew : TaskMemory.tcbNew sym sstatus image sys = some (p, sys')) {calls : List (ℕ × ℕ)}
    (hrun : Run (fun st call st' => RaisesBreak st call.1 ∧ BrkCall st call.1 call.2 st')
      ⟨p, sys'.phys⟩ calls st) (hg : RaisesBreak st addr) :
    (∃ ret st', BrkCall st addr ret st' ∧ BrkLaws ⟨p, sys'.phys⟩ st addr ret st') ↔
      Continues ⟨p, sys'.phys⟩ st addr := by
  obtain ⟨σ₀, hstart⟩ := starts_of_tcbNew hready hnew
  obtain ⟨frame₀, hfirst⟩ := hstart.extends
  have hinv : ∃ frame σ, Extends σ₀ ⟨p, sys'.phys⟩ st frame σ := by
    refine hrun.invariant (I := fun st => ∃ frame σ, Extends σ₀ ⟨p, sys'.phys⟩ st frame σ) ?_
      ⟨frame₀, σ₀, hfirst⟩
    rintro st call st' ⟨frame, σ, h⟩ ⟨hg, hcall⟩
    exact h.call hstart hg hcall
  obtain ⟨frame, σ, h⟩ := hinv
  by_cases heq : vaCeil st.task.baseSize = vaCeil addr
  · obtain ⟨st', hcall, -, hlaws⟩ := h.stay hstart hg heq
    exact ⟨fun _ => Or.inl heq, fun _ => ⟨addr, st', hcall, hlaws⟩⟩
  · obtain ⟨hgrow, hcont⟩ := h.push hstart hg heq
    refine ⟨fun ⟨ret, st', hcall, _⟩ => hcont ⟨ret, st', hcall⟩, fun hc => ?_⟩
    obtain ⟨st', frame', σ', hcall, -, hlaws⟩ := hgrow hc
    exact ⟨addr, st', hcall, hlaws⟩

/-- A kernel without areas. -/
def bareKernel (pt : PageTable) (s : Physical) : ForkState := ⟨⟨pt, [], []⟩, pidInit, s⟩

def exampleSymbols : KernelSymbols := ⟨0x80020000, 0x80021000, 0x80022000⟩

theorem bareKernel_ready {pt : PageTable} {s : Physical} (hnew : ptNew freshPhysical = some (pt, s)) :
    KernelReady exampleSymbols.strampoline (bareKernel pt s) := by
  have hsound : Sound freshPhysical.frames := sound_init (by decide) _
  have hgrows := ptNew_grows hsound hnew
  have hstack : pidInit.pidAlloc.1.toNat * (kernelStackSize + pageSize) + kernelStackSize ≤
      trapContext := by decide
  refine ⟨(table_ptNew hsound hnew).1, hgrows.taken _ taken_freshPhysical, fun hin => ?_, hstack⟩
  exact (hgrows.fresh _ hin).elim id fun hnot => hnot taken_freshPhysical

/-- A page is added at the end of the stack. -/
theorem sysBrk_adds_page : ∃ pt s p sys', ptNew freshPhysical = some (pt, s) ∧
    TaskMemory.tcbNew exampleSymbols 0 (oneSegment 0x10000 4 4) (bareKernel pt s) =
      some (p, sys') ∧
    ∃ ret st', BrkCall ⟨p, sys'.phys⟩ 0x15001 ret st' ∧
      BrkLaws ⟨p, sys'.phys⟩ ⟨p, sys'.phys⟩ 0x15001 ret st' := by
  have heval : ((ptNew freshPhysical).bind fun x =>
      (TaskMemory.tcbNew exampleSymbols 0 (oneSegment 0x10000 4 4) (bareKernel x.1 x.2)).map
        fun y => (y.1.baseSize, decide (3 ≤ frameRemainSize y.2.phys.frames),
          pteFrame y.2.phys.mem y.1.memorySet.pageTable.rootPpn 0x15)) =
        some (0x15000, true, none) := by decide +kernel
  simp only [Option.bind_eq_some_iff, Option.map_eq_some_iff] at heval
  obtain ⟨⟨pt, s⟩, hpt, ⟨p, sys'⟩, hnew, heval⟩ := heval
  obtain ⟨hbase, heval⟩ := Prod.mk.inj heval
  obtain ⟨hframes, hfree⟩ := Prod.mk.inj heval
  dsimp only at hpt hnew hbase hframes hfree
  have hg : RaisesBreak ⟨p, sys'.phys⟩ 0x15001 := by
    refine ⟨hbase.trans_le (by decide), by decide, ?_⟩
    dsimp only
    rw [hbase]
    exact of_decide_eq_true hframes
  refine ⟨pt, s, p, sys', hpt, hnew, (sysBrk_run_iff (bareKernel_ready hpt) hnew (.done _) hg).mpr ?_⟩
  refine Or.inr ⟨by rw [hbase]; decide, fun vpn hlo hhi => ?_⟩
  dsimp only at hlo hhi ⊢
  rw [hbase] at hlo
  obtain rfl : vpn = 0x15 := le_antisymm (Nat.lt_succ_iff.mp hhi) hlo
  exact hfree

/-- From `base_size` 0x15001 one page more is asked for: the area begins with the page
that the call before mapped. -/
theorem sysBrk_unaligned_panics : ∃ pt s p sys' st, ptNew freshPhysical = some (pt, s) ∧
    TaskMemory.tcbNew exampleSymbols 0 (oneSegment 0x10000 4 4) (bareKernel pt s) =
      some (p, sys') ∧
    BrkCall ⟨p, sys'.phys⟩ 0x15001 0x15001 st ∧ RaisesBreak st 0x16001 ∧
    st.task.sysBrk st.phys 0x16001 = none := by
  have heval : ((ptNew freshPhysical).bind fun x =>
      (TaskMemory.tcbNew exampleSymbols 0 (oneSegment 0x10000 4 4) (bareKernel x.1 x.2)).bind
        fun y => (y.1.sysBrk y.2.phys 0x15001).map fun z => (z.1, z.2.1.baseSize,
          decide (3 ≤ frameRemainSize z.2.2.frames), (z.2.1.sysBrk z.2.2 0x16001).isNone)) =
        some (0x15001, 0x15001, true, true) := by decide +kernel
  simp only [Option.bind_eq_some_iff, Option.map_eq_some_iff] at heval
  obtain ⟨⟨pt, s⟩, hpt, ⟨p, sys'⟩, hnew, ⟨ret, task, phys⟩, hcall, heval⟩ := heval
  obtain ⟨rfl, heval⟩ := Prod.mk.inj heval
  obtain ⟨hbase, heval⟩ := Prod.mk.inj heval
  obtain ⟨hframes, hnone⟩ := Prod.mk.inj heval
  dsimp only at hpt hnew hcall hbase hframes hnone
  refine ⟨pt, s, p, sys', ⟨task, phys⟩, hpt, hnew, hcall, ⟨?_, by decide, ?_⟩,
    Option.isNone_iff_eq_none.mp hnone⟩
  · exact hbase.trans_le (by decide)
  · dsimp only
    rw [hbase]
    exact of_decide_eq_true hframes

end Invariant

end K210Os
