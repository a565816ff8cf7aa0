import K210Os.AddressSpace

/-!
# Loading a program

Pushing areas loads segments into the space that the address space stands for, and
`from_elf` loads those of its image. From the closed form of the loaded space it is
read off for which images every segment gets the bytes and the flags it asks for.
-/

namespace K210Os

open FrameAllocator PagedSpace

variable {pt pt' : PageTable} {s s₁ s' : Physical} {frame frame' : ℕ → ℕ} {σ σ' : UserSpace}
  {ms ms' : MemorySet} {image : ℕ → Byte} {strampoline : ℕ}

/-- The writes of the copy of `n` pages from `off` on. -/
def pageWrites (data : ℕ → Byte) : ℕ → ℕ → ℕ → List (ℕ × (ℕ → Byte))
  | 0, _, _ => []
  | n + 1, vpn, off => (pageKey vpn, fun k => data (off + k)) ::
      pageWrites data n (vpn + 1) (off + pageSize)

/-- The writes of `ms_push`: to one page for a small size, else to all of the area. -/
def pushWrites (ma : MapArea) (data : Option (ℕ → Byte)) (size : ℕ) : List (ℕ × (ℕ → Byte)) :=
  match data with
  | none => []
  | some data =>
      if size % 2 ^ 32 < pageSize then [(pageKey ma.vmStart, data)]
      else pageWrites data (ma.vmEnd - ma.vmStart) ma.vmStart 0

abbrev UserSegment := Segment ℕ ℕ (ℕ → Byte)

def areaSegment (ma : MapArea) (writes : List (ℕ × (ℕ → Byte))) : UserSegment :=
  ⟨areaKeys ma, areaFlags ma, writes⟩

theorem Backs.pushPages (h : Backs pt s frame σ) (data : ℕ → Byte) (n vpn off : ℕ) :
    Agrees 0 pt s frame σ (fun s' => (pt, s')) (fun _ => True)
      (K210Os.pushPages pt data n vpn off s) (writeKeys σ (pageWrites data n vpn off)) := by
  induction n generalizing vpn off s frame σ with
  | zero => exact Agrees.done h rfl trivial
  | succ n ih =>
      rw [K210Os.pushPages, pageWrites, writeKeys]
      exact (h.pushPage vpn _).bind fun s' frame' σ' _ hbacks _ => ih hbacks _ _

theorem Backs.pushData (h : Backs pt s frame σ) (ma : MapArea) (data : Option (ℕ → Byte))
    (size : ℕ) : Agrees 0 pt s frame σ (fun s' => (pt, s')) (fun _ => True)
      (K210Os.pushData pt ma data size s) (writeKeys σ (pushWrites ma data size)) := by
  unfold K210Os.pushData pushWrites
  cases data with
  | none => exact Agrees.done h rfl trivial
  | some data =>
      dsimp only
      split
      · rw [writeKeys]
        rw [← Option.bind_fun_some (x := K210Os.pushPage pt s ma.vmStart data)]
        refine (h.pushPage ma.vmStart data).bind (n := 0) (g := fun σ => writeKeys σ []) ?_
        exact fun s' frame' σ' _ hbacks _ => Agrees.done hbacks rfl trivial
      · exact h.pushPages data _ _ _

/-- `ms_push` loads a segment. -/
theorem Backs.msPush (h : Backs ms.pageTable s frame σ) {ma : MapArea}
    (hframed : ma.mapType = .framed) (hperm : ma.mapPerm < 256) (data : Option (ℕ → Byte))
    (size : ℕ) :
    Agrees (3 * (areaKeys ma).length) ms.pageTable s frame σ (fun x => (x.1.pageTable, x.2))
      (fun x => x.1.vma = ms.vma ∧ ∃ ma', SameArea ma ma' ∧ x.1.areas = ms.areas ++ [ma'])
      (K210Os.msPush ms s ma data size)
      (loadSegment zeroPage σ (areaSegment ma (pushWrites ma data size))) := by
  refine (h.maMap hframed hperm).bind (n := 0) ?_
  rintro ⟨ma', pt', s'⟩ frame' σ' hsame hbacks -
  have hwrites : pushWrites ma' data size = pushWrites ma data size := by
    have heq := congrArg (fun ma => pushWrites ma data size) hsame
    exact heq
  dsimp only
  rw [areaSegment, ← hwrites, bind_pure_comp, Option.map_eq_map]
  exact (hbacks.pushData ma' data size).map (fun _ => rfl) fun _ _ => ⟨rfl, ma', hsame, rfl⟩

/-! ## The segments of an image -/

def loadable (image : ℕ → Byte) : List Proghdr :=
  (proghdrs image).filter fun ph => ph.type = elfProgLoad

def proghdrSegment (image : ℕ → Byte) (ph : Proghdr) : UserSegment :=
  areaSegment (elfArea ph) (pushWrites (elfArea ph) (some fun k => image (ph.off + k)) ph.filesz)

/-- `max_end_vpn` behind the loop of `from_elf`. -/
def maxEndVpn (phs : List Proghdr) : ℕ := phs.foldl (fun _ ph => (elfArea ph).vmEnd) 0

/-- All that `from_elf` pushes. -/
def elfSegments (image : ℕ → Byte) : List UserSegment :=
  (loadable image).map (proghdrSegment image) ++
    [areaSegment (stackArea (maxEndVpn (loadable image))) [], areaSegment trapArea []]

theorem elfPerm_lt (ph : Proghdr) : elfPerm ph < 256 := by
  unfold elfPerm
  dsimp only
  split <;> split <;> split <;> decide

theorem fromElfLoop_filter (phs : List Proghdr) (n : ℕ) (ms : MemorySet) (s : Physical) :
    fromElfLoop image phs n ms s =
      fromElfLoop image (phs.filter fun ph => ph.type = elfProgLoad) n ms s := by
  induction phs generalizing n ms s with
  | nil => rfl
  | cons ph phs ih =>
      by_cases hload : ph.type = elfProgLoad
      · simp only [List.filter_cons, hload, decide_true, if_true, fromElfLoop, ih]
      · simp only [List.filter_cons, hload, decide_false, Bool.false_eq_true, if_false, fromElfLoop,
          ih]

def keyCount (segs : List UserSegment) : ℕ := (segs.flatMap Segment.keys).length

theorem Backs.fromElfLoop (h : Backs ms.pageTable s frame σ) (phs : List Proghdr) (n : ℕ)
    (hload : ∀ ph ∈ phs, ph.type = elfProgLoad) (hsizes : ∀ ph ∈ phs, ph.filesz ≤ ph.memsz) :
    Agrees (3 * keyCount (phs.map (proghdrSegment image))) ms.pageTable s frame σ
      (fun x => (x.2.1.pageTable, x.2.2))
      (fun x => x.1 = phs.foldl (fun _ ph => (elfArea ph).vmEnd) n ∧ x.2.1.vma = ms.vma ∧
        x.2.1.areas.map fromAnother = ms.areas.map fromAnother ++ phs.map elfArea)
      (K210Os.fromElfLoop image phs n ms s)
      (loadSegments zeroPage σ (phs.map (proghdrSegment image))) := by
  induction phs generalizing n ms s frame σ with
  | nil => exact Agrees.done h rfl ⟨rfl, rfl, by simp⟩
  | cons ph phs ih =>
      have hcount : 3 * keyCount ((ph :: phs).map (proghdrSegment image)) =
          3 * (areaKeys (elfArea ph)).length + 3 * keyCount (phs.map (proghdrSegment image)) := by
        rw [← Nat.mul_add]
        simp [keyCount, proghdrSegment, areaSegment]
      rw [K210Os.fromElfLoop, if_pos (hload ph (by simp)),
        if_neg (Nat.not_lt.mpr (hsizes ph (by simp))), hcount,
        List.map_cons (f := proghdrSegment image), loadSegments]
      refine (h.msPush rfl (elfPerm_lt ph) _ _).bind ?_
      rintro ⟨ms', s'⟩ frame' σ' ⟨hvma, ma', hsame, hareas⟩ hbacks -
      have hrest := ih hbacks (elfArea ph).vmEnd
        (fun ph h => hload ph (List.mem_cons_of_mem _ h))
        fun ph h => hsizes ph (List.mem_cons_of_mem _ h)
      refine hrest.imp ?_
      rintro ⟨m, ms₂, s₂⟩ ⟨hm, hvma₂, hareas₂⟩
      refine ⟨hm, hvma₂.trans hvma, ?_⟩
      rw [hareas₂, hareas, List.map_append, List.map_singleton, hsame, List.append_assoc]
      rfl

/-- What `from_elf` does once the trampoline is mapped. -/
theorem Backs.fromElf (h : Backs ms.pageTable s frame σ) (hareas : ms.areas = [])
    (hsizes : ∀ ph ∈ loadable image, ph.filesz ≤ ph.memsz) :
    Agrees (3 * keyCount (elfSegments image)) ms.pageTable s frame σ
      (fun x : MemorySet × ℕ × ℕ × Physical => (x.1.pageTable, x.2.2.2))
      (fun x => x.1.vma = ms.vma ∧ x.1.areas.map fromAnother = (loadable image).map elfArea ++
          [stackArea (maxEndVpn (loadable image)), trapArea] ∧
        x.2.1 = userStackTop (maxEndVpn (loadable image)) ∧ x.2.2.1 = elfEntry image)
      (do
        let (maxEndVpn, ms, s) ← K210Os.fromElfLoop image (proghdrs image) 0 ms s
        let (ms, s) ← K210Os.msPush ms s (stackArea maxEndVpn) none 0
        let (ms, s) ← K210Os.msPush ms s trapArea none 0
        return (ms, userStackTop maxEndVpn, elfEntry image, s))
      (loadSegments zeroPage σ (elfSegments image)) := by
  obtain ⟨stack, hstack⟩ : ∃ stack, stackArea (maxEndVpn (loadable image)) = stack := ⟨_, rfl⟩
  have hcount : 3 * keyCount (elfSegments image) =
      3 * keyCount ((loadable image).map (proghdrSegment image)) +
        (3 * (areaKeys stack).length + 3 * (areaKeys trapArea).length) := by
    rw [← Nat.mul_add, ← Nat.mul_add, ← hstack]
    simp [keyCount, elfSegments, areaSegment]
  rw [hcount, elfSegments, loadSegments_append, fromElfLoop_filter]
  refine (h.fromElfLoop (loadable image) 0 ?_ hsizes).bind ?_
  · intro ph hph
    simpa using (List.mem_filter.mp hph).2
  · rintro ⟨n, ms₁, s₁⟩ frame₁ σ₁ ⟨hn, hvma₁, hareas₁⟩ hbacks₁ -
    dsimp only at hn hvma₁ hareas₁ hbacks₁ ⊢
    rw [show n = maxEndVpn (loadable image) from hn, hstack]
    have hframed : stack.mapType = .framed := by rw [← hstack]; rfl
    have hperm : stack.mapPerm < 256 := by
      rw [← hstack]
      exact show vmR ||| vmW ||| vmU < 256 by decide
    refine (hbacks₁.msPush hframed hperm none 0).bind ?_
    rintro ⟨ms₂, s₂⟩ frame₂ σ₂ ⟨hvma₂, ma, hma, hareas₂⟩ hbacks₂ -
    dsimp only at hvma₂ hareas₂ hbacks₂ ⊢
    have htrap : trapArea.mapPerm < 256 := by decide
    have hlast := @Backs.msPush _ _ _ _ hbacks₂ trapArea rfl htrap none 0
    have hone : loadSegments zeroPage σ₂ [areaSegment trapArea []] =
        loadSegment zeroPage σ₂ (areaSegment trapArea []) := by
      simp [loadSegments]
    rw [bind_pure_comp, Option.map_eq_map, hone]
    refine hlast.map (fun _ => rfl) ?_
    rintro ⟨ms₃, s₃⟩ ⟨hvma₃, ma', hma', hareas₃⟩
    dsimp only at hvma₃ hareas₃ ⊢
    refine ⟨hvma₃.trans (hvma₂.trans hvma₁), ?_, rfl, rfl⟩
    rw [hareas₃, hareas₂, List.map_append, List.map_append, hareas₁, hareas]
    rw [SameArea] at hma hma'
    simp only [List.map_nil, List.nil_append, List.map_singleton, hma, hma', List.append_assoc,
      List.cons_append]
    rw [← hstack]
    rfl

/-- What `from_elf` returns stands for the space its segments load; it only fails when
they do not load, or the frames run out. -/
theorem fromElf_cases (hsound : Sound s.frames) (hold : Taken s.frames (pa2ppn strampoline))
    (hsizes : ∀ ph ∈ loadable image, ph.filesz ≤ ph.memsz) :
    (fromElf strampoline image s = none ∧
      (loadSegments zeroPage (trampolineSpace s strampoline) (elfSegments image) = none ∨
        frameRemainSize s.frames < 3 + 3 * keyCount (elfSegments image))) ∨
    ∃ ms s' frame σ, fromElf strampoline image s =
        some (ms, userStackTop (maxEndVpn (loadable image)), elfEntry image, s') ∧
      loadSegments zeroPage (trampolineSpace s strampoline) (elfSegments image) = some σ ∧
      ms.vma = [] ∧ ms.areas.map fromAnother = (loadable image).map elfArea ++
        [stackArea (maxEndVpn (loadable image)), trapArea] ∧
      Backs ms.pageTable s' frame σ ∧ frame trampolineKey = pa2ppn strampoline ∧
      Grows (3 + 3 * keyCount (elfSegments image)) s (· = pa2ppn strampoline) s'
        (SpaceFrame ms.pageTable frame σ) := by
  have hsplit : ∀ (f : MemorySet → Physical → Option (MemorySet × ℕ × ℕ × Physical)),
      ((msInit s).bind fun x => (msMapTrampoline strampoline x.1 x.2).bind fun y => f y.1 y.2) =
        ((msInit s).bind fun x => msMapTrampoline strampoline x.1 x.2).bind fun y => f y.1 y.2 := by
    intro f
    rw [Option.bind_assoc]
  have hcall := hsplit fun ms s => do
    let (maxEndVpn, ms, s) ← fromElfLoop image (proghdrs image) 0 ms s
    let (ms, s) ← msPush ms s (stackArea maxEndVpn) none 0
    let (ms, s) ← msPush ms s trapArea none 0
    return (ms, userStackTop maxEndVpn, elfEntry image, s)
  change fromElf strampoline image s = _ at hcall
  rw [hcall]
  rcases backs_trampoline hsound hold with
    ⟨hfew, hnone⟩ | ⟨ms, s₁, frame, hsome, hvma, hareas, hbacks, hframe, hgrows⟩
  · left
    exact ⟨by rw [hnone]; rfl, Or.inr (by omega)⟩
  · rw [hsome, Option.bind_some]
    rcases hbacks.fromElf hareas hsizes with
      ⟨hnone, hor⟩ | ⟨⟨ms', usp, ent, s'⟩, frame', σ', hsome', hload,
        ⟨hvma', hareas', husp, hent⟩, hbacks', hgrows', hkeeps⟩
    · left
      have hremain := hgrows.remain
      refine ⟨hnone, hor.imp_right fun hlt => ?_⟩
      calc frameRemainSize s.frames ≤ frameRemainSize s₁.frames + 3 := hremain
        _ < 3 * keyCount (elfSegments image) + 3 := Nat.add_lt_add_right hlt 3
        _ = 3 + 3 * keyCount (elfSegments image) := Nat.add_comm _ _
    · right
      dsimp only at husp hent
      rw [husp, hent] at hsome'
      have hkey : trampolineSpace s strampoline trampolineKey ≠ none :=
        (trampolineSpace_ne_none_iff s strampoline trampolineKey).mpr (by simp)
      exact ⟨ms', s', frame', σ', hsome', hload, hvma'.trans hvma, hareas', hbacks',
        (hkeeps _ hkey).2.trans hframe, hgrows.trans hgrows'⟩

/-! ## What a loaded program gets -/

/-- The byte that user code finds at an address. -/
def userByte (pt : PageTable) (mem : Memory) (va : ℕ) : Option Byte :=
  (translation mem pt.rootPpn (va2vpn va)).map fun p => mem (ppn2pa p.1 + getOffset va)

/-- The flags of a page are U and those of the program header. -/
def CarriesFlags (flags : ℕ) (ph : Proghdr) : Prop :=
  flags &&& pteU ≠ 0 ∧ (flags &&& pteR ≠ 0 ↔ ph.flags &&& elfProgFlagRead ≠ 0) ∧
    (flags &&& pteW ≠ 0 ↔ ph.flags &&& elfProgFlagWrite ≠ 0) ∧
    (flags &&& pteX ≠ 0 ↔ ph.flags &&& elfProgFlagExec ≠ 0)

/-- Every segment has its bytes and its flags, and neither the stack nor the trap
context lies on one of its pages. -/
structure Loaded (image : ℕ → Byte) (ms : MemorySet) (usp : ℕ) (s : Physical) : Prop where
  bytes : ∀ ph ∈ loadable image, ∀ i < ph.memsz, userByte ms.pageTable s.mem (ph.vaddr + i) =
    some (if i < ph.filesz then image (ph.off + i) else 0)
  flags : ∀ ph ∈ loadable image, ∀ vpn, vaFloor ph.vaddr ≤ vpn →
    vpn < vaCeil (ph.vaddr + ph.memsz) → ∃ ppn flags,
      translation s.mem ms.pageTable.rootPpn vpn = some (ppn, flags) ∧ CarriesFlags flags ph
  usp_eq : usp = userStackTop (maxEndVpn (loadable image))
  apart : ∃ segments stack trap, ms.areas = segments ++ [stack, trap] ∧
    fromAnother stack = stackArea (maxEndVpn (loadable image)) ∧ fromAnother trap = trapArea ∧
    ∀ ph ∈ loadable image, (areaKeys (elfArea ph)).Disjoint (areaKeys stack) ∧
      (areaKeys (elfArea ph)).Disjoint (areaKeys trap)

/-- The byte at an address in the page that was copied there last. -/
def loadedByte (image : ℕ → Byte) (va : ℕ) : Byte :=
  ((lastWrite ((elfSegments image).flatMap Segment.writes) (pageKey (va2vpn va))).getD zeroPage)
    (getOffset va)

/-- No page comes twice, a segment without pages begins on a page that is mapped
already, and the whole pages that are copied put the right bytes in place. -/
structure ElfFits (image : ℕ → Byte) : Prop where
  nodup : (trampolineKey :: (elfSegments image).flatMap Segment.keys).Nodup
  mapped : WritesMapped [trampolineKey] (elfSegments image)
  bytes : ∀ ph ∈ loadable image, ∀ i < ph.memsz,
    loadedByte image (ph.vaddr + i) = if i < ph.filesz then image (ph.off + i) else 0

theorem carriesFlags_elfArea (ph : Proghdr) : CarriesFlags (areaFlags (elfArea ph)) ph := by
  change CarriesFlags (elfPerm ph ||| pteV) ph
  unfold CarriesFlags elfPerm
  dsimp only
  generalize ph.flags &&& elfProgFlagExec = x
  generalize ph.flags &&& elfProgFlagRead = r
  generalize ph.flags &&& elfProgFlagWrite = w
  by_cases hx : x = 0 <;> by_cases hr : r = 0 <;> by_cases hw : w = 0 <;>
    simp only [hx, hr, hw, ne_eq, not_true_eq_false, not_false_eq_true, if_true, if_false,
      iff_true, iff_false] <;> decide

/-- The pages of a segment that lies below the trap context. -/
theorem pageKey_mem_elfArea {ph : Proghdr} {vpn : ℕ} (hbelow : ph.vaddr + ph.memsz ≤ trapContext)
    (hlo : vaFloor ph.vaddr ≤ vpn) (hhi : vpn < vaCeil (ph.vaddr + ph.memsz)) :
    pageKey vpn ∈ areaKeys (elfArea ph) := by
  have hlt : ph.vaddr + ph.memsz < 2 ^ 64 := hbelow.trans_lt (by decide)
  have hend : (elfArea ph).vmEnd = vaCeil (ph.vaddr + ph.memsz) := by
    change vaCeil ((ph.vaddr + ph.memsz) % 2 ^ 64) = _
    rw [Nat.mod_eq_of_lt hlt]
  have hstart : (elfArea ph).vmStart = vaFloor ph.vaddr := rfl
  rw [areaKeys, mem_pageKeys, hend, hstart]
  exact ⟨vpn, hlo, by omega, rfl⟩

theorem page_of_byte {ph : Proghdr} {i : ℕ} (hbelow : ph.vaddr + ph.memsz ≤ trapContext)
    (hi : i < ph.memsz) : vaFloor ph.vaddr ≤ va2vpn (ph.vaddr + i) ∧
      va2vpn (ph.vaddr + i) < vaCeil (ph.vaddr + ph.memsz) := by
  have htrap : trapContext = 2 ^ 64 - 8192 := by decide
  rw [htrap] at hbelow
  constructor
  · change ph.vaddr / 4096 ≤ (ph.vaddr + i) / 4096
    omega
  · change (ph.vaddr + i) / 4096 < (ph.vaddr + ph.memsz + 4096 - 1) % 2 ^ 64 / 4096
    omega

theorem mem_elfSegments {ph : Proghdr} (hph : ph ∈ loadable image) :
    proghdrSegment image ph ∈ elfSegments image :=
  List.mem_append_left _ (List.mem_map_of_mem hph)

section
variable {b : UserSpace} {ph : Proghdr} {i vpn : ℕ}

/-- What the loaded space holds at a page of a segment. -/
theorem loaded_segment (hfits : (trampolineKey :: (elfSegments image).flatMap Segment.keys).Nodup)
    (hph : ph ∈ loadable image) (hkey : pageKey vpn ∈ areaKeys (elfArea ph)) :
    loaded zeroPage (trampolineSpace s strampoline) (elfSegments image) (pageKey vpn) =
      some (areaFlags (elfArea ph),
        (lastWrite ((elfSegments image).flatMap Segment.writes) (pageKey vpn)).getD zeroPage) := by
  obtain ⟨hnot, hnodup⟩ := List.nodup_cons.mp hfits
  have hmem := mem_elfSegments hph
  refine loaded_of_mem hnodup hmem hkey ?_
  rw [trampolineSpace, if_neg]
  rintro heq
  exact hnot (heq ▸ List.mem_flatMap.mpr ⟨_, hmem, hkey⟩)

theorem userByte_eq
    (hbacks : Backs pt s' frame (loaded zeroPage (trampolineSpace s strampoline)
      (elfSegments image)))
    (hfits : (trampolineKey :: (elfSegments image).flatMap Segment.keys).Nodup)
    (hph : ph ∈ loadable image) (hbelow : ph.vaddr + ph.memsz ≤ trapContext)
    (hi : i < ph.memsz) :
    userByte pt s'.mem (ph.vaddr + i) = some (loadedByte image (ph.vaddr + i)) := by
  obtain ⟨hlo, hhi⟩ := page_of_byte hbelow hi
  have hseg := @loaded_segment s image strampoline _ _ hfits hph
    (pageKey_mem_elfArea hbelow hlo hhi)
  have hmapped := hbacks.taken (pageKey (va2vpn (ph.vaddr + i)))
    (by rw [hseg]; exact Option.some_ne_none _)
  have hlt := hbacks.table.sound.taken_lt hmapped
  have hoff : getOffset (ph.vaddr + i) < 4096 := by
    rw [getOffset_eq]
    exact Nat.mod_lt _ (by decide)
  rw [userByte, hbacks.lookup, hseg, Option.map_some, Option.map_some, Option.some.injEq,
    ppn2pa_eq (by omega), hbacks.bytes _ _ hseg _ hoff]
  rfl

end

theorem mem_pageWrites {data : ℕ → Byte} {n vpn off : ℕ} {w : ℕ × (ℕ → Byte)} :
    w ∈ pageWrites data n vpn off ↔
      ∃ j < n, w = (pageKey (vpn + j), fun k => data (off + 4096 * j + k)) := by
  induction n generalizing vpn off with
  | zero => simp [pageWrites]
  | succ n ih =>
      rw [pageWrites, List.mem_cons, ih, pageSize]
      constructor
      · rintro (rfl | ⟨j, hj, rfl⟩)
        · exact ⟨0, by omega, rfl⟩
        · refine ⟨j + 1, by omega, ?_⟩
          rw [show vpn + 1 + j = vpn + (j + 1) by omega,
            show off + 4096 + 4096 * j = off + 4096 * (j + 1) by omega]
      · rintro ⟨j, hj, rfl⟩
        cases j with
        | zero => exact Or.inl rfl
        | succ j =>
            refine Or.inr ⟨j, by omega, ?_⟩
            rw [show vpn + 1 + j = vpn + (j + 1) by omega,
              show off + 4096 + 4096 * j = off + 4096 * (j + 1) by omega]

theorem pageKey_inj {n vpn i j : ℕ} (hnodup : (pageKeys vpn n).Nodup) (hi : i < n) (hj : j < n)
    (heq : pageKey (vpn + i) = pageKey (vpn + j)) : i = j := by
  rw [pageKeys, List.nodup_map_iff_inj_on (List.nodup_range' 1)] at hnodup
  have hsame := hnodup (vpn + i) (by rw [List.mem_range'_1]; omega) (vpn + j)
    (by rw [List.mem_range'_1]; omega) heq
  omega

/-- A segment with pages writes to these only. -/
theorem write_mem_keys {ph : Proghdr} (hpages : areaKeys (elfArea ph) ≠ [])
    {w : ℕ × (ℕ → Byte)} (hw : w ∈ (proghdrSegment image ph).writes) :
    w.1 ∈ areaKeys (elfArea ph) := by
  have hpos : 0 < (elfArea ph).vmEnd - (elfArea ph).vmStart := by
    have hlen := List.length_pos_iff.mpr hpages
    rwa [areaKeys, pageKeys, List.length_map, List.length_range'] at hlen
  rw [areaKeys, mem_pageKeys]
  simp only [proghdrSegment, areaSegment, pushWrites] at hw
  split at hw
  · rw [List.mem_singleton] at hw
    exact ⟨_, le_rfl, by omega, by rw [hw]⟩
  · obtain ⟨j, hj, rfl⟩ := mem_pageWrites.mp hw
    exact ⟨_, by omega, by omega, rfl⟩

/-- A page of a segment is written by this segment only. -/
theorem write_of_key {ph : Proghdr} {k : ℕ}
    (hnodup : ((elfSegments image).flatMap Segment.keys).Nodup)
    (hpages : ∀ ph ∈ loadable image, areaKeys (elfArea ph) ≠ []) (hph : ph ∈ loadable image)
    (hk : k ∈ areaKeys (elfArea ph)) {w : ℕ × (ℕ → Byte)}
    (hw : w ∈ (elfSegments image).flatMap Segment.writes) (hwk : w.1 = k) :
    w ∈ (proghdrSegment image ph).writes := by
  obtain ⟨seg, hseg, hw⟩ := List.mem_flatMap.mp hw
  have hkey : k ∈ seg.keys := by
    rcases List.mem_append.mp hseg with hin | hin
    · obtain ⟨ph', hph', rfl⟩ := List.mem_map.mp hin
      exact hwk ▸ write_mem_keys (hpages ph' hph') hw
    · simp only [List.mem_cons, List.not_mem_nil, or_false] at hin
      rcases hin with rfl | rfl <;> simp [areaSegment] at hw
  have hsame := (find_segment hnodup hseg hkey).symm.trans
    (find_segment hnodup (mem_elfSegments hph) hk)
  exact Option.some.inj hsame ▸ hw

/-- Where all segments have pages, a segment is copied in whole pages to the beginning
of its first page: its bytes are those from the offset on, shifted by the offset of its
address in the page, and only the first page is copied when the size is below a page. -/
theorem loadedByte_eq {ph : Proghdr} {i : ℕ}
    (hfits : (trampolineKey :: (elfSegments image).flatMap Segment.keys).Nodup)
    (hpages : ∀ ph ∈ loadable image, areaKeys (elfArea ph) ≠ []) (hph : ph ∈ loadable image)
    (hbelow : ph.vaddr + ph.memsz ≤ trapContext) (hi : i < ph.memsz) :
    loadedByte image (ph.vaddr + i) =
      if ph.filesz % 2 ^ 32 < 4096 ∧ 4096 ≤ ph.vaddr % 4096 + i then 0
      else image (ph.off + (ph.vaddr % 4096 + i)) := by
  obtain ⟨-, hnodup⟩ := List.nodup_cons.mp hfits
  obtain ⟨hlo, hhi⟩ := page_of_byte hbelow hi
  have hkey := pageKey_mem_elfArea hbelow hlo hhi
  obtain ⟨n, hn⟩ : ∃ n, (elfArea ph).vmEnd - (elfArea ph).vmStart = n := ⟨_, rfl⟩
  obtain ⟨j, hj⟩ : ∃ j, (ph.vaddr % 4096 + i) / 4096 = j := ⟨_, rfl⟩
  have hstart : (elfArea ph).vmStart = ph.vaddr / 4096 := rfl
  have hpage : va2vpn (ph.vaddr + i) = (elfArea ph).vmStart + j := by
    change (ph.vaddr + i) / 4096 = ph.vaddr / 4096 + j
    omega
  have hoff : getOffset (ph.vaddr + i) = ph.vaddr % 4096 + i - 4096 * j := by
    rw [getOffset_eq]
    omega
  have hown : (areaKeys (elfArea ph)).Nodup :=
    (List.nodup_flatMap.mp hnodup).1 _ (mem_elfSegments hph)
  rw [areaKeys, hn] at hown
  have hjn : j < n := by
    have hend : (elfArea ph).vmEnd = vaCeil (ph.vaddr + ph.memsz) := by
      change vaCeil ((ph.vaddr + ph.memsz) % 2 ^ 64) = _
      rw [Nat.mod_eq_of_lt (hbelow.trans_lt (by decide))]
    omega
  have hall : ∀ {w : ℕ × (ℕ → Byte)}, w ∈ (elfSegments image).flatMap Segment.writes →
      w.1 = pageKey (va2vpn (ph.vaddr + i)) → w ∈ (proghdrSegment image ph).writes :=
    fun hw hwk => write_of_key hnodup hpages hph hkey hw hwk
  have hin : ∀ {w : ℕ × (ℕ → Byte)}, w ∈ (proghdrSegment image ph).writes →
      w ∈ (elfSegments image).flatMap Segment.writes := fun hw =>
    List.mem_flatMap.mpr ⟨_, mem_elfSegments hph, hw⟩
  rw [loadedByte, hoff]
  rw [hpage] at hall ⊢
  simp only [proghdrSegment, areaSegment, pushWrites, hn, pageSize] at hall hin
  by_cases hsmall : ph.filesz % 2 ^ 32 < 4096
  · simp only [hsmall, if_true, List.mem_singleton] at hall hin
    by_cases hfirst : j = 0
    · rw [if_neg (by omega)]
      rw [hfirst, Nat.add_zero] at hall ⊢
      rw [lastWrite_eq_some (hin rfl) fun w hw hwk => ?_]
      · rw [Option.getD_some, Nat.mul_zero, Nat.sub_zero]
      · rw [hall hw hwk]
    · rw [if_pos ⟨hsmall, by omega⟩, lastWrite_eq_none fun w hw hwk => ?_]
      · rfl
      · have hwk' := hwk
        rw [hall hw hwk] at hwk'
        exact hfirst (pageKey_inj hown (i := 0) (by omega) hjn hwk').symm
  · simp only [hsmall, if_false] at hall hin
    rw [if_neg (fun h => hsmall h.1), lastWrite_eq_some
      (hin (mem_pageWrites.mpr ⟨j, hjn, rfl⟩)) fun w hw hwk => ?_]
    · rw [Option.getD_some]
      congr 1
      omega
    · obtain ⟨j', hj', rfl⟩ := mem_pageWrites.mp (hall hw hwk)
      rw [pageKey_inj hown hj' hjn hwk]

/-- Where `from_elf` delivers what the segments ask for, the image fits. -/
theorem Loaded.fits (hsound : Sound s.frames) (hold : Taken s.frames (pa2ppn strampoline))
    (hsizes : ∀ ph ∈ loadable image, ph.filesz ≤ ph.memsz)
    (hbelow : ∀ ph ∈ loadable image, ph.vaddr + ph.memsz ≤ trapContext) {usp entry : ℕ}
    (hcall : fromElf strampoline image s = some (ms, usp, entry, s'))
    (h : Loaded image ms usp s') : ElfFits image := by
  rcases fromElf_cases hsound hold hsizes with
    ⟨hnone, -⟩ | ⟨ms₁, s₁, frame, σ, hsome, hload, -, -, hbacks, -, -⟩
  · rw [hnone] at hcall
    contradiction
  · rw [hsome, Option.some.injEq, Prod.mk.injEq, Prod.mk.injEq, Prod.mk.injEq] at hcall
    obtain ⟨rfl, -, -, rfl⟩ := hcall
    obtain ⟨hnodup, hnew, hmapped, rfl⟩ := (loadSegments_eq_some_iff
      (trampolineSpace_ne_none_iff s strampoline)).mp hload
    have hfits : (trampolineKey :: (elfSegments image).flatMap Segment.keys).Nodup :=
      List.nodup_cons.mpr ⟨fun hin => hnew _ hin (by simp), hnodup⟩
    refine ⟨hfits, hmapped, fun ph hph i hi => ?_⟩
    have hbyte := h.bytes ph hph i hi
    rw [userByte_eq hbacks hfits hph (hbelow ph hph) hi] at hbyte
    exact Option.some.inj hbyte

/-- An image that fits is loaded when there are frames enough. -/
theorem ElfFits.loaded (h : ElfFits image) (hsound : Sound s.frames)
    (hold : Taken s.frames (pa2ppn strampoline))
    (hsizes : ∀ ph ∈ loadable image, ph.filesz ≤ ph.memsz)
    (hbelow : ∀ ph ∈ loadable image, ph.vaddr + ph.memsz ≤ trapContext)
    (hframes : 3 + 3 * keyCount (elfSegments image) ≤ frameRemainSize s.frames) :
    ∃ ms usp entry s', fromElf strampoline image s = some (ms, usp, entry, s') ∧
      Loaded image ms usp s' := by
  obtain ⟨hnot, hnodup⟩ := List.nodup_cons.mp h.nodup
  have hload : loadSegments zeroPage (trampolineSpace s strampoline) (elfSegments image) =
      some (PagedSpace.loaded zeroPage (trampolineSpace s strampoline) (elfSegments image)) := by
    refine (loadSegments_eq_some_iff (trampolineSpace_ne_none_iff s strampoline)).mpr
      ⟨hnodup, fun k hk hin => ?_, h.mapped, rfl⟩
    exact hnot (List.mem_singleton.mp hin ▸ hk)
  rcases fromElf_cases hsound hold hsizes with
    ⟨-, hnone | hfew⟩ | ⟨ms, s', frame, σ, hsome, hload', -, hareas, hbacks, -, -⟩
  · rw [hload] at hnone
    contradiction
  · omega
  · obtain rfl := Option.some.inj (hload'.symm.trans hload)
    refine ⟨ms, _, _, s', hsome, ?_, ?_, rfl, ?_⟩
    · intro ph hph i hi
      rw [userByte_eq hbacks h.nodup hph (hbelow ph hph) hi, h.bytes ph hph i hi]
    · intro ph hph vpn hlo hhi
      have hkey := pageKey_mem_elfArea (hbelow ph hph) hlo hhi
      refine ⟨frame (pageKey vpn), areaFlags (elfArea ph), ?_, carriesFlags_elfArea ph⟩
      rw [hbacks.lookup, loaded_segment h.nodup hph hkey]
      rfl
    · obtain ⟨segments, rest, hsplit, hsegments, hrest⟩ := List.map_eq_append_iff.mp hareas
      obtain ⟨stack, rest, rfl, hstack, hrest⟩ := List.map_eq_cons_iff.mp hrest
      obtain ⟨trap, rest, rfl, htrap, hrest⟩ := List.map_eq_cons_iff.mp hrest
      obtain rfl := List.map_eq_nil_iff.mp hrest
      refine ⟨segments, stack, trap, hsplit, hstack, htrap, fun ph hph => ?_⟩
      have hkeys : ∀ ma, areaKeys ma = areaKeys (fromAnother ma) := fun _ => rfl
      rw [hkeys stack, hkeys trap, hstack, htrap]
      rw [elfSegments, List.flatMap_append, List.nodup_append'] at hnodup
      obtain ⟨-, -, hdisj⟩ := hnodup
      have hmem : ∀ k ∈ areaKeys (elfArea ph),
          k ∈ ((loadable image).map (proghdrSegment image)).flatMap Segment.keys := fun k hk =>
        List.mem_flatMap.mpr ⟨_, List.mem_map_of_mem hph, hk⟩
      constructor
      · exact fun k hk hin => hdisj (hmem k hk) (by simp [areaSegment, hin])
      · exact fun k hk hin => hdisj (hmem k hk) (by simp [areaSegment, hin])

instance : Decidable (ElfFits image) :=
  decidable_of_iff ((trampolineKey :: (elfSegments image).flatMap Segment.keys).Nodup ∧
      WritesMapped [trampolineKey] (elfSegments image) ∧ ∀ ph ∈ loadable image, ∀ i < ph.memsz,
        loadedByte image (ph.vaddr + i) = if i < ph.filesz then image (ph.off + i) else 0)
    ⟨fun ⟨hnodup, hmapped, hbytes⟩ => ⟨hnodup, hmapped, hbytes⟩,
      fun ⟨hnodup, hmapped, hbytes⟩ => ⟨hnodup, hmapped, hbytes⟩⟩

/-- `from_elf` delivers what the segments of an image ask for exactly when the image
fits. -/
theorem fromElf_loads_iff (hsound : Sound s.frames) (hold : Taken s.frames (pa2ppn strampoline))
    (hsizes : ∀ ph ∈ loadable image, ph.filesz ≤ ph.memsz)
    (hbelow : ∀ ph ∈ loadable image, ph.vaddr + ph.memsz ≤ trapContext)
    (hframes : 3 + 3 * keyCount (elfSegments image) ≤ frameRemainSize s.frames) :
    (∃ ms usp entry s', fromElf strampoline image s = some (ms, usp, entry, s') ∧
      Loaded image ms usp s') ↔ ElfFits image := by
  constructor
  · rintro ⟨ms, usp, entry, s', hcall, hloaded⟩
    exact hloaded.fits hsound hold hsizes hbelow hcall
  · intro hfits
    exact hfits.loaded hsound hold hsizes hbelow hframes

/-- An image with one segment, behind whose headers byte `a` is `a` itself. -/
def oneSegment (vaddr filesz memsz : ℕ) : ℕ → Byte :=
  let image : ℕ → Byte := fun a => BitVec.ofNat 8 a
  let image := LittleEndian.store image 32 8 64
  let image := LittleEndian.store image 56 2 1
  let image := LittleEndian.store image 64 4 elfProgLoad
  let image := LittleEndian.store image 68 4 elfProgFlagRead
  let image := LittleEndian.store image 72 8 0x1001
  let image := LittleEndian.store image 80 8 vaddr
  let image := LittleEndian.store image 96 8 filesz
  LittleEndian.store image 104 8 memsz

theorem taken_freshPhysical : Taken freshPhysical.frames (pa2ppn 0x80020000) :=
  ⟨by decide, by simp [freshPhysical, frameAllocatorInit, MaxHeap.elements, heapInit]⟩

/-- A segment at the beginning of a page is loaded. -/
theorem fromElf_loads_aligned : ∃ ms usp entry s',
    fromElf 0x80020000 (oneSegment 0x10000 4 4) freshPhysical = some (ms, usp, entry, s') ∧
      Loaded (oneSegment 0x10000 4 4) ms usp s' :=
  (fromElf_loads_iff (sound_init (by decide) _) taken_freshPhysical (by decide +kernel)
    (by decide +kernel) (by decide +kernel)).mpr (by decide +kernel)

/-- A segment inside a page is shifted. -/
theorem fromElf_shifts_unaligned :
    (∀ ph ∈ loadable (oneSegment 0x10010 4 4), ph.filesz ≤ ph.memsz ∧
      ph.off + ph.filesz ≤ 0x1005 ∧ ph.vaddr + ph.memsz ≤ trapContext) ∧
    (loadable (oneSegment 0x10010 4 4)).Pairwise (fun ph ph' => ph.vaddr + ph.memsz ≤ ph'.vaddr) ∧
    3 + 3 * keyCount (elfSegments (oneSegment 0x10010 4 4)) ≤
      frameRemainSize freshPhysical.frames ∧
    ¬ ∃ ms usp entry s',
      fromElf 0x80020000 (oneSegment 0x10010 4 4) freshPhysical = some (ms, usp, entry, s') ∧
        Loaded (oneSegment 0x10010 4 4) ms usp s' := by
  refine ⟨by decide +kernel, by decide +kernel, by decide +kernel, ?_⟩
  rintro ⟨ms, usp, entry, s', hcall, hloaded⟩
  have hfits := hloaded.fits (sound_init (by decide) _) taken_freshPhysical (by decide +kernel)
    (by decide +kernel) hcall
  revert hfits
  decide +kernel

end K210Os
