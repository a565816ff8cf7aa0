import K210Os.Address
import K210Os.MaxHeap
import K210Os.Transition
import Mathlib.Order.Interval.Multiset
import Mathlib.Order.Interval.Finset.Nat

/-!
# The allocator of physical page frames

Frames below `current` have been handed out at least once; those given back since
are in the max-heap, except that a free frame directly below `current` lowers
`current` instead. `none` is a panic.
-/

namespace K210Os

open Transition

/-- `struct FrameAllocator`, less its lock and bitmap, which no function uses. -/
structure FrameAllocator where
  current : ℕ
  end_ : ℕ
  recycled : MaxHeap

/-- `base` is the memory that `heap_init` gets for the heap. -/
def frameAllocatorInit (ekernel : ℕ) (base : ℕ → ℕ) : FrameAllocator :=
  let current := paCeil ((ekernel + pageSize) % 2 ^ 64)
  let end_ := paFloor memoryEnd
  let pageNums := (end_ + 2 ^ 64 - current) % 2 ^ 64
  { current := current, end_ := end_, recycled := heapInit base pageNums }

namespace FrameAllocator

/-- A recycled frame is taken from the last cell of the heap. -/
def frameAlloc (self : FrameAllocator) : Option (ℕ × FrameAllocator) :=
  if !self.recycled.heapEmpty then
    let t := self.recycled.heapArray (self.recycled.currentSize - 1)
    some (t, { self with
      recycled := { self.recycled with currentSize := self.recycled.currentSize - 1 } })
  else if self.current = self.end_ then none
  else
    let current := (self.current + 1) % 2 ^ 64
    some ((current + 2 ^ 64 - 1) % 2 ^ 64, { self with current := current })

/-- The frontier moves down while the greatest recycled frame is next to it. Every
round removes an element, and `heap_removeMax` panics on an empty heap. -/
def frameDeallocLoop : ℕ → FrameAllocator → Option FrameAllocator
  | fuel, self =>
      if self.recycled.heapTop = (self.current + 2 ^ 64 - 1) % 2 ^ 64 then
        match fuel, self.recycled.heapRemoveMax with
        | _, none => none
        | 0, some _ => none
        | fuel + 1, some recycled =>
            frameDeallocLoop fuel
              { self with
                recycled := recycled, current := (self.current + 2 ^ 64 - 1) % 2 ^ 64 }
      else some self

def frameDealloc (self : FrameAllocator) (ppn : ℕ) : Option FrameAllocator :=
  if ppn ≥ self.current || self.recycled.isSome ppn then none
  else
    (self.recycled.heapInsert ppn).bind fun recycled =>
      frameDeallocLoop recycled.currentSize { self with recycled := recycled }

def frameRemainSize (self : FrameAllocator) : ℕ :=
  ((self.end_ + 2 ^ 64 - self.current) % 2 ^ 64 + self.recycled.currentSize) % 2 ^ 64

/-- The frames in `held` are out, and every other frame from `start` up to `stop` is
free exactly once: in the heap or above the frontier. -/
structure Manages (start stop : ℕ) (fa : FrameAllocator) (held : Multiset ℕ) : Prop where
  pos : 0 < start
  bound : stop < 2 ^ 64
  end_eq : fa.end_ = stop
  start_le : start ≤ fa.current
  le_stop : fa.current ≤ stop
  ordered : fa.recycled.Ordered
  maxSize : fa.recycled.maxSize = stop - start
  partition : held + fa.recycled.elements + Multiset.Ico fa.current stop = Multiset.Ico start stop

theorem ico_eq_cons {a b : ℕ} (h : a < b) : Multiset.Ico a b = a ::ₘ Multiset.Ico (a + 1) b := by
  have hnot : a ∉ Multiset.Ico (a + 1) b := by
    rw [Multiset.mem_Ico]
    omega
  refine (Multiset.Nodup.ext Multiset.nodup_Ico
    (Multiset.nodup_Ico.cons hnot)).mpr fun x => ?_
  simp only [Multiset.mem_cons, Multiset.mem_Ico]
  omega

theorem card_ico (a b : ℕ) : (Multiset.Ico a b).card = b - a := Nat.card_Ico a b

variable {start stop ppn : ℕ} {fa : FrameAllocator} {held : Multiset ℕ}

theorem Manages.nodup (h : Manages start stop fa held) :
    (held + fa.recycled.elements + Multiset.Ico fa.current stop).Nodup := by
  rw [h.partition]
  exact Multiset.nodup_Ico

theorem Manages.mem_iff (h : Manages start stop fa held) :
    (ppn ∈ held ∨ ppn ∈ fa.recycled.elements ∨ fa.current ≤ ppn ∧ ppn < stop) ↔
      start ≤ ppn ∧ ppn < stop := by
  rw [← Multiset.mem_Ico, ← Multiset.mem_Ico, ← h.partition, Multiset.mem_add, Multiset.mem_add,
    or_assoc]

/-- A frame is in one of the three parts only. -/
theorem Manages.disjoint (h : Manages start stop fa held) (hmem : ppn ∈ held) :
    ppn ∉ fa.recycled.elements ∧ ppn < fa.current := by
  have hnodup := h.nodup
  rw [add_assoc, Multiset.nodup_add] at hnodup
  have hnot := Multiset.disjoint_left.mp hnodup.2.2 hmem
  have hin := h.mem_iff.mp (Or.inl hmem)
  simp only [Multiset.mem_add, Multiset.mem_Ico] at hnot
  exact ⟨fun hr => hnot (Or.inl hr), by omega⟩

theorem Manages.recycled_lt (h : Manages start stop fa held)
    (hmem : ppn ∈ fa.recycled.elements) : start ≤ ppn ∧ ppn < fa.current := by
  have hnodup := h.nodup
  rw [Multiset.nodup_add] at hnodup
  have hnot := Multiset.disjoint_left.mp hnodup.2.2 (Multiset.mem_add.mpr (Or.inr hmem))
  have hin := h.mem_iff.mp (Or.inr (Or.inl hmem))
  rw [Multiset.mem_Ico] at hnot
  omega

theorem Manages.card (h : Manages start stop fa held) :
    held.card + fa.recycled.currentSize + (stop - fa.current) = stop - start := by
  have := congrArg Multiset.card h.partition
  simpa [MaxHeap.card_elements, card_ico] using this

theorem frameAlloc_of_recycled {n : ℕ} (hn : fa.recycled.currentSize = n + 1) :
    frameAlloc fa = some (fa.recycled.heapArray n,
      { fa with recycled := { fa.recycled with currentSize := n } }) := by
  simp [frameAlloc, MaxHeap.heapEmpty, hn]

theorem frameAlloc_of_empty (h0 : fa.recycled.currentSize = 0) (hne : fa.current ≠ fa.end_)
    (hbound : fa.current + 1 < 2 ^ 64) :
    frameAlloc fa = some (fa.current, { fa with current := fa.current + 1 }) := by
  have hsucc : (fa.current + 1) % 2 ^ 64 = fa.current + 1 := Nat.mod_eq_of_lt hbound
  have hpred : (fa.current + 1 + 2 ^ 64 - 1) % 2 ^ 64 = fa.current := by omega
  simp only [frameAlloc, MaxHeap.heapEmpty, h0, beq_self_eq_true, Bool.not_true,
    Bool.false_eq_true, if_false, hne, hsucc, hpred]

theorem frameAlloc_of_full (h0 : fa.recycled.currentSize = 0) (hfull : fa.current = fa.end_) :
    frameAlloc fa = none := by
  simp [frameAlloc, MaxHeap.heapEmpty, h0, hfull]

/-- `frame_alloc` hands out a free frame as long as there is one. -/
theorem Manages.frameAlloc (h : Manages start stop fa held)
    (hfree : fa.current - 1 ∉ fa.recycled.elements) :
    (held.card = stop - start ∧ frameAlloc fa = none) ∨
      ∃ ppn fa', frameAlloc fa = some (ppn, fa') ∧ Manages start stop fa' (ppn ::ₘ held) ∧
        fa'.current - 1 ∉ fa'.recycled.elements := by
  have hcard := h.card
  have hbound := h.bound
  have hle := h.le_stop
  have hend := h.end_eq
  rcases Nat.eq_zero_or_pos fa.recycled.currentSize with hempty | hsome
  · have hnone : fa.recycled.elements = 0 := by
      rw [← Multiset.card_eq_zero, MaxHeap.card_elements, hempty]
    by_cases hfull : fa.current = fa.end_
    · exact Or.inl ⟨by omega, frameAlloc_of_full hempty hfull⟩
    · right
      have hlt : fa.current + 1 ≤ stop := by omega
      refine ⟨_, _, frameAlloc_of_empty hempty hfull (by omega), ?_, by simp [hnone]⟩
      refine ⟨h.pos, hbound, hend, h.start_le.trans (Nat.le_succ _), hlt, h.ordered, h.maxSize, ?_⟩
      rw [← h.partition, ico_eq_cons (a := fa.current) (by omega), Multiset.cons_add,
        Multiset.cons_add, Multiset.add_cons]
  · right
    obtain ⟨n, hn⟩ : ∃ n, fa.recycled.currentSize = n + 1 :=
      ⟨fa.recycled.currentSize - 1, by omega⟩
    have hsplit : fa.recycled.elements =
        fa.recycled.heapArray n ::ₘ ArrayHeap.elements fa.recycled.heapArray n := by
      rw [MaxHeap.elements, hn, ArrayHeap.elements_succ]
    have hn' : n ≤ fa.recycled.currentSize := by omega
    refine ⟨_, _, frameAlloc_of_recycled hn, ?_, fun hmem => hfree ?_⟩
    · refine ⟨h.pos, hbound, hend, h.start_le, hle, h.ordered.take hn', h.maxSize, ?_⟩
      rw [← h.partition, hsplit, Multiset.cons_add, Multiset.cons_add, Multiset.add_cons,
        Multiset.cons_add]
      rfl
    · rw [hsplit]
      exact Multiset.mem_cons_of_mem hmem

theorem frameDeallocLoop_stop (fuel : ℕ)
    (h : fa.recycled.heapTop ≠ (fa.current + 2 ^ 64 - 1) % 2 ^ 64) :
    frameDeallocLoop fuel fa = some fa := by
  unfold frameDeallocLoop
  rw [if_neg h]

theorem frameDeallocLoop_step {fuel : ℕ} {recycled : MaxHeap}
    (h : fa.recycled.heapTop = (fa.current + 2 ^ 64 - 1) % 2 ^ 64)
    (hremove : fa.recycled.heapRemoveMax = some recycled) :
    frameDeallocLoop (fuel + 1) fa = frameDeallocLoop fuel
      { fa with recycled := recycled, current := (fa.current + 2 ^ 64 - 1) % 2 ^ 64 } := by
  conv_lhs => unfold frameDeallocLoop
  rw [if_pos h]
  simp only [hremove]

/-- The loop of `frame_dealloc` moves the greatest recycled frames above the
frontier and stops below them. The top of an empty heap is the frame removed last,
which is not next to the frontier any more. -/
theorem Manages.frameDeallocLoop {fuel : ℕ} (h : Manages start stop fa held)
    (hfuel : fa.recycled.currentSize ≤ fuel)
    (hstale : fa.recycled.currentSize = 0 → fa.recycled.heapTop ≠ fa.current - 1) :
    ∃ fa', frameDeallocLoop fuel fa = some fa' ∧ Manages start stop fa' held ∧
      fa'.current - 1 ∉ fa'.recycled.elements := by
  induction fuel generalizing fa with
  | zero =>
      have hpos := h.pos
      have hstart := h.start_le
      have hbound := h.bound
      have hle := h.le_stop
      have hzero : fa.recycled.currentSize = 0 := by omega
      have hpred : (fa.current + 2 ^ 64 - 1) % 2 ^ 64 = fa.current - 1 := by omega
      refine ⟨fa, frameDeallocLoop_stop 0 (hpred ▸ hstale hzero), h, ?_⟩
      rw [MaxHeap.elements, hzero]
      simp
  | succ fuel ih =>
      have hpos := h.pos
      have hstart := h.start_le
      have hbound := h.bound
      have hle := h.le_stop
      have hpred : (fa.current + 2 ^ 64 - 1) % 2 ^ 64 = fa.current - 1 := by omega
      by_cases htop : fa.recycled.heapTop = fa.current - 1
      · have hsize : 0 < fa.recycled.currentSize :=
          Nat.pos_of_ne_zero fun h0 => hstale h0 htop
        obtain ⟨recycled, hremove, hord, hsplit, hcount, hmax, hlast⟩ :=
          MaxHeap.heapRemoveMax_spec h.ordered hsize
        have hlow : start ≤ fa.current - 1 := by
          have := h.recycled_lt (MaxHeap.heapTop_mem hsize)
          omega
        have hico : Multiset.Ico (fa.current - 1) stop =
            (fa.current - 1) ::ₘ Multiset.Ico fa.current stop := by
          rw [ico_eq_cons (by omega), Nat.sub_add_cancel (by omega)]
        have hnext : Manages start stop { fa with recycled := recycled, current := fa.current - 1 }
            held := by
          refine ⟨h.pos, hbound, h.end_eq, hlow, (Nat.sub_le _ _).trans hle, hord,
            hmax.trans h.maxSize, ?_⟩
          rw [← h.partition, hsplit, htop]
          simp only [hico, Multiset.add_cons, Multiset.cons_add]
        rw [frameDeallocLoop_step (hpred ▸ htop) hremove, hpred]
        refine ih hnext (show recycled.currentSize ≤ fuel by omega) fun h0 => ?_
        change recycled.heapTop ≠ fa.current - 1 - 1
        rw [hlast h0, htop]
        omega
      · refine ⟨fa, frameDeallocLoop_stop _ (hpred ▸ htop), h, fun hmem => htop ?_⟩
        have hge := h.ordered.le_heapTop hmem
        have hsize : 0 < fa.recycled.currentSize := by
          rw [← MaxHeap.card_elements]
          exact Multiset.card_pos_iff_exists_mem.mpr ⟨_, hmem⟩
        have hlt := (h.recycled_lt (MaxHeap.heapTop_mem hsize)).2
        omega

/-- `frame_dealloc` takes a frame back that is out. -/
theorem Manages.frameDealloc (h : Manages start stop fa held) (hmem : ppn ∈ held) :
    ∃ fa', frameDealloc fa ppn = some fa' ∧ Manages start stop fa' (held.erase ppn) ∧
      fa'.current - 1 ∉ fa'.recycled.elements := by
  obtain ⟨hnot, hlt⟩ := h.disjoint hmem
  have hcons : ppn ::ₘ held.erase ppn = held := Multiset.cons_erase hmem
  have hroom : fa.recycled.currentSize < fa.recycled.maxSize := by
    have hcard := h.card
    have hpos : 0 < held.card := Multiset.card_pos_iff_exists_mem.mpr ⟨ppn, hmem⟩
    rw [h.maxSize]
    omega
  obtain ⟨recycled, hinsert, hord, helem, hcount, hmax⟩ :=
    MaxHeap.heapInsert_spec h.ordered hroom ppn
  have hnext : Manages start stop { fa with recycled := recycled } (held.erase ppn) := by
    refine ⟨h.pos, h.bound, h.end_eq, h.start_le, h.le_stop, hord, hmax.trans h.maxSize, ?_⟩
    rw [← h.partition, helem, Multiset.add_cons, Multiset.cons_add, ← Multiset.cons_add,
      ← Multiset.cons_add, hcons]
  have hcond : ¬ (ppn ≥ fa.current || fa.recycled.isSome ppn) = true := by
    rw [Bool.or_eq_true, MaxHeap.isSome_iff, decide_eq_true_eq]
    rintro (hge | hin)
    · omega
    · exact hnot hin
  rw [FrameAllocator.frameDealloc, if_neg hcond, hinsert]
  exact hnext.frameDeallocLoop le_rfl fun h0 => by
    change recycled.currentSize = 0 at h0
    omega

/-- A managed frame that is not out is refused. -/
theorem Manages.frameDealloc_eq_none (h : Manages start stop fa held)
    (hlo : start ≤ ppn) (hhi : ppn < stop) (hnot : ppn ∉ held) :
    FrameAllocator.frameDealloc fa ppn = none := by
  have hcond : (ppn ≥ fa.current || fa.recycled.isSome ppn) = true := by
    rw [Bool.or_eq_true, MaxHeap.isSome_iff, decide_eq_true_eq]
    rcases h.mem_iff.mpr ⟨hlo, hhi⟩ with hheld | hrec | hfree
    · exact (hnot hheld).elim
    · exact Or.inr hrec
    · exact Or.inl hfree.1
  rw [FrameAllocator.frameDealloc, if_pos hcond]

theorem Manages.frameRemainSize (h : Manages start stop fa held) :
    frameRemainSize fa = stop - start - held.card := by
  have hcard := h.card
  have hbound := h.bound
  have hle := h.le_stop
  have hend := h.end_eq
  unfold FrameAllocator.frameRemainSize
  omega

/-- The initial allocator manages every frame between the kernel image and the end
of memory. -/
theorem manages_init {ekernel : ℕ} (hfits : ekernel + pageSize ≤ memoryEnd) (base : ℕ → ℕ) :
    Manages (frameAllocatorInit ekernel base).current (paFloor memoryEnd)
      (frameAllocatorInit ekernel base) 0 := by
  have hend : paFloor memoryEnd = 0x80800 := by decide
  have hstart : (frameAllocatorInit ekernel base).current =
      (ekernel + 4096 + 4095) / 4096 := by
    simp only [memoryEnd, pageSize] at hfits
    simp only [frameAllocatorInit, paCeil, pageSize]
    omega
  have hle : (frameAllocatorInit ekernel base).current ≤ 0x80800 := by
    simp only [memoryEnd, pageSize] at hfits
    omega
  refine ⟨by omega, by omega, rfl, le_rfl, by omega, ArrayHeap.heapOrdered_zero _, ?_, ?_⟩
  · change (paFloor memoryEnd + 2 ^ 64 - (frameAllocatorInit ekernel base).current) % 2 ^ 64 = _
    omega
  · simp [frameAllocatorInit, MaxHeap.elements, heapInit]

/-- The frame is out: below the frontier and not given back. -/
def Taken (fa : FrameAllocator) (ppn : ℕ) : Prop :=
  ppn < fa.current ∧ ppn ∉ fa.recycled.elements

/-- The allocator manages the frames from some start up to the end of memory. -/
def Sound (fa : FrameAllocator) : Prop :=
  ∃ start held, Manages start (paFloor memoryEnd) fa held ∧
    fa.current - 1 ∉ fa.recycled.elements

theorem sound_init {ekernel : ℕ} (hfits : ekernel + pageSize ≤ memoryEnd) (base : ℕ → ℕ) :
    Sound (frameAllocatorInit ekernel base) :=
  ⟨_, 0, manages_init hfits base, by simp [frameAllocatorInit, MaxHeap.elements, heapInit]⟩

theorem Manages.taken_iff (h : Manages start stop fa held) :
    Taken fa ppn ↔ ppn ∈ held ∨ ppn < start := by
  have hstart := h.start_le
  have hle := h.le_stop
  constructor
  · rintro ⟨hlt, hnot⟩
    by_cases hlo : ppn < start
    · exact Or.inr hlo
    · rcases h.mem_iff.mpr ⟨not_lt.mp hlo, hlt.trans_le hle⟩ with hheld | hrec | hfree
      · exact Or.inl hheld
      · exact (hnot hrec).elim
      · omega
  · rintro (hheld | hlo)
    · obtain ⟨hnot, hlt⟩ := h.disjoint hheld
      exact ⟨hlt, hnot⟩
    · refine ⟨by omega, fun hrec => ?_⟩
      have := h.recycled_lt hrec
      omega

theorem Sound.taken_lt (h : Sound fa) (ht : Taken fa ppn) : ppn < 0x80800 := by
  obtain ⟨start, held, hm, -⟩ := h
  have hle := hm.le_stop
  have hend : paFloor memoryEnd = 0x80800 := by decide
  have := ht.1
  omega

/-- What a caller needs of `frame_alloc`: the frame it returns was not out. -/
theorem Sound.frameAlloc (h : Sound fa) :
    (frameRemainSize fa = 0 ∧ frameAlloc fa = none) ∨
      ∃ ppn fa', frameAlloc fa = some (ppn, fa') ∧ Sound fa' ∧ ¬ Taken fa ppn ∧
        (∀ f, Taken fa' f ↔ f = ppn ∨ Taken fa f) ∧
        frameRemainSize fa = frameRemainSize fa' + 1 := by
  obtain ⟨start, held, hm, hfrontier⟩ := h
  have hcard := hm.card
  have hle := hm.le_stop
  rcases hm.frameAlloc hfrontier with ⟨hfull, hnone⟩ | ⟨ppn, fa', hsome, hm', hfrontier'⟩
  · exact Or.inl ⟨by rw [hm.frameRemainSize]; omega, hnone⟩
  · have hcard' := hm'.card
    rw [Multiset.card_cons] at hcard'
    refine Or.inr ⟨ppn, fa', hsome, ⟨start, _, hm', hfrontier'⟩, ?_, fun f => ?_, ?_⟩
    · rw [hm.taken_iff]
      have hin := hm'.mem_iff.mp (Or.inl (Multiset.mem_cons_self ppn held))
      have hnodup := hm'.nodup
      rw [Multiset.cons_add, Multiset.cons_add, Multiset.nodup_cons, Multiset.mem_add,
        Multiset.mem_add] at hnodup
      rintro (hheld | hlo)
      · exact hnodup.1 (Or.inl (Or.inl hheld))
      · omega
    · rw [hm.taken_iff, hm'.taken_iff, Multiset.mem_cons, or_assoc]
    · rw [hm.frameRemainSize, hm'.frameRemainSize, Multiset.card_cons]
      omega

/-- The first frame that the allocator manages. -/
def firstFrame (fa : FrameAllocator) : ℕ := paFloor memoryEnd - fa.recycled.maxSize

theorem Manages.firstFrame (h : Manages start (paFloor memoryEnd) fa held) :
    firstFrame fa = start := by
  have hstart := h.start_le
  have hle := h.le_stop
  rw [FrameAllocator.firstFrame, h.maxSize]
  omega

theorem Sound.frameAlloc_managed {fa' : FrameAllocator} (h : Sound fa)
    (hcall : FrameAllocator.frameAlloc fa = some (ppn, fa')) :
    firstFrame fa ≤ ppn ∧ firstFrame fa' = firstFrame fa := by
  obtain ⟨start, held, hm, hfrontier⟩ := h
  rcases hm.frameAlloc hfrontier with ⟨-, hnone⟩ | ⟨ppn', fa'', hsome, hm', -⟩
  · rw [hnone] at hcall
    contradiction
  · rw [hsome, Option.some.injEq, Prod.mk.injEq] at hcall
    obtain ⟨rfl, rfl⟩ := hcall
    rw [hm.firstFrame, hm'.firstFrame]
    exact ⟨(hm'.mem_iff.mp (Or.inl (Multiset.mem_cons_self _ _))).1, rfl⟩

theorem Sound.taken_of_lt (h : Sound fa) (hlt : ppn < firstFrame fa) : Taken fa ppn := by
  obtain ⟨start, held, hm, -⟩ := h
  rw [hm.firstFrame] at hlt
  exact hm.taken_iff.mpr (Or.inr hlt)

/-- What a caller needs of `frame_dealloc`: it takes back a managed frame that is out, and
only that one. -/
theorem Sound.frameDealloc (h : Sound fa) (ht : Taken fa ppn) (hfirst : firstFrame fa ≤ ppn) :
    ∃ fa', frameDealloc fa ppn = some fa' ∧ Sound fa' ∧ firstFrame fa' = firstFrame fa ∧
      ∀ f, Taken fa' f ↔ Taken fa f ∧ f ≠ ppn := by
  obtain ⟨start, held, hm, hfrontier⟩ := h
  rw [hm.firstFrame] at hfirst
  have hheld : ppn ∈ held := by
    rcases hm.taken_iff.mp ht with hheld | hlo
    · exact hheld
    · omega
  obtain ⟨fa', hsome, hm', hfrontier'⟩ := hm.frameDealloc hheld
  refine ⟨fa', hsome, ⟨start, _, hm', hfrontier'⟩, by rw [hm.firstFrame, hm'.firstFrame],
    fun f => ?_⟩
  have hnodup : held.Nodup := by
    have hall := hm.nodup
    rw [add_assoc, Multiset.nodup_add] at hall
    exact hall.1
  rw [hm'.taken_iff, hm.taken_iff, hnodup.mem_erase_iff]
  constructor
  · rintro (⟨hne, hf⟩ | hlo)
    · exact ⟨Or.inl hf, hne⟩
    · exact ⟨Or.inr hlo, by omega⟩
  · rintro ⟨hf | hlo, hne⟩
    · exact Or.inl ⟨hne, hf⟩
    · exact Or.inr hlo

end FrameAllocator

/-! ## Runs -/

open FrameAllocator

/-- The allocator with the frames that are out. -/
structure FrameUse where
  fa : FrameAllocator
  held : List ℕ

inductive FrameOp where
  | alloc
  | dealloc (ppn : ℕ)
deriving Repr, DecidableEq

/-- A call of `frame_alloc`, or of `frame_dealloc` on a frame of the managed range. -/
def frameStep (start : ℕ) (s : FrameUse) : FrameOp → Option FrameUse
  | .alloc => (frameAlloc s.fa).map fun (ppn, fa) => ⟨fa, ppn :: s.held⟩
  | .dealloc ppn =>
      if start ≤ ppn ∧ ppn < s.fa.end_ then
        (frameDealloc s.fa ppn).map fun fa => ⟨fa, s.held.erase ppn⟩
      else none

def FrameStep (start : ℕ) (s : FrameUse) (a : FrameOp) (s' : FrameUse) : Prop :=
  frameStep start s a = some s'

/-- What holds of the managed range `[start, stop)` at every moment. -/
structure FrameLaws (start stop : ℕ) (s : FrameUse) : Prop where
  partition : (s.held : Multiset ℕ) + s.fa.recycled.elements + Multiset.Ico s.fa.current stop =
    Multiset.Ico start stop
  nodup : ((s.held : Multiset ℕ) + s.fa.recycled.elements +
    Multiset.Ico s.fa.current stop).Nodup
  size_le : s.fa.recycled.currentSize ≤ s.fa.recycled.maxSize
  frontier : s.fa.current - 1 ∉ s.fa.recycled.elements
  remain : s.fa.frameRemainSize = stop - start - s.held.length
  alloc_panic : frameAlloc s.fa = none → ∀ ppn, start ≤ ppn → ppn < stop → ppn ∈ s.held
  dealloc_panic : ∀ ppn, start ≤ ppn → ppn < stop →
    (frameDealloc s.fa ppn = none ↔ ppn ∉ s.held)
  all_back : s.held = [] → s.fa.current = start ∧ s.fa.recycled.currentSize = 0

variable {start stop : ℕ} {s s' : FrameUse}

theorem frameLaws_of_manages (h : Manages start stop s.fa s.held)
    (hfrontier : s.fa.current - 1 ∉ s.fa.recycled.elements) : FrameLaws start stop s := by
  have hcard := h.card
  refine ⟨h.partition, h.nodup, ?_, hfrontier, ?_, ?_, ?_, ?_⟩
  · rw [h.maxSize]
    omega
  · rw [h.frameRemainSize, Multiset.coe_card]
  · intro hnone ppn hlo hhi
    rcases h.frameAlloc hfrontier with ⟨hfull, -⟩ | ⟨ppn', fa', hsome, -⟩
    · have hempty : s.fa.recycled.currentSize = 0 := by omega
      rcases h.mem_iff.mpr ⟨hlo, hhi⟩ with hheld | hrec | hfree
      · exact Multiset.mem_coe.mp hheld
      · rw [MaxHeap.elements, hempty] at hrec
        simp at hrec
      · omega
    · rw [hnone] at hsome
      contradiction
  · intro ppn hlo hhi
    constructor
    · intro hnone hmem
      obtain ⟨fa', hsome, -⟩ := h.frameDealloc (Multiset.mem_coe.mpr hmem)
      rw [hnone] at hsome
      contradiction
    · intro hnot
      exact h.frameDealloc_eq_none hlo hhi fun hmem => hnot (Multiset.mem_coe.mp hmem)
  · intro hnil
    have hmem : ∀ ppn, (ppn ∈ (s.held : Multiset ℕ) ∨ ppn ∈ s.fa.recycled.elements ∨
        s.fa.current ≤ ppn ∧ ppn < stop) ↔ start ≤ ppn ∧ ppn < stop := fun _ => h.mem_iff
    have hstart := h.start_le
    have hpos := h.pos
    have hle := h.le_stop
    have hcurrent : s.fa.current = start := by
      by_contra hne
      rcases (hmem (s.fa.current - 1)).mpr (by omega) with hheld | hrec | hfree
      · simp [hnil] at hheld
      · exact hfrontier hrec
      · omega
    refine ⟨hcurrent, ?_⟩
    simp only [hnil, Multiset.coe_nil, Multiset.card_zero] at hcard
    omega

/-- One step keeps every frame in exactly one part. -/
theorem manages_step (h : Manages start stop s.fa s.held)
    (hfrontier : s.fa.current - 1 ∉ s.fa.recycled.elements) {a : FrameOp}
    (hstep : FrameStep start s a s') :
    Manages start stop s'.fa s'.held ∧ s'.fa.current - 1 ∉ s'.fa.recycled.elements := by
  cases a with
  | alloc =>
      rcases h.frameAlloc hfrontier with ⟨-, hnone⟩ | ⟨ppn, fa', hsome, hnext, hfrontier'⟩
      · simp [FrameStep, frameStep, hnone] at hstep
      · obtain rfl : (⟨fa', ppn :: s.held⟩ : FrameUse) = s' := by
          simpa [FrameStep, frameStep, hsome] using hstep
        exact ⟨by rwa [← Multiset.cons_coe], hfrontier'⟩
  | dealloc ppn =>
      obtain ⟨⟨hlo, hhi⟩, fa', hcall, rfl⟩ : (start ≤ ppn ∧ ppn < s.fa.end_) ∧ ∃ fa',
          frameDealloc s.fa ppn = some fa' ∧ (⟨fa', s.held.erase ppn⟩ : FrameUse) = s' := by
        simpa [FrameStep, frameStep] using hstep
      rw [h.end_eq] at hhi
      have hmem : ppn ∈ (s.held : Multiset ℕ) := by
        by_contra hnot
        rw [h.frameDealloc_eq_none hlo hhi hnot] at hcall
        contradiction
      obtain ⟨fa'', hsome, hnext, hfrontier'⟩ := h.frameDealloc hmem
      rw [hcall, Option.some.injEq] at hsome
      subst hsome
      exact ⟨by rwa [← Multiset.coe_erase], hfrontier'⟩

/-- In every run of `frame_alloc` and `frame_dealloc` the frames that are out, the
recycled ones and those above the frontier partition the managed range. -/
theorem frameLaws_of_run {ekernel : ℕ} (hfits : ekernel + pageSize ≤ memoryEnd)
    {base : ℕ → ℕ} {ops : List FrameOp}
    (hrun : Run (FrameStep (frameAllocatorInit ekernel base).current)
      ⟨frameAllocatorInit ekernel base, []⟩ ops s) :
    FrameLaws (frameAllocatorInit ekernel base).current (paFloor memoryEnd) s := by
  have hlaws := hrun.invariant (I := fun s =>
    Manages (frameAllocatorInit ekernel base).current (paFloor memoryEnd) s.fa s.held ∧
      s.fa.current - 1 ∉ s.fa.recycled.elements)
    (fun _ _ _ hs hstep => manages_step hs.1 hs.2 hstep) ⟨manages_init hfits base, ?_⟩
  · exact frameLaws_of_manages hlaws.1 hlaws.2
  · simp [frameAllocatorInit, MaxHeap.elements, heapInit]

/-- Three frames above a kernel that ends at 0x80500000 are taken and two given back. -/
theorem frameLaws_after_five_calls :
    ∃ s, Run (FrameStep (frameAllocatorInit 0x80500000 fun _ => 0).current)
        ⟨frameAllocatorInit 0x80500000 fun _ => 0, []⟩
        [.alloc, .alloc, .alloc, .dealloc 0x80501, .dealloc 0x80503] s ∧
      s.held = [0x80502] ∧ s.fa.current = 0x80503 ∧
      FrameLaws (frameAllocatorInit 0x80500000 fun _ => 0).current (paFloor memoryEnd) s := by
  obtain ⟨s₀, s, hinit, hrun, hobs⟩ := exists_run_of_execute
    (frameStep (frameAllocatorInit 0x80500000 fun _ => 0).current)
    (some ⟨frameAllocatorInit 0x80500000 fun _ => 0, []⟩)
    [.alloc, .alloc, .alloc, .dealloc 0x80501, .dealloc 0x80503]
    (fun s => (s.held, s.fa.current)) ([0x80502], 0x80503) (by decide +kernel)
  obtain rfl := Option.some.inj hinit
  obtain ⟨hheld, hcurrent⟩ := Prod.mk.inj hobs
  exact ⟨s, hrun, hheld, hcurrent, frameLaws_of_run (by decide) hrun⟩

end K210Os
