import K210Os.BuddyHeap
import Mathlib.Data.List.Pairwise

/-!
# Runs of allocations and releases

The invariant of a run is that the table stands for some buddy tree whose blocks
are the live blocks of the run. Everything that is claimed of the live blocks is
then read off the tree.
-/

namespace K210Os

open BitmapBuddy BuddyTree Transition

/-- A heap with the blocks its callers hold, as pairs of offset and size. -/
structure LiveHeap where
  heap : KHeap
  live : List (ℕ × ℕ)

inductive HeapOp where
  | alloc (size : ℕ)
  | free (offset : ℕ)
deriving Repr, DecidableEq

/-- `size` rounded up to a power of two that is at least 8. -/
def blockSize (size : ℕ) : ℕ := 2 ^ max 3 (Nat.clog 2 size)

/-- One call, made the way the run may make it: a size that fits the heap, or the
start of a live block. -/
def heapStep (s : LiveHeap) : HeapOp → Option LiveHeap
  | .alloc size =>
      if size ≤ s.heap.buddy.size then
        (buddyAlloc s.heap size).map fun (ptr, heap) =>
          ⟨heap, if ptr = 0 then s.live
            else (ptr - heap.buddy.space, blockSize size) :: s.live⟩
      else none
  | .free offset =>
      if s.live.any (·.1 == offset) then
        (buddyFree s.heap (s.heap.buddy.space + offset)).map fun heap =>
          ⟨heap, s.live.eraseP (·.1 == offset)⟩
      else none

/-- The heap as `heap_allocator_init` leaves it, with nothing handed out. -/
def liveInit (size space : ℕ) (bbase : ℕ → Byte) (cpu : Processor) (mem : ℕ → Byte) :
    Option LiveHeap :=
  (heapAllocatorInit size space bbase cpu mem).map (⟨·, []⟩)

/-- What a release meets on its way up, for the byte nodes above the block. -/
def freeMeets (ok : ℕ → ℕ → ℕ → Bool) (s : LiveHeap) : HeapOp → Bool
  | .alloc _ => true
  | .free offset => freeAvoids ok s.heap.buddy offset

/-- No byte node above the block has children whose logarithms add up to its own. -/
def noFalseMerge : LiveHeap → HeapOp → Bool := freeMeets fun v w k => v + w != k

/-- In addition, no byte node above the block has two wholly free children. -/
def noLostMerge : LiveHeap → HeapOp → Bool :=
  freeMeets fun v w k => v + w != k && !(v + 1 == k && w + 1 == k)

/-- A step of a run whose releases all meet the condition `ok`. -/
def guardedStep (ok : LiveHeap → HeapOp → Bool) (s : LiveHeap) (a : HeapOp) : Option LiveHeap :=
  if ok s a then heapStep s a else none

def GuardedStep (ok : LiveHeap → HeapOp → Bool) (s : LiveHeap) (a : HeapOp) (s' : LiveHeap) :
    Prop :=
  guardedStep ok s a = some s'

/-- Blocks given by offset and size do not overlap. -/
def NoOverlap (x y : ℕ × ℕ) : Prop := x.1 + x.2 ≤ y.1 ∨ y.1 + y.2 ≤ x.1

instance (x y : ℕ × ℕ) : Decidable (NoOverlap x y) := inferInstanceAs (Decidable (_ ∨ _))

/-- The blocks lie inside a heap of `size` bytes, aligned and without overlap. -/
structure WellPlaced (size : ℕ) (live : List (ℕ × ℕ)) : Prop where
  inside : ∀ x ∈ live, x.1 + x.2 ≤ size
  aligned : ∀ x ∈ live, x.2 ∣ x.1
  noOverlap : live.Pairwise NoOverlap

/-- Offset and size in bytes of a block given in units of 8 bytes. -/
def inBytes (x : ℕ × ℕ) : ℕ × ℕ := (8 * x.1, 2 ^ (x.2 + 3))

/-- The live blocks are the blocks of the tree that the table stands for. The lock
is only left held by a call that found no room. -/
structure Backed (n space : ℕ) (s : LiveHeap) (t : Node n) : Prop where
  stands : Stands n space s.heap t
  live : s.live.Perm ((t.blocks 0).map inBytes)
  lock : s.heap.buddy.lock.locked = true → ¬ n < t.room

variable {n space : ℕ} {s s' : LiveHeap} {t : Node n}

theorem guardedStep_iff {ok : LiveHeap → HeapOp → Bool} {a : HeapOp} :
    GuardedStep ok s a s' ↔ ok s a = true ∧ heapStep s a = some s' := by
  simp [GuardedStep, guardedStep]

theorem noOverlap_inBytes {x y : ℕ × ℕ} (h : Apart x y) : NoOverlap (inBytes x) (inBytes y) := by
  simp only [NoOverlap, inBytes, pow_add]
  rcases h with h | h
  · exact Or.inl (by omega)
  · exact Or.inr (by omega)

theorem apart_of_noOverlap {x y : ℕ × ℕ} (h : NoOverlap (inBytes x) (inBytes y)) : Apart x y := by
  simp only [NoOverlap, inBytes, pow_add] at h
  rcases h with h | h
  · exact Or.inl (by omega)
  · exact Or.inr (by omega)

theorem Backed.wellPlaced (h : Backed n space s t) : WellPlaced (2 ^ (n + 3)) s.live := by
  have hmem : ∀ x ∈ s.live, ∃ y ∈ t.blocks 0, inBytes y = x := fun x hx =>
    List.mem_map.mp (h.live.subset hx)
  refine ⟨fun x hx => ?_, fun x hx => ?_, ?_⟩
  · obtain ⟨y, hy, rfl⟩ := hmem x hx
    have hin := mem_blocks_inside hy
    exact inside_bytes (by omega)
  · obtain ⟨y, hy, rfl⟩ := hmem x hx
    have hdvd := mem_blocks_aligned (dvd_zero _) hy
    simp only [inBytes, pow_add]
    rw [mul_comm]
    exact Nat.mul_dvd_mul_left 8 hdvd
  · refine (h.live.pairwise_iff fun hab => Or.symm hab).mpr ?_
    exact (pairwise_apart_blocks t 0).map _ fun _ _ hxy => noOverlap_inBytes hxy

/-- A tidy tree knows of a block as large as any aligned one that is free. -/
theorem Backed.room_of_free (h : Backed n space s t) (ht : t.Tidy) {e offset : ℕ}
    (hdvd : 2 ^ (e + 3) ∣ offset) (hin : offset + 2 ^ (e + 3) ≤ 2 ^ (n + 3))
    (hfree : ∀ x ∈ s.live, NoOverlap (offset, 2 ^ (e + 3)) x) : e < t.room := by
  obtain ⟨m, rfl⟩ := hdvd
  have hoff : 2 ^ (e + 3) * m = 8 * (2 ^ e * m) := by ring
  rw [hoff] at hin hfree
  refine lt_room_of_apart ht (dvd_zero _) (dvd_mul_right (2 ^ e) m) (Nat.zero_le _) ?_ ?_
  · rw [pow_add 2 e, pow_add 2 n] at hin
    omega
  · intro x hx
    exact apart_of_noOverlap (hfree _ (h.live.symm.subset (List.mem_map_of_mem hx)))

/-- Two blocks of a tree that begin at one offset are one block. -/
theorem eq_of_mem_blocks {x y : ℕ × ℕ} (hx : x ∈ t.blocks 0) (hy : y ∈ t.blocks 0)
    (hxy : x.1 = y.1) : x = y := by
  by_contra hne
  have hapart := (pairwise_apart_blocks t 0).forall hx hy hne
  have := Nat.two_pow_pos x.2
  have := Nat.two_pow_pos y.2
  simp only [Apart] at hapart
  omega

/-- Taking a released block out of the live ones follows the tree. -/
theorem perm_eraseP {t' : Node n} {o e : ℕ} (hlive : s.live.Perm ((t.blocks 0).map inBytes))
    (hmem : (o, e) ∈ t.blocks 0) (hrelease : Release e o t 0 t') :
    (s.live.eraseP (·.1 == 8 * o)).Perm ((t'.blocks 0).map inBytes) := by
  have hin : inBytes (o, e) ∈ s.live := hlive.symm.subset (List.mem_map_of_mem hmem)
  obtain ⟨x, l₁, l₂, -, hx, hl, herase⟩ :=
    List.exists_of_eraseP (p := (·.1 == 8 * o)) hin (by simp [inBytes])
  have hxmem : x ∈ s.live := by rw [hl]; simp
  obtain ⟨y, hy, rfl⟩ := List.mem_map.mp (hlive.subset hxmem)
  have hyo : y = (o, e) := by
    refine eq_of_mem_blocks hy hmem ?_
    simp only [inBytes, beq_iff_eq] at hx
    omega
  subst hyo
  rw [herase]
  refine List.Perm.cons_inv (a := inBytes (o, e)) ?_
  have hsplit : s.live.Perm (inBytes (o, e) :: (l₁ ++ l₂)) := by
    rw [hl]
    exact List.perm_middle
  exact hsplit.symm.trans (hlive.trans (hrelease.blocks.map inBytes))

theorem unlocked_of_buddyAlloc {h h' : KHeap} {size ptr : ℕ}
    (hcall : buddyAlloc h size = some (ptr, h')) : h.buddy.lock.locked = false := by
  simp only [buddyAlloc, Option.bind_eq_bind, Option.bind_eq_some_iff] at hcall
  obtain ⟨⟨cpu, lock⟩, hacq, -⟩ := hcall
  exact (acquire_eq_some hacq).1

theorem unlocked_of_buddyFree {h h' : KHeap} {ptr : ℕ} (hptr : ptr ≠ 0)
    (hcall : buddyFree h ptr = some h') : h.buddy.lock.locked = false := by
  simp only [buddyFree, hptr, if_false, Option.bind_eq_bind, Option.bind_eq_some_iff] at hcall
  obtain ⟨⟨cpu, lock⟩, hacq, -⟩ := hcall
  exact (acquire_eq_some hacq).1

/-- An allocation keeps the heap backed: by the same tree when it returns `NULL`, by
a tree with one more block otherwise. -/
theorem Backed.alloc (h : Backed n space s t) {size : ℕ}
    (hstep : heapStep s (.alloc size) = some s') :
    ∃ t', Backed n space s' t' ∧ (t.Tidy → t'.Tidy) := by
  obtain ⟨hsize, ptr, heap, hcall, rfl⟩ : size ≤ s.heap.buddy.size ∧ ∃ ptr heap,
      buddyAlloc s.heap size = some (ptr, heap) ∧
        (⟨heap, if ptr = 0 then s.live
          else (ptr - heap.buddy.space, blockSize size) :: s.live⟩ : LiveHeap) = s' := by
    simpa [heapStep] using hstep
  rw [h.stands.sized.size] at hsize
  obtain ⟨e, hen, hround, hmax⟩ := roundSize_eq h.stands.sized.hi hsize
  obtain ⟨hnull, hfound⟩ := h.stands.buddyAlloc (unlocked_of_buddyAlloc hcall) hen hround
  by_cases hroom : e < t.room
  · obtain ⟨o, t', h', hcall', halloc, hstands, hlock⟩ := hfound hroom
    rw [hcall, Option.some.injEq, Prod.mk.injEq] at hcall'
    obtain ⟨rfl, rfl⟩ := hcall'
    have hpos := h.stands.pos
    refine ⟨t', ⟨hstands, ?_, fun hl => by simp [hlock] at hl⟩, halloc.tidy⟩
    have hblock : (space + 8 * o - heap.buddy.space, blockSize size) = inBytes (o, e) := by
      rw [hstands.space_eq, Nat.add_sub_cancel_left, blockSize, hmax, inBytes]
    rw [if_neg (by omega), hblock]
    exact (h.live.cons _).trans (halloc.blocks.map inBytes).symm
  · obtain ⟨h', hcall', hstands⟩ := hnull hroom
    rw [hcall, Option.some.injEq, Prod.mk.injEq] at hcall'
    obtain ⟨rfl, rfl⟩ := hcall'
    exact ⟨t, ⟨hstands, by rw [if_pos rfl]; exact h.live, fun _ => by omega⟩, id⟩

/-- A release keeps the heap backed, by a tree with one block less, where the
comparison of sums does not hold on its way. -/
theorem Backed.free (h : Backed n space s t) {ok : ℕ → ℕ → ℕ → Bool}
    (hok : ∀ v w k, ok v w k = true → v + w ≠ k) {offset : ℕ}
    (hmeets : freeMeets ok s (.free offset) = true)
    (hstep : heapStep s (.free offset) = some s') :
    ∃ t', Backed n space s' t' ∧
      ((∀ v w k, ok v w k = true → ¬ (v + 1 = k ∧ w + 1 = k)) → t.Tidy → t'.Tidy) := by
  obtain ⟨hany, heap, hcall, rfl⟩ : (∃ sz, (offset, sz) ∈ s.live) ∧ ∃ heap,
      buddyFree s.heap (s.heap.buddy.space + offset) = some heap ∧
        (⟨heap, s.live.eraseP (·.1 == offset)⟩ : LiveHeap) = s' := by
    simpa [heapStep] using hstep
  obtain ⟨sz, hlive⟩ := hany
  obtain ⟨⟨o, e⟩, hmem, hblock⟩ := List.mem_map.mp (h.live.subset hlive)
  obtain rfl : 8 * o = offset := congrArg Prod.fst hblock
  rw [h.stands.space_eq] at hcall
  have hpos := h.stands.pos
  obtain ⟨t', h', hcall', hrelease, hstands, hlock, htidy⟩ :=
    h.stands.buddyFree (unlocked_of_buddyFree (by omega) hcall) hok hmem hmeets
  rw [hcall, Option.some.injEq] at hcall'
  subst hcall'
  exact ⟨t', ⟨hstands, perm_eraseP h.live hmem hrelease, fun hl => by simp [hlock] at hl⟩, htidy⟩

/-- One step of a run whose releases avoid false merges. -/
theorem Backed.step (h : Backed n space s t) {ok : ℕ → ℕ → ℕ → Bool}
    (hok : ∀ v w k, ok v w k = true → v + w ≠ k) {a : HeapOp}
    (hstep : GuardedStep (freeMeets ok) s a s') :
    ∃ t', Backed n space s' t' ∧
      ((∀ v w k, ok v w k = true → ¬ (v + 1 = k ∧ w + 1 = k)) → t.Tidy → t'.Tidy) := by
  obtain ⟨hmeets, hstep⟩ := guardedStep_iff.mp hstep
  cases a with
  | alloc size =>
      obtain ⟨t', hb, ht⟩ := h.alloc hstep
      exact ⟨t', hb, fun _ => ht⟩
  | free offset => exact h.free hok hmeets hstep

/-- A fresh heap is backed by a free tree. -/
theorem backed_init {k : ℕ} (hlo : 7 ≤ k) (hhi : k ≤ 30) (hpos : 0 < space)
    (hfits : space + 2 ^ k ≤ 2 ^ 64) {bbase : ℕ → Byte} {cpu : Processor} {mem : ℕ → Byte}
    {s₀ : LiveHeap} (hinit : liveInit (2 ^ k) space bbase cpu mem = some s₀) :
    Backed (k - 3) space s₀ .free := by
  have hk : k - 3 + 3 = k := by omega
  obtain ⟨b, hb, hsized, hlock, hrepr⟩ := buddyNew_spec (n := k - 3) (by omega) (by omega) bbase
  rw [hk] at hb
  simp only [liveInit, heapAllocatorInit, hb, Option.map_some, Option.some.injEq] at hinit
  subst hinit
  refine ⟨⟨⟨hsized.size, hsized.lo, hsized.hi⟩, rfl, hpos, by rwa [hk], hrepr⟩, ?_, ?_⟩
  · simp [Node.blocks]
  · intro hl
    simp [hlock, initlock] at hl

/-- The invariant over a whole run. -/
theorem backed_of_run {k : ℕ} (hlo : 7 ≤ k) (hhi : k ≤ 30) (hpos : 0 < space)
    (hfits : space + 2 ^ k ≤ 2 ^ 64) {bbase : ℕ → Byte} {cpu : Processor} {mem : ℕ → Byte}
    {s₀ : LiveHeap} (hinit : liveInit (2 ^ k) space bbase cpu mem = some s₀)
    {ok : ℕ → ℕ → ℕ → Bool} (hok : ∀ v w k, ok v w k = true → v + w ≠ k) {ops : List HeapOp}
    (hrun : Run (GuardedStep (freeMeets ok)) s₀ ops s) :
    ∃ t, Backed (k - 3) space s t ∧
      ((∀ v w k, ok v w k = true → ¬ (v + 1 = k ∧ w + 1 = k)) → t.Tidy) := by
  refine hrun.invariant (I := fun s => ∃ t, Backed (k - 3) space s t ∧
    ((∀ v w k, ok v w k = true → ¬ (v + 1 = k ∧ w + 1 = k)) → t.Tidy)) ?_
    ⟨.free, backed_init hlo hhi hpos hfits hinit, fun _ => trivial⟩
  rintro s a s' ⟨t, hb, ht⟩ hstep
  obtain ⟨t', hb', ht'⟩ := hb.step hok hstep
  exact ⟨t', hb', fun hfull => ht' hfull (ht hfull)⟩

/-- Where no release takes a sum of logarithms for a merge, the live blocks are at
every moment inside the heap, aligned and apart. -/
theorem live_wellPlaced {k : ℕ} (hlo : 7 ≤ k) (hhi : k ≤ 30) (hpos : 0 < space)
    (hfits : space + 2 ^ k ≤ 2 ^ 64) {bbase : ℕ → Byte} {cpu : Processor} {mem : ℕ → Byte}
    {s₀ : LiveHeap} (hinit : liveInit (2 ^ k) space bbase cpu mem = some s₀)
    {ops : List HeapOp} (hrun : Run (GuardedStep noFalseMerge) s₀ ops s) :
    WellPlaced (2 ^ k) s.live := by
  obtain ⟨t, hb, -⟩ := backed_of_run hlo hhi hpos hfits hinit (by simp) hrun
  have := hb.wellPlaced
  rwa [show k - 3 + 3 = k by omega] at this

def smallHeap : Option LiveHeap :=
  liveInit (2 ^ 7) 4096 (fun _ => 0) ⟨0, true, 0, false⟩ fun _ => 0

/-- What four runs on a heap of 128 bytes leave. -/
theorem smallHeap_runs :
    (smallHeap.bind fun s => execute (guardedStep noFalseMerge) s
      [.alloc 8, .alloc 20, .alloc 16, .free 0]).map (·.live) = some [(16, 16), (32, 32)] ∧
    (smallHeap.bind fun s => execute heapStep s
      [.alloc 32, .alloc 16, .alloc 8, .alloc 8, .alloc 32, .alloc 16, .free 56,
        .alloc 128]).map (·.live) =
      some [(0, 128), (96, 16), (64, 32), (48, 8), (32, 16), (0, 32)] ∧
    (smallHeap.bind fun s => execute (guardedStep noLostMerge) s
      [.alloc 8, .alloc 8, .alloc 16, .free 8]).map
        (fun s => (buddyAlloc s.heap 128).map (·.1)) = some (some 0) ∧
    (smallHeap.bind fun s => execute heapStep s [.alloc 8, .free 0]).map
      (fun s => (s.live, (buddyAlloc s.heap 128).map (·.1))) = some ([], some 0) := by
  refine ⟨?_, ?_, ?_, ?_⟩ <;> decide +kernel

/-- Two blocks out of three are left after a release that merges nothing wrongly. -/
theorem small_heap_wellPlaced :
    ∃ s₀ s, smallHeap = some s₀ ∧
      Run (GuardedStep noFalseMerge) s₀ [.alloc 8, .alloc 20, .alloc 16, .free 0] s ∧
      s.live = [(16, 16), (32, 32)] ∧ WellPlaced (2 ^ 7) s.live := by
  obtain ⟨s₀, s, hinit, hrun, hlive⟩ := exists_run_of_execute _ _ _ _ _ smallHeap_runs.1
  exact ⟨s₀, s, hinit, hrun, hlive,
    live_wellPlaced (k := 7) (by decide) (by decide) (by decide) (by decide) hinit hrun⟩

/-- Releasing the 8 bytes at 56 gives their 64-byte ancestor the children's
logarithms 3 and 3, which add up to its own: the first half counts as free again
although three blocks live there. -/
theorem live_overlap_after_false_merge :
    ∃ s₀ s, smallHeap = some s₀ ∧
      Run (fun s a s' => heapStep s a = some s') s₀
        [.alloc 32, .alloc 16, .alloc 8, .alloc 8, .alloc 32, .alloc 16, .free 56, .alloc 128] s ∧
      ¬ WellPlaced (2 ^ 7) s.live := by
  obtain ⟨s₀, s, hinit, hrun, hlive⟩ := exists_run_of_execute _ _ _ _ _ smallHeap_runs.2.1
  refine ⟨s₀, s, hinit, hrun, fun hplaced => ?_⟩
  have hpair := hplaced.noOverlap
  rw [hlive] at hpair
  exact absurd hpair (by decide)

/-- Where, in addition, no release leaves two free halves of a byte node apart,
`buddy_alloc` returns `NULL` only when no aligned block of the rounded size is
free, and a heap with nothing live can be handed out as a whole. -/
theorem buddyAlloc_null_only_when_full {k : ℕ} (hlo : 7 ≤ k) (hhi : k ≤ 30) (hpos : 0 < space)
    (hfits : space + 2 ^ k ≤ 2 ^ 64) {bbase : ℕ → Byte} {cpu : Processor} {mem : ℕ → Byte}
    {s₀ : LiveHeap} (hinit : liveInit (2 ^ k) space bbase cpu mem = some s₀)
    {ops : List HeapOp} (hrun : Run (GuardedStep noLostMerge) s₀ ops s) :
    (∀ size h', size ≤ 2 ^ k → buddyAlloc s.heap size = some (0, h') →
      ∀ offset, blockSize size ∣ offset → offset + blockSize size ≤ 2 ^ k →
        ∃ x ∈ s.live, ¬ NoOverlap (offset, blockSize size) x) ∧
    (s.live = [] → ∃ ptr h', buddyAlloc s.heap (2 ^ k) = some (ptr, h') ∧ ptr ≠ 0) := by
  obtain ⟨t, hb, ht⟩ := backed_of_run hlo hhi hpos hfits hinit (by simp +contextual) hrun
  have htidy : t.Tidy := ht (by grind)
  have hhi' := hb.stands.sized.hi
  have hk : k = k - 3 + 3 := by omega
  constructor
  · intro size h' hsize hcall offset hdvd hin
    rw [hk] at hsize hin
    obtain ⟨e, hen, hround, hmax⟩ := roundSize_eq hhi' hsize
    have hnull : ¬ e < t.room := by
      intro hroom
      obtain ⟨o, t', h'', hcall', -⟩ :=
        (hb.stands.buddyAlloc (unlocked_of_buddyAlloc hcall) hen hround).2 hroom
      rw [hcall, Option.some.injEq, Prod.mk.injEq] at hcall'
      omega
    rw [blockSize, hmax] at hdvd hin ⊢
    by_contra hfree
    refine hnull (hb.room_of_free htidy hdvd hin fun x hx => ?_)
    by_contra hover
    exact hfree ⟨x, hx, hover⟩
  · intro hnil
    have hroom : k - 3 < t.room := hb.room_of_free htidy (dvd_zero _) (by omega) (by simp [hnil])
    have hlock : s.heap.buddy.lock.locked = false := by
      by_contra hl
      exact hb.lock (by simpa using hl) hroom
    obtain ⟨e, hen, hround, hmax⟩ := roundSize_eq hhi' (le_refl (2 ^ (k - 3 + 3)))
    obtain ⟨o, t', h', hcall, -⟩ :=
      (hb.stands.buddyAlloc hlock hen hround).2 (by omega)
    rw [← hk] at hcall
    exact ⟨_, h', hcall, by omega⟩

/-- After the release of a 16-byte block the heap of three blocks is refused a
request for all of it. -/
theorem small_heap_refuses_all :
    ∃ s₀ s, smallHeap = some s₀ ∧
      Run (GuardedStep noLostMerge) s₀ [.alloc 8, .alloc 8, .alloc 16, .free 8] s ∧
      (∃ h', buddyAlloc s.heap 128 = some (0, h')) ∧
      ∀ offset, blockSize 128 ∣ offset → offset + blockSize 128 ≤ 2 ^ 7 →
        ∃ x ∈ s.live, ¬ NoOverlap (offset, blockSize 128) x := by
  obtain ⟨s₀, s, hinit, hrun, hptr⟩ := exists_run_of_execute _ _ _ _ _ smallHeap_runs.2.2.1
  obtain ⟨⟨ptr, h'⟩, hcall, rfl⟩ := Option.map_eq_some_iff.mp hptr
  have hfull := buddyAlloc_null_only_when_full (k := 7) (by decide) (by decide) (by decide)
    (by decide) hinit hrun
  exact ⟨s₀, s, hinit, hrun, ⟨h', hcall⟩, hfull.1 128 h' (by decide) hcall⟩

/-- One block of 8 bytes, allocated and released: the free halves of every byte
node stay apart, and the whole heap is not available again. -/
theorem whole_heap_lost_after_release :
    ∃ s₀ s h', smallHeap = some s₀ ∧
      Run (fun s a s' => heapStep s a = some s') s₀ [.alloc 8, .free 0] s ∧
      s.live = [] ∧ buddyAlloc s.heap 128 = some (0, h') := by
  obtain ⟨s₀, s, hinit, hrun, hobs⟩ := exists_run_of_execute _ _ _ _ _ smallHeap_runs.2.2.2
  obtain ⟨hlive, hptr⟩ := Prod.mk.inj hobs
  obtain ⟨⟨ptr, h'⟩, hcall, rfl⟩ := Option.map_eq_some_iff.mp hptr
  exact ⟨s₀, s, h', hinit, hrun, hlive, hcall⟩

end K210Os
