import K210Os.BuddySizes

/-!
# The heap's lock over any run

`buddy_alloc` returns early when the root reports too little, and leaves the lock held.
Here sizes and pointers of the calls are arbitrary, so nothing is known of the tree: all
that is kept is that no byte reports more than its node can hold.
-/

namespace K210Os

open BitmapBuddy Transition

variable {n w d i size : ℕ} {b b' : BitmapBuddy}

/-- A call by a hart in any state. -/
inductive HeapCall where
  | alloc (cpu : Processor) (size : ℕ)
  | free (cpu : Processor) (ptr : ℕ)

def heapCall (h : KHeap) : HeapCall → Option KHeap
  | .alloc cpu size => (buddyAlloc { h with cpu := cpu } size).map (·.2)
  | .free cpu ptr => buddyFree { h with cpu := cpu } ptr

/-- The early return of `buddy_alloc`. -/
def refused (h : KHeap) (size : ℕ) : Bool := pow2 (h.buddy.bbt 0).toNat < roundSize size

/-- An allocation of a 32-bit size that is not refused, or any release. -/
def accepted (h : KHeap) : HeapCall → Bool
  | .alloc _ size => size < 2 ^ 32 && !refused h size
  | .free _ _ => true

def acceptedCall (h : KHeap) (a : HeapCall) : Option KHeap :=
  if accepted h a then heapCall h a else none

def AcceptedCall (h : KHeap) (a : HeapCall) (h' : KHeap) : Prop := acceptedCall h a = some h'

/-- No byte reports more than the whole block of its node. -/
def Bounded (n : ℕ) (b : BitmapBuddy) : Prop :=
  ∀ w i, w ≤ n → OnRow w i → b.getSize i ≤ n + 3 - w

theorem bitmapSet_byte (i j : ℕ) (v : Bool) (hj : b.inBitmap j = false) :
    (b.bitmapSet i v).bbt j = b.bbt j := by
  simp only [BitmapBuddy.inBitmap, decide_eq_false_iff_not] at hj
  simp only [BitmapBuddy.bitmapSet]
  exact Function.update_of_ne (by omega) _ _

/-- On the bit levels the bound holds whatever the bits are. -/
theorem Sized.getSize_bit_le (hs : Sized n b) (hw : w ≤ n) (hi : OnRow w i)
    (hb : b.inBitmap i = true) : b.getSize i ≤ n + 3 - w := by
  have hlo := hs.lo
  have hrow := (hs.inBitmap_iff hi).mp hb
  cases hp : b.inBitmap (parent i) with
  | true =>
      rw [getSize_leaf hb hp]
      split <;> omega
  | false =>
      have hwn : w + 1 = n := by
        rcases Nat.eq_or_lt_of_le hrow with heq | hlt
        · exact heq.symm
        · obtain ⟨w, rfl⟩ : ∃ v, w = v + 1 := ⟨w - 1, by omega⟩
          have := (hs.inBitmap_iff hi.parent).mpr (by omega)
          simp [hp] at this
      rw [getSize_pair hb hp]
      split
      · omega
      · split <;> split <;> omega

/-- A table is bounded by its bytes. -/
theorem Sized.bounded (hs : Sized n b) (h : ∀ w i, w ≤ n → OnRow w i → b.inBitmap i = false →
    (b.bbt i).toNat ≤ n + 3 - w) : Bounded n b := by
  intro w i hw hi
  cases hb : b.inBitmap i with
  | true => exact hs.getSize_bit_le hw hi hb
  | false =>
      rw [getSize_byte hb, cell_of_not_inBitmap hb]
      exact h w i hw hi hb

theorem Bounded.byte_le (h : Bounded n b) (hw : w ≤ n) (hi : OnRow w i)
    (hb : b.inBitmap i = false) : (b.bbt i).toNat ≤ n + 3 - w := by
  have := h w i hw hi
  rwa [getSize_byte hb, cell_of_not_inBitmap hb] at this

theorem Bounded.bitmapSet (h : Bounded n b) (hs : Sized n b) (j : ℕ) (v : Bool) :
    Bounded n (b.bitmapSet j v) := by
  refine (hs.bitmapSet j v).bounded fun w i hw hi hb => ?_
  rw [bitmapSet_inBitmap] at hb
  rw [bitmapSet_byte j i v hb]
  exact h.byte_le hw hi hb

theorem onRow_unique {v : ℕ} (hv : OnRow v i) (hw : OnRow w i) : v = w := by
  have h1 := (Nat.pow_lt_pow_iff_right (a := 2) (by omega)).mp (hv.1.trans_lt hw.2)
  have h2 := (Nat.pow_lt_pow_iff_right (a := 2) (by omega)).mp (hw.1.trans_lt hv.2)
  omega

theorem Bounded.setByte (h : Bounded n b) (hs : Sized n b) {j value : ℕ} (hj : OnRow w j)
    (hv : value ≤ n + 3 - w) : Bounded n (b.setByte j value) := by
  have hn := hs.hi
  refine (hs.setByte j value).bounded fun v i hvn hi hb => ?_
  rw [setByte_inBitmap] at hb
  simp only [BitmapBuddy.setByte, Function.update_apply]
  split
  · rename_i heq
    rw [heq] at hi
    obtain rfl := onRow_unique hi hj
    rw [BitVec.toNat_ofNat]
    exact (Nat.mod_le _ _).trans hv
  · exact h.byte_le hvn hi hb

/-! ## Allocation -/

theorem roundSize_cases (hsize : size < 2 ^ 32) :
    roundSize size = 0 ∨ ∃ e ≤ 28, roundSize size = 2 ^ (e + 3) := by
  unfold roundSize
  rcases Nat.lt_or_ge 8 size with hbig | hsmall
  · rw [if_neg (by omega)]
    by_cases hp : isPowerOf2 size = true
    · obtain ⟨k, rfl⟩ := (isPowerOf2_iff (by omega)).mp hp
      have hk : k < 32 := (Nat.pow_lt_pow_iff_right (by omega)).mp hsize
      have hk3 : 3 < k := (Nat.pow_lt_pow_iff_right (by omega)).mp (show 2 ^ 3 < 2 ^ k from hbig)
      refine Or.inr ⟨k - 3, by omega, ?_⟩
      rw [show k - 3 + 3 = k by omega]
      simp [hp]
    · simp only [hp, Bool.not_false, if_true]
      have hne : size ≠ 0 := by omega
      have hlo := Nat.log2_self_le hne
      have hhi := Nat.lt_log2_self (n := size)
      have h3 : 3 ≤ size.log2 := (Nat.le_log2 hne).mpr (by omega)
      have h32 : size.log2 < 32 := (Nat.log2_lt hne).mpr hsize
      rcases Nat.lt_or_ge size.log2 31 with hlt | hge
      · refine Or.inr ⟨size.log2 - 2, by omega, ?_⟩
        rw [fixsize_eq hlt hlo hhi, show size.log2 - 2 + 3 = size.log2 + 1 by omega]
      · left
        rw [show size.log2 = 31 by omega] at hlo hhi
        exact fixsize_mod (by omega) hlo hhi
  · rw [if_pos hsmall]
    exact Or.inr ⟨0, by omega, rfl⟩

theorem buddyAllocSearch_row {nodeSize steps fuel : ℕ} (hi : OnRow w i) (hfuel : steps < fuel)
    (hbig : ∀ k < steps, nodeSize / 2 ^ k ≠ size) (hend : nodeSize / 2 ^ steps = size) :
    ∃ j, buddyAllocSearch b size fuel nodeSize i = some (size, j) ∧ OnRow (w + steps) j := by
  induction steps generalizing w i nodeSize fuel with
  | zero =>
      obtain ⟨fuel, rfl⟩ : ∃ f, fuel = f + 1 := ⟨fuel - 1, by omega⟩
      rw [pow_zero, Nat.div_one] at hend
      exact ⟨i, by rw [buddyAllocSearch, if_pos hend, hend], hi⟩
  | succ steps ih =>
      obtain ⟨fuel, rfl⟩ : ∃ f, fuel = f + 1 := ⟨fuel - 1, by omega⟩
      have hne : nodeSize ≠ size := by simpa using hbig 0 (by omega)
      have hhalf : ∀ k, nodeSize / 2 / 2 ^ k = nodeSize / 2 ^ (k + 1) := fun k => by
        rw [Nat.div_div_eq_div_mul, pow_succ, mul_comm]
      have hrest : ∀ j, OnRow (w + 1) j →
          ∃ k, buddyAllocSearch b size fuel (nodeSize / 2) j = some (size, k) ∧
            OnRow (w + 1 + steps) k := fun j hj => ih hj (by omega)
        (fun k hk => by rw [hhalf]; exact hbig (k + 1) (by omega)) (by rw [hhalf]; exact hend)
      rw [buddyAllocSearch, if_neg hne, show w + (steps + 1) = w + 1 + steps by omega]
      split
      · exact hrest _ hi.leftLeaf
      · exact hrest _ hi.rightLeaf

theorem Bounded.up (h : Bounded n b) (hs : Sized n b) (hi : OnRow (w + 1) i) :
    Bounded n (buddyAllocUp b i) := by
  have hp := hi.parent
  have hin := hs.inBitmap_iff hi
  have hinp := hs.inBitmap_iff hp
  have hl := hp.leftLeaf
  have hr := hp.rightLeaf
  unfold buddyAllocUp
  simp only
  split
  · split
    · exact h.bitmapSet hs _ _
    · rename_i hout
      rw [hinp] at hout
      have := h (w + 1) _ (by omega) hl
      have := h (w + 1) _ (by omega) hr
      exact h.setByte hs hp (by omega)
  · rename_i hout
    rw [hin] at hout
    have hbyte : ∀ j, OnRow (w + 1) j → b.inBitmap j = false := fun j hj => by
      rw [Bool.eq_false_iff, Ne, hs.inBitmap_iff hj]
      exact hout
    have := h.byte_le (by omega) hl (hbyte _ hl)
    have := h.byte_le (by omega) hr (hbyte _ hr)
    exact h.setByte hs hp (by omega)

theorem Bounded.backtrack {fuel : ℕ} (h : Bounded n b) (hs : Sized n b) (hi : OnRow w i)
    (hfuel : w ≤ fuel) : ∃ t, buddyAllocBacktrack fuel b i = some t ∧ SameHeader b t ∧
      Bounded n t := by
  induction w generalizing b i fuel with
  | zero =>
      have hzero : i = 0 := by
        have := hi.2
        omega
      unfold buddyAllocBacktrack
      exact ⟨b, by simp [hzero], SameHeader.refl b, h⟩
  | succ w ih =>
      obtain ⟨fuel, rfl⟩ : ∃ f, fuel = f + 1 := ⟨fuel - 1, by omega⟩
      have hne : i ≠ 0 := by
        have hstart := hi.1
        have hpow := Nat.two_pow_pos w
        rw [pow_succ] at hstart
        omega
      have hhead := buddyAllocUp_header b i
      obtain ⟨t, ht, hsame, hbound⟩ :=
        ih (h.up hs hi) (hhead.sized hs) hi.parent (show w ≤ fuel by omega)
      exact ⟨t, by rw [buddyAllocBacktrack_step _ _ hne, ht], hhead.trans hsame, hbound⟩

theorem Bounded.mark (h : Bounded n b) (hs : Sized n b) (hi : OnRow w i) :
    SameHeader b (buddyMark b size i) ∧ Bounded n (buddyMark b size i) := by
  unfold buddyMark
  split
  · exact ⟨rfl, h.bitmapSet hs _ _⟩
  · exact ⟨rfl, h.setByte hs hi (Nat.zero_le _)⟩

/-- What every call that returns keeps. -/
structure HeapSound (n space : ℕ) (b : BitmapBuddy) : Prop where
  sized : Sized n b
  bounded : Bounded n b
  lock : b.lock = initlock
  space_eq : b.space = space

variable {space : ℕ} {h h' : KHeap}

theorem HeapSound.with_lock (hs : HeapSound n space b) (lock : Spinlock) :
    Sized n { b with lock := lock } ∧ Bounded n { b with lock := lock } :=
  ⟨⟨hs.sized.size, hs.sized.lo, hs.sized.hi⟩, hs.bounded⟩

theorem HeapSound.root_le (hs : HeapSound n space b) : (b.bbt 0).toNat ≤ n + 3 := by
  have hout : b.inBitmap 0 = false := by
    rw [Bool.eq_false_iff, Ne, hs.sized.inBitmap_iff onRow_zero]
    have := hs.sized.lo
    omega
  exact hs.bounded.byte_le (Nat.zero_le n) onRow_zero hout

/-- The steps that the search makes for a size that is not refused. -/
theorem HeapSound.steps (hs : HeapSound n space h.buddy) (hsize : size < 2 ^ 32)
    (haccept : ¬ pow2 (h.buddy.bbt 0).toNat < roundSize size) :
    ∃ steps < 32, (∀ k < steps, 2 ^ (n + 3) / 2 ^ k ≠ roundSize size) ∧
      2 ^ (n + 3) / 2 ^ steps = roundSize size ∧
      (roundSize size = 0 ∨ ∃ e ≤ n, roundSize size = 2 ^ (e + 3) ∧ steps = n - e) := by
  have hn := hs.sized.hi
  have hroot := hs.root_le
  have hdiv : ∀ k ≤ n + 3, 2 ^ (n + 3) / 2 ^ k = 2 ^ (n + 3 - k) := fun k hk =>
    Nat.pow_div hk (by omega)
  rcases roundSize_cases hsize with hzero | ⟨e, -, he⟩
  · refine ⟨n + 4, by omega, fun k hk => ?_, ?_, Or.inl hzero⟩
    · rw [hzero, hdiv k (by omega)]
      exact (Nat.two_pow_pos _).ne'
    · rw [hzero]
      exact Nat.div_eq_of_lt (Nat.pow_lt_pow_right (by omega) (by omega))
  · rw [he, pow2_eq _ (by omega), not_lt, Nat.pow_le_pow_iff_right (by omega)] at haccept
    refine ⟨n - e, by omega, fun k hk heq => ?_, ?_, Or.inr ⟨e, by omega, he, rfl⟩⟩
    · rw [he, hdiv k (by omega)] at heq
      have := Nat.pow_right_injective (le_refl 2) heq
      omega
    · rw [he, hdiv _ (by omega)]
      congr 1
      omega

/-- An allocation that is not refused returns a block, with lock and depth as before. -/
theorem HeapSound.alloc (hs : HeapSound n space h.buddy) (hspace : 2 ^ (n + 3) < space)
    (hfits : space + 2 ^ (n + 3) ≤ 2 ^ 64) (hsize : size < 2 ^ 32)
    (haccept : ¬ pow2 (h.buddy.bbt 0).toNat < roundSize size) :
    ∃ ptr h', buddyAlloc h size = some (ptr, h') ∧ ptr ≠ 0 ∧ HeapSound n space h'.buddy ∧
      h'.cpu.depthOfIr = h.cpu.depthOfIr ∧ (roundSize size ≠ 0 →
        space ≤ ptr ∧ ptr + roundSize size ≤ space + 2 ^ (n + 3)) := by
  have hunlocked : h.buddy.lock.locked = false := by rw [hs.lock]; rfl
  have hacq := acquire_of_unlocked h.cpu hunlocked
  obtain ⟨b, hb⟩ : ∃ b, { h.buddy with lock := ⟨true, some h.cpu.hartid⟩ } = b := ⟨_, rfl⟩
  obtain ⟨hsized, hbound⟩ := hs.with_lock ⟨true, some h.cpu.hartid⟩
  have hspaceb : b.space = space := by rw [← hb]; exact hs.space_eq
  have hlockb : b.lock = ⟨true, some h.cpu.hartid⟩ := by rw [← hb]
  have haccept' : ¬ pow2 (b.bbt 0).toNat < roundSize size := by rw [← hb]; exact haccept
  rw [hb] at hsized hbound
  obtain ⟨steps, hsteps, hbig, hend, hcases⟩ := hs.steps hsize haccept
  obtain ⟨index, hsearch, hrow⟩ := buddyAllocSearch_row (b := b) onRow_zero hsteps hbig hend
  obtain ⟨hmark, hmarked⟩ : SameHeader b (buddyMark b (roundSize size) index) ∧
      Bounded n (buddyMark b (roundSize size) index) := hbound.mark hsized hrow
  obtain ⟨after, hclimb, hsame, hafter⟩ :=
    hmarked.backtrack (hmark.sized hsized) hrow (show 0 + steps ≤ 32 by omega)
  have hheader := hmark.trans hsame
  have hlk := hheader.lock.trans hlockb
  obtain ⟨cpu, hrel, -, hdepth⟩ := release_pushOff h.cpu
  rw [← hlk] at hrel
  rw [← hsized.size] at hsearch
  have hcall := buddyAlloc_eq_some hacq hb rfl haccept' hsearch hclimb hrel
  have hpos := Nat.two_pow_pos (n + 3)
  have hptr : (after.space + ((index + 1) * roundSize size % 2 ^ 32 + 2 ^ 64 -
      (buddyMark b (roundSize size) index).size) % 2 ^ 64) % 2 ^ 64 =
      (space + ((index + 1) * roundSize size % 2 ^ 32 + 2 ^ 64 - 2 ^ (n + 3)) % 2 ^ 64) %
        2 ^ 64 := by
    rw [(hmark.sized hsized).size, hheader.space, hspaceb]
  simp only [hptr] at hcall
  have hblock : roundSize size ≠ 0 → space ≤ (space + ((index + 1) * roundSize size % 2 ^ 32 +
      2 ^ 64 - 2 ^ (n + 3)) % 2 ^ 64) % 2 ^ 64 ∧ (space + ((index + 1) * roundSize size % 2 ^ 32 +
      2 ^ 64 - 2 ^ (n + 3)) % 2 ^ 64) % 2 ^ 64 + roundSize size ≤ space + 2 ^ (n + 3) := by
    intro hne
    obtain ⟨e, hen, he, rfl⟩ := hcases.resolve_left hne
    rw [Nat.zero_add] at hrow
    have hinside := inside_bytes (hrow.inside hen)
    rw [he, offset_eq hsized.hi hen hrow, address_eq hfits (hrow.inside hen)]
    omega
  refine ⟨_, _, hcall, ?_, ⟨⟨(hheader.sized hsized).size, hsized.lo, hsized.hi⟩, hafter, rfl,
    hheader.space.trans hspaceb⟩, hdepth, hblock⟩
  by_cases hzero : roundSize size = 0
  · -- the block of size 0 that a size above `2 ^ 31` gets lies below the heap
    rw [hzero, Nat.mul_zero, Nat.zero_mod, Nat.zero_add]
    omega
  · have := (hblock hzero).1
    omega

/-! ## Release -/

/-- Wherever the search of `buddy_free` stops, the size goes with the row. -/
theorem buddyFreeFind_row {fuel nodeSize index : ℕ} (hi : OnRow w i) (hwd : w + d = n)
    (hfind : buddyFreeFind b fuel (2 ^ (d + 3)) i = some (nodeSize, index)) :
    ∃ v e, v + e = n ∧ nodeSize = 2 ^ (e + 3) ∧ OnRow v index := by
  induction fuel generalizing w d i with
  | zero =>
      unfold buddyFreeFind at hfind
      split at hfind
      · simp only [Option.some.injEq, Prod.mk.injEq] at hfind
        obtain ⟨rfl, rfl⟩ := hfind
        exact ⟨w, d, hwd, rfl, hi⟩
      · split at hfind <;> simp at hfind
  | succ fuel ih =>
      unfold buddyFreeFind at hfind
      split at hfind
      · simp only [Option.some.injEq, Prod.mk.injEq] at hfind
        obtain ⟨rfl, rfl⟩ := hfind
        exact ⟨w, d, hwd, rfl, hi⟩
      · split at hfind
        · simp at hfind
        · rename_i hne
          obtain ⟨w, rfl⟩ : ∃ v, w = v + 1 := by
            refine ⟨w - 1, ?_⟩
            by_contra hw
            obtain rfl : w = 0 := by omega
            have := hi.2
            omega
          have hdouble : 2 ^ (d + 3) * 2 = 2 ^ (d + 1 + 3) := by ring
          simp only [hdouble] at hfind
          exact ih hi.parent (by omega) hfind

theorem Bounded.unmark (h : Bounded n b) (hs : Sized n b) (hi : OnRow w i) (hwd : w + d = n) :
    SameHeader b (buddyUnmark b (2 ^ (d + 3)) i) ∧ Bounded n (buddyUnmark b (2 ^ (d + 3)) i) := by
  have hn := hs.hi
  unfold buddyUnmark
  split
  · exact ⟨rfl, h.bitmapSet hs _ _⟩
  · rw [log2_two_pow _ (by omega)]
    exact ⟨rfl, h.setByte hs hi (by omega)⟩

theorem Bounded.freeUp (h : Bounded n b) (hs : Sized n b) (hi : OnRow w i)
    (hwd : w + (d + 1) = n) :
    SameHeader b (buddyFreeUp b (2 ^ (d + 4)) i) ∧ Bounded n (buddyFreeUp b (2 ^ (d + 4)) i) := by
  have hn := hs.hi
  have hl := h (w + 1) _ (by omega) hi.leftLeaf
  have hr := h (w + 1) _ (by omega) hi.rightLeaf
  unfold buddyFreeUp
  simp only [log2_two_pow (d + 4) (by omega)]
  split
  · exact ⟨rfl, h.bitmapSet hs _ _⟩
  · split
    · exact ⟨rfl, h.setByte hs hi (by omega)⟩
    · exact ⟨rfl, h.setByte hs hi (by omega)⟩

theorem Bounded.merge {fuel : ℕ} {after : BitmapBuddy} (h : Bounded n b) (hs : Sized n b)
    (hi : OnRow w i) (hwd : w + d = n)
    (hmerge : buddyFreeMerge fuel b (2 ^ (d + 3)) i = some after) :
    SameHeader b after ∧ Bounded n after := by
  induction fuel generalizing b w d i with
  | zero =>
      unfold buddyFreeMerge at hmerge
      split at hmerge
      · simp only [Option.some.injEq] at hmerge
        subst hmerge
        exact ⟨rfl, h⟩
      · simp at hmerge
  | succ fuel ih =>
      by_cases hzero : i = 0
      · unfold buddyFreeMerge at hmerge
        simp only [hzero, if_true, Option.some.injEq] at hmerge
        subst hmerge
        exact ⟨rfl, h⟩
      · obtain ⟨w, rfl⟩ : ∃ v, w = v + 1 := by
          refine ⟨w - 1, ?_⟩
          by_contra hw
          obtain rfl : w = 0 := by omega
          have := hi.2
          omega
        have hdouble : 2 ^ (d + 3) * 2 = 2 ^ (d + 4) := by ring
        rw [buddyFreeMerge_step _ _ _ hzero, hdouble] at hmerge
        obtain ⟨hhead, hbound⟩ := h.freeUp hs hi.parent (show w + (d + 1) = n by omega)
        obtain ⟨hsame, hafter⟩ := ih hbound (hhead.sized hs) hi.parent
          (show w + (d + 1) = n by omega) hmerge
        exact ⟨hhead.trans hsame, hafter⟩

theorem Sized.buddyFreeNode_row (hs : Sized n b) {offset nodeSize index : ℕ}
    (hlt : offset < b.size) (hnode : buddyFreeNode b offset = some (nodeSize, index)) :
    ∃ v e, v + e = n ∧ nodeSize = 2 ^ (e + 3) ∧ OnRow v index := by
  have hq : offset / 8 < 2 ^ n := by
    rw [hs.size, pow_add] at hlt
    omega
  have hleaf : OnRow (n - 0) (nodeIndex n 0 (offset / 8)) :=
    onRow_nodeIndex (x := (offset / 8, 0)) ⟨by simp, by simp only [pow_zero]; omega⟩
  simp only [buddyFreeNode, hs.buddyFreeLeaf_eq, Option.bind_eq_bind, Option.bind_some] at hnode
  exact buddyFreeFind_row (d := 0) hleaf (by omega) hnode

/-- What a release that returns did. -/
theorem buddyFree_inv {ptr : ℕ} (hptr : ptr ≠ 0) (hcall : buddyFree h ptr = some h') :
    ∃ lock nodeSize index after lock', ∃ offset < h.buddy.size,
      buddyFreeNode { h.buddy with lock := lock } offset = some (nodeSize, index) ∧
      buddyFreeMerge 32 (buddyUnmark { h.buddy with lock := lock } nodeSize index) nodeSize index =
        some after ∧
      lock' = initlock ∧ h'.buddy = { after with lock := lock' } := by
  unfold buddyFree at hcall
  rw [if_neg hptr] at hcall
  simp only [Option.bind_eq_bind, Option.bind_eq_some_iff, Option.pure_def] at hcall
  obtain ⟨⟨cpu, lock⟩, -, hcall⟩ := hcall
  split at hcall
  · simp at hcall
  · rename_i hlt
    simp only [Bool.not_eq_true', decide_eq_false_iff_not, not_not] at hlt
    simp only [Option.bind_eq_some_iff, Option.some.injEq] at hcall
    obtain ⟨⟨nodeSize, index⟩, hnode, after, hmerge, ⟨cpu', lock'⟩, hrel, rfl⟩ := hcall
    exact ⟨lock, nodeSize, index, after, lock', _, hlt, hnode, hmerge, release_eq_some hrel, rfl⟩

theorem HeapSound.free (hs : HeapSound n space h.buddy) {ptr : ℕ}
    (hcall : buddyFree h ptr = some h') : HeapSound n space h'.buddy := by
  by_cases hptr : ptr = 0
  · simp only [buddyFree, hptr, if_true, Option.pure_def, Option.some.injEq] at hcall
    subst hcall
    exact hs
  · obtain ⟨lock, nodeSize, index, after, lock', offset, hlt, hnode, hmerge, hlock, hbuddy⟩ :=
      buddyFree_inv hptr hcall
    obtain ⟨hsized, hbound⟩ := hs.with_lock lock
    obtain ⟨v, e, hve, rfl, hrow⟩ := hsized.buddyFreeNode_row hlt hnode
    obtain ⟨hunmark, hunmarked⟩ := hbound.unmark hsized hrow hve
    obtain ⟨hsame, hafter⟩ := hunmarked.merge (hunmark.sized hsized) hrow hve hmerge
    have hheader := hunmark.trans hsame
    have hs' := hheader.sized hsized
    rw [hbuddy]
    exact ⟨⟨hs'.size, hs'.lo, hs'.hi⟩, hafter, hlock, hheader.space.trans hs.space_eq⟩

/-! ## Runs -/

theorem heapSound_init {k : ℕ} (hlo : 7 ≤ k) (hhi : k ≤ 30) {bbase : ℕ → Byte} {cpu : Processor}
    {mem : ℕ → Byte} (hinit : heapAllocatorInit (2 ^ k) space bbase cpu mem = some h) :
    HeapSound (k - 3) space h.buddy := by
  obtain ⟨b, hnew, hlock, hwf⟩ := wellFormed_new (n := k - 3) (by omega) (by omega) bbase
  rw [show k - 3 + 3 = k by omega] at hnew
  simp only [heapAllocatorInit, hnew, Option.map_some, Option.some.injEq] at hinit
  subst hinit
  refine ⟨⟨hwf.sized.size, hwf.sized.lo, hwf.sized.hi⟩, fun w i hw hi => ?_, hlock, rfl⟩
  have hwd : w + (k - 3 - w) = k - 3 := by omega
  have hoff : OnRow (k - 3 - (k - 3 - w)) i := by rwa [show k - 3 - (k - 3 - w) = w by omega]
  have hblock : IsBlock (k - 3) (nodeOffset (k - 3) (k - 3 - w) i, k - 3 - w) := by
    refine ⟨?_, hoff.inside (by omega)⟩
    exact Nat.dvd_sub (dvd_mul_left _ _) (pow_dvd_pow 2 (by omega))
  have hread := (hwf.reads _ hblock).of_free ⟨hblock, by simp⟩
  simp only [nodeIndex_nodeOffset hi hwd] at hread
  exact hread.le.trans (by omega)

theorem HeapSound.step (hs : HeapSound n space h.buddy) (hspace : 2 ^ (n + 3) < space)
    (hfits : space + 2 ^ (n + 3) ≤ 2 ^ 64) {a : HeapCall} (hstep : AcceptedCall h a h') :
    HeapSound n space h'.buddy := by
  simp only [AcceptedCall, acceptedCall] at hstep
  split at hstep
  · rename_i haccept
    cases a with
    | alloc cpu size =>
        simp only [accepted, refused, Bool.and_eq_true, decide_eq_true_eq, Bool.not_eq_true',
          decide_eq_false_iff_not] at haccept
        obtain ⟨⟨ptr, h''⟩, hcall, rfl⟩ := Option.map_eq_some_iff.mp hstep
        obtain ⟨ptr', k, hcall', -, hsound, -, -⟩ :=
          HeapSound.alloc (h := { h with cpu := cpu }) hs hspace hfits haccept.1 haccept.2
        rw [hcall, Option.some.injEq, Prod.mk.injEq] at hcall'
        rw [hcall'.2]
        exact hsound
    | free cpu ptr => exact HeapSound.free (h := { h with cpu := cpu }) hs hstep
  · simp at hstep

/-- In every state that accepted calls lead to, an allocation returns with lock and depth as
they were, and with the tree as it was if it returns `NULL`, where the root reports the size,
and only there. The kernel is linked above address `2 ^ 31`. -/
theorem buddyAlloc_restores_iff {k : ℕ} (hlo : 7 ≤ k) (hhi : k ≤ 30) (hspace : 2 ^ 31 ≤ space)
    (hfits : space + 2 ^ k ≤ 2 ^ 64) {bbase : ℕ → Byte} {cpu₀ : Processor} {mem : ℕ → Byte}
    {h₀ : KHeap} (hinit : heapAllocatorInit (2 ^ k) space bbase cpu₀ mem = some h₀)
    {calls : List HeapCall} (hrun : Run AcceptedCall h₀ calls h) (cpu : Processor)
    (hsize : size < 2 ^ 32) :
    (∃ ptr h', buddyAlloc { h with cpu := cpu } size = some (ptr, h') ∧
        h'.buddy.lock = h.buddy.lock ∧ h'.cpu.depthOfIr = cpu.depthOfIr ∧
        (ptr = 0 → h'.buddy.bbt = h.buddy.bbt)) ↔
      ¬ pow2 (h.buddy.bbt 0).toNat < roundSize size := by
  have hk : k - 3 + 3 = k := by omega
  have hpow : 2 ^ k ≤ 2 ^ 30 := Nat.pow_le_pow_right (by omega) hhi
  have hspace' : 2 ^ (k - 3 + 3) < space := by
    rw [hk]
    omega
  have hfits' : space + 2 ^ (k - 3 + 3) ≤ 2 ^ 64 := by rwa [hk]
  have hs : HeapSound (k - 3) space h.buddy :=
    hrun.invariant (I := fun h => HeapSound (k - 3) space h.buddy)
      (fun s a s' hsound hstep => hsound.step hspace' hfits' hstep) (heapSound_init hlo hhi hinit)
  constructor
  · rintro ⟨ptr, h', hcall, hlock, -⟩ hrefused
    have hunlocked : ({ h with cpu := cpu } : KHeap).buddy.lock.locked = false := by
      simp only [hs.lock]
      rfl
    have hnull := buddyAlloc_eq_null hunlocked hrefused
    rw [hcall, Option.some.injEq, Prod.mk.injEq] at hnull
    rw [hnull.2, hs.lock] at hlock
    simp [initlock] at hlock
  · intro haccept
    obtain ⟨ptr, h', hcall, hne, hsound, hdepth, -⟩ :=
      HeapSound.alloc (h := { h with cpu := cpu }) hs hspace' hfits' hsize haccept
    exact ⟨ptr, h', hcall, hsound.lock.trans hs.lock.symm, hdepth, fun hnull => (hne hnull).elim⟩

def kernelHeap : Option KHeap :=
  heapAllocatorInit (2 ^ 7) (2 ^ 31) (fun _ => 0) ⟨0, true, 0, false⟩ fun _ => 0

/-- What four runs on a heap of 128 bytes leave. -/
theorem kernelHeap_runs :
    (kernelHeap.bind fun h => execute acceptedCall h
      [.alloc ⟨0, true, 0, false⟩ 32, .free ⟨0, true, 0, false⟩ (2 ^ 31)]).map
        (fun h => refused h 64) = some false ∧
    (kernelHeap.bind fun h => execute heapCall h [.alloc ⟨0, true, 0, false⟩ 128]).map
      (fun h => (h.buddy.lock, decide (pow2 (h.buddy.bbt 0).toNat < roundSize 8),
        h.cpu.depthOfIr)) = some (initlock, true, 0) ∧
    (kernelHeap.bind fun h => execute heapCall h [.alloc ⟨0, true, 0, false⟩ 9]).map
      (fun h => h.buddy.lock.locked) = some false ∧
    (kernelHeap.bind fun h₀ => (buddyAlloc h₀ (2 ^ 31 + 1)).map fun r =>
      (roundSize (2 ^ 31 + 1), decide (r.1 ≠ 0), decide (r.1 < h₀.buddy.space))) =
      some (0, true, true) := by
  refine ⟨?_, ?_, ?_, ?_⟩ <;> decide +kernel

/-- With 32 of 128 bytes given out and back, 64 bytes are accepted. -/
theorem buddyAlloc_restores_lock : ∃ h₀ h ptr h', kernelHeap = some h₀ ∧
    Run AcceptedCall h₀ [.alloc ⟨0, true, 0, false⟩ 32, .free ⟨0, true, 0, false⟩ (2 ^ 31)] h ∧
      buddyAlloc { h with cpu := ⟨1, true, 2, false⟩ } 64 = some (ptr, h') ∧
      h'.buddy.lock = h.buddy.lock ∧ h'.cpu.depthOfIr = 2 := by
  obtain ⟨h₀, h, hinit, hrun, hroot⟩ := exists_run_of_execute acceptedCall kernelHeap
    [.alloc ⟨0, true, 0, false⟩ 32, .free ⟨0, true, 0, false⟩ (2 ^ 31)] (fun h => refused h 64) false
    kernelHeap_runs.1
  simp only [refused, decide_eq_false_iff_not] at hroot
  have hsize : (64 : ℕ) < 2 ^ 32 := by omega
  obtain ⟨ptr, h', hcall, hlock, hdepth, -⟩ := (buddyAlloc_restores_iff (k := 7) (by omega)
    (by omega) le_rfl (by norm_num) hinit hrun ⟨1, true, 2, false⟩ hsize).mpr hroot
  exact ⟨h₀, h, ptr, h', hinit, hrun, hcall, hlock, hdepth⟩

/-- A full heap refuses 8 bytes and keeps the lock: no later call on it returns. -/
theorem buddyAlloc_keeps_lock : ∃ h₀ h h', kernelHeap = some h₀ ∧
    Run (fun h a h' => heapCall h a = some h') h₀ [.alloc ⟨0, true, 0, false⟩ 128] h ∧
      buddyAlloc h 8 = some (0, h') ∧ h'.buddy.lock ≠ h.buddy.lock ∧
      h'.cpu.depthOfIr ≠ h.cpu.depthOfIr ∧
      ∀ cpu, (∀ size, buddyAlloc { h' with cpu := cpu } size = none) ∧
        ∀ ptr ≠ 0, buddyFree { h' with cpu := cpu } ptr = none := by
  obtain ⟨h₀, h, hinit, hrun, hobs⟩ := exists_run_of_execute heapCall kernelHeap
    [.alloc ⟨0, true, 0, false⟩ 128]
    (fun h => (h.buddy.lock, decide (pow2 (h.buddy.bbt 0).toNat < roundSize 8), h.cpu.depthOfIr))
    (initlock, true, 0) kernelHeap_runs.2.1
  simp only [Prod.mk.injEq, decide_eq_true_eq] at hobs
  obtain ⟨hlock, hroot, hdepth⟩ := hobs
  refine ⟨h₀, h, _, hinit, hrun, buddyAlloc_eq_null (by rw [hlock]; rfl) hroot, ?_, ?_, ?_⟩
  · rw [hlock]
    simp [initlock]
  · simp [pushOff]
  · intro cpu
    have hacq : acquire cpu ⟨true, some h.cpu.hartid⟩ = none := by
      simp only [acquire]
      split <;> simp
    constructor
    · intro size
      simp only [buddyAlloc, hacq, Option.bind_eq_bind, Option.bind_none]
    · intro ptr hptr
      simp only [buddyFree, hptr, if_false, hacq, Option.bind_eq_bind, Option.bind_none]

/-! ## Sizes of the requests -/

/-- The size searched for is the least power of two that is at least 8 and the request. -/
theorem roundSize_isLeast (hsize : size ≤ 2 ^ 31) :
    IsLeast {p | max size 8 ≤ p ∧ ∃ k, p = 2 ^ k} (roundSize size) := by
  unfold roundSize
  rcases Nat.lt_or_ge 8 size with hbig | hsmall
  · rw [if_neg (by omega)]
    by_cases hp : isPowerOf2 size = true
    · simp only [hp, Bool.not_true, Bool.false_eq_true, if_false]
      refine ⟨⟨by omega, (isPowerOf2_iff (by omega)).mp hp⟩, fun p hle => ?_⟩
      exact (le_max_left _ _).trans hle.1
    · simp only [hp, Bool.not_false, if_true]
      have hne : size ≠ 0 := by omega
      have hlo := Nat.log2_self_le hne
      have hhi := Nat.lt_log2_self (n := size)
      have hnot : ∀ k, size ≠ 2 ^ k := fun k hk => hp ((isPowerOf2_iff hne).mpr ⟨k, hk⟩)
      have hlog : size.log2 < 31 := by
        have := hnot 31
        exact (Nat.log2_lt hne).mpr (by omega)
      rw [fixsize_eq hlog hlo hhi]
      refine ⟨⟨by omega, _, rfl⟩, ?_⟩
      rintro p ⟨hle, k, rfl⟩
      have hlt : 2 ^ size.log2 < 2 ^ k := by
        have := hnot size.log2
        omega
      have hk := (Nat.pow_lt_pow_iff_right (a := 2) (by omega)).mp hlt
      exact Nat.pow_le_pow_right (by omega) hk
  · rw [if_pos hsmall]
    exact ⟨⟨by omega, 3, rfl⟩, fun p hle => (le_max_right _ _).trans hle.1⟩

/-- Above `2 ^ 31` the rounding wraps around to 0. -/
theorem roundSize_wraps (hlo : 2 ^ 31 < size) (hhi : size < 2 ^ 32) : roundSize size = 0 := by
  have hne : size ≠ 0 := by omega
  have hp : ¬ isPowerOf2 size = true := by
    intro hp
    obtain ⟨k, rfl⟩ := (isPowerOf2_iff hne).mp hp
    have h1 := (Nat.pow_lt_pow_iff_right (a := 2) (by omega)).mp hlo
    have h2 := (Nat.pow_lt_pow_iff_right (a := 2) (by omega)).mp hhi
    omega
  simp only [roundSize, if_neg (by omega : ¬ size ≤ 8), hp, Bool.not_false, if_true]
  exact fixsize_mod (n := 31) (by omega) hlo.le hhi

/-- A call with a 32-bit size, by a hart in any state. -/
def SizedCall (h : KHeap) (a : HeapCall) (h' : KHeap) : Prop :=
  (∀ cpu size, a = .alloc cpu size → size < 2 ^ 32) ∧ heapCall h a = some h'

/-- While the lock is held no call gets past `acquire`. -/
theorem heapCall_locked {a : HeapCall} (hlock : h.buddy.lock.locked = true)
    (hcall : heapCall h a = some h') : h'.buddy.lock.locked = true := by
  have hacq : ∀ cpu, acquire cpu h.buddy.lock = none := fun cpu => by
    simp [acquire, hlock]
  cases a with
  | alloc cpu size => simp [heapCall, buddyAlloc, hacq] at hcall
  | free cpu ptr =>
      by_cases hptr : ptr = 0
      · simp only [heapCall, buddyFree, hptr, if_true, Option.pure_def, Option.some.injEq] at hcall
        rw [← hcall]
        exact hlock
      · simp [heapCall, buddyFree, hptr, hacq] at hcall

/-- A call leaves a sound heap, or its lock held. -/
theorem HeapSound.sizedStep (hs : HeapSound n space h.buddy) (hspace : 2 ^ (n + 3) < space)
    (hfits : space + 2 ^ (n + 3) ≤ 2 ^ 64) {a : HeapCall} (hstep : SizedCall h a h') :
    HeapSound n space h'.buddy ∨ h'.buddy.lock.locked = true := by
  obtain ⟨hsized, hcall⟩ := hstep
  by_cases hacc : accepted h a = true
  · exact .inl (hs.step hspace hfits (by rw [AcceptedCall, acceptedCall, if_pos hacc, hcall]))
  · cases a with
    | free cpu ptr => exact absurd rfl hacc
    | alloc cpu size =>
        have hlt := hsized cpu size rfl
        simp only [accepted, refused, Bool.and_eq_true, decide_eq_true_eq, hlt, true_and,
          Bool.not_eq_true', decide_eq_false_iff_not, not_not] at hacc
        have hunlocked : ({ h with cpu := cpu } : KHeap).buddy.lock.locked = false := by
          simp only [hs.lock]
          rfl
        have hnull := buddyAlloc_eq_null hunlocked hacc
        simp only [heapCall, hnull, Option.map_some, Option.some.injEq] at hcall
        right
        rw [← hcall]

/-- In every reachable heap that is not locked, `buddy_alloc` refuses a request or serves it
with a block inside the heap whose size is the least power of two that is large enough,
exactly for the sizes up to `2 ^ 31`. -/
theorem buddyAlloc_size_iff {k : ℕ} (hlo : 7 ≤ k) (hhi : k ≤ 30) (hspace : 2 ^ 31 ≤ space)
    (hfits : space + 2 ^ k ≤ 2 ^ 64) {bbase : ℕ → Byte} {cpu₀ : Processor} {mem : ℕ → Byte}
    {h₀ : KHeap} (hinit : heapAllocatorInit (2 ^ k) space bbase cpu₀ mem = some h₀)
    {calls : List HeapCall} (hrun : Run SizedCall h₀ calls h)
    (hlock : h.buddy.lock.locked = false) (cpu : Processor) (hsize : size < 2 ^ 32) :
    (∃ ptr h', buddyAlloc { h with cpu := cpu } size = some (ptr, h') ∧
        (ptr = 0 ∨ IsLeast {p | max size 8 ≤ p ∧ ∃ j, p = 2 ^ j} (roundSize size) ∧
          space ≤ ptr ∧ ptr + roundSize size ≤ space + 2 ^ k)) ↔ size ≤ 2 ^ 31 := by
  have hk : k - 3 + 3 = k := by omega
  have hpow : 2 ^ k ≤ 2 ^ 30 := Nat.pow_le_pow_right (by omega) hhi
  have hspace' : 2 ^ (k - 3 + 3) < space := by
    rw [hk]
    omega
  have hfits' : space + 2 ^ (k - 3 + 3) ≤ 2 ^ 64 := by rwa [hk]
  have hs : HeapSound (k - 3) space h.buddy := by
    have hinv := hrun.invariant
      (I := fun h => HeapSound (k - 3) space h.buddy ∨ h.buddy.lock.locked = true)
      (fun s a t hor hstep => hor.elim (fun hs => hs.sizedStep hspace' hfits' hstep)
        fun hheld => .inr (heapCall_locked hheld hstep.2)) (.inl (heapSound_init hlo hhi hinit))
    exact hinv.resolve_right (by rw [hlock]; decide)
  by_cases hrefused : pow2 (h.buddy.bbt 0).toNat < roundSize size
  · have hnull := buddyAlloc_eq_null (h := { h with cpu := cpu }) hlock hrefused
    refine ⟨fun _ => ?_, fun _ => ⟨0, _, hnull, .inl rfl⟩⟩
    by_contra hbig
    rw [roundSize_wraps (by omega) hsize] at hrefused
    exact absurd hrefused (Nat.not_lt_zero _)
  · obtain ⟨ptr, h', hcall, hne, -, -, hblock⟩ :=
      HeapSound.alloc (h := { h with cpu := cpu }) hs hspace' hfits' hsize hrefused
    constructor
    · rintro ⟨ptr', h'', hcall', hserved⟩
      obtain ⟨rfl, rfl⟩ := Prod.mk.inj (Option.some.inj (hcall.symm.trans hcall'))
      obtain ⟨⟨⟨hmem, -⟩, -⟩, -⟩ := hserved.resolve_left hne
      by_contra hbig
      rw [roundSize_wraps (by omega) hsize] at hmem
      omega
    · intro hle
      have hleast := roundSize_isLeast hle
      have hpos : roundSize size ≠ 0 := by
        have := hleast.1.1
        omega
      rw [hk] at hblock
      exact ⟨ptr, h', hcall, .inr ⟨hleast, hblock hpos⟩⟩

/-- A request of 20 bytes after a first one. -/
theorem buddyAlloc_size_twenty : ∃ h₀ h ptr h', kernelHeap = some h₀ ∧
    Run SizedCall h₀ [.alloc ⟨0, true, 0, false⟩ 9] h ∧
      buddyAlloc { h with cpu := ⟨0, true, 0, false⟩ } 20 = some (ptr, h') ∧
      (ptr = 0 ∨ IsLeast {p | max 20 8 ≤ p ∧ ∃ j, p = 2 ^ j} (roundSize 20) ∧
        2 ^ 31 ≤ ptr ∧ ptr + roundSize 20 ≤ 2 ^ 31 + 2 ^ 7) := by
  obtain ⟨h₀, h, hinit, hrun, hlock⟩ := exists_run_of_execute heapCall kernelHeap
    [.alloc ⟨0, true, 0, false⟩ 9] (fun h => h.buddy.lock.locked) false kernelHeap_runs.2.2.1
  have hsized : Run SizedCall h₀ [.alloc ⟨0, true, 0, false⟩ 9] h := by
    cases hrun with
    | step hstep hdone =>
        cases hdone
        refine .single ⟨fun cpu size heq => ?_, hstep⟩
        injection heq with _ hsize
        rw [← hsize]
        norm_num
  obtain ⟨ptr, h', hcall, hserved⟩ := (buddyAlloc_size_iff (k := 7) (by omega) (by omega) le_rfl
    (by norm_num) hinit hsized hlock ⟨0, true, 0, false⟩ (by norm_num : 20 < 2 ^ 32)).mpr
      (by norm_num)
  exact ⟨h₀, h, ptr, h', hinit, hsized, hcall, hserved⟩

/-- A request above `2 ^ 31` is served on a fresh heap of 128 bytes, with size 0 and an
address below the heap. -/
theorem buddyAlloc_size_huge : ∃ h₀ ptr h', kernelHeap = some h₀ ∧
    buddyAlloc h₀ (2 ^ 31 + 1) = some (ptr, h') ∧ roundSize (2 ^ 31 + 1) = 0 ∧ ptr ≠ 0 ∧
      ptr < h₀.buddy.space := by
  have hcalls := kernelHeap_runs.2.2.2
  simp only [Option.bind_eq_some_iff, Option.map_eq_some_iff, Prod.mk.injEq,
    decide_eq_true_eq] at hcalls
  obtain ⟨h₀, hinit, r, hcall, hround, hne, hlt⟩ := hcalls
  exact ⟨h₀, r.1, r.2, hinit, hcall, hround, hne, hlt⟩

end K210Os
