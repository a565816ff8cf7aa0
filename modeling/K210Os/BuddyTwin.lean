import K210Os.BuddyReads
import K210Os.BuddyRuns

/-!
# Allocation from a well-formed table

A well-formed table stands for a tree once the bits that `get_size` does not see are
cleared. Search, mark and climb do the same on the table and on its twin, so that what
is known of allocation on trees holds for every well-formed table.
-/

namespace K210Os

open BitmapBuddy BuddyTree

variable {n d e o base i index : ℕ} {used : List (ℕ × ℕ)} {b b' : BitmapBuddy}

theorem SameHeader.inBitmap (h : SameHeader b b') (i : ℕ) : b'.inBitmap i = b.inBitmap i := by
  rw [h]
  rfl

theorem cell_of_inBitmap (h : b.inBitmap i = true) : cell b i = (b.bitmapScanTest i).toNat := by
  rw [cell, if_pos h]

theorem cell_of_not_inBitmap (h : b.inBitmap i = false) : cell b i = (b.bbt i).toNat := by
  rw [cell, if_neg (by simp [h])]

theorem inBitmap_children (h : b.inBitmap i = true) :
    b.inBitmap (leftLeaf i) = true ∧ b.inBitmap (rightLeaf i) = true := by
  simp only [BitmapBuddy.inBitmap, decide_eq_true_eq] at h ⊢
  unfold leftLeaf rightLeaf
  omega

/-- What `get_size` returns for a node of the 16-byte level. -/
theorem getSize_pair (h : b.inBitmap i = true) (hp : b.inBitmap (parent i) = false) :
    b.getSize i = if cell b i = 0 then 0 else
      if cell b (leftLeaf i) = 0 then (if cell b (rightLeaf i) = 0 then 0 else 3)
      else if cell b (rightLeaf i) = 0 then 3 else 4 := by
  obtain ⟨hl, hr⟩ := inBitmap_children h
  have h8 : log2 8 = 3 := log2_two_pow 3 (by omega)
  have h16 : log2 16 = 4 := log2_two_pow 4 (by omega)
  rw [cell_of_inBitmap h, cell_of_inBitmap hl, cell_of_inBitmap hr, getSize, if_pos h,
    if_neg (by simp [hp]), h8, h16]
  cases b.bitmapScanTest i <;> cases b.bitmapScanTest (leftLeaf i) <;>
    cases b.bitmapScanTest (rightLeaf i) <;> rfl

theorem getSize_leaf (h : b.inBitmap i = true) (hp : b.inBitmap (parent i) = true) :
    b.getSize i = if cell b i = 0 then 0 else 3 := by
  have h8 : log2 8 = 3 := log2_two_pow 3 (by omega)
  rw [cell_of_inBitmap h, getSize, if_pos h, if_pos hp, h8]
  cases b.bitmapScanTest i <;> rfl

theorem getSize_byte (h : b.inBitmap i = false) : b.getSize i = cell b i := by
  rw [cell_of_not_inBitmap h, getSize, if_neg (by simp [h])]

/-- A node of the 16-byte level with both halves used up: its own bit is not seen. -/
structure Stray (b : BitmapBuddy) (i : ℕ) : Prop where
  bit : b.inBitmap i = true
  pair : b.inBitmap (parent i) = false
  left : cell b (leftLeaf i) = 0
  right : cell b (rightLeaf i) = 0

/-- `b'` is the table `b` with some unseen bits cleared. -/
structure Twin (b b' : BitmapBuddy) : Prop where
  header : SameHeader b b'
  cells : ∀ i, cell b' i = cell b i ∨ Stray b i ∧ cell b' i = 0

theorem Twin.cell_leaf (h : Twin b b') (hp : b.inBitmap (parent i) = true) :
    cell b' i = cell b i := by
  rcases h.cells i with hc | ⟨hs, -⟩
  · exact hc
  · simp [hs.pair] at hp

theorem Twin.cell_byte (h : Twin b b') (hi : b.inBitmap i = false) : cell b' i = cell b i := by
  rcases h.cells i with hc | ⟨hs, -⟩
  · exact hc
  · simp [hs.bit] at hi

theorem Twin.getSize (h : Twin b b') (i : ℕ) : b'.getSize i = b.getSize i := by
  have hin := h.header.inBitmap
  cases hi : b.inBitmap i with
  | false => rw [getSize_byte hi, getSize_byte ((hin i).trans hi), h.cell_byte hi]
  | true =>
      cases hp : b.inBitmap (parent i) with
      | true =>
          rw [getSize_leaf hi hp, getSize_leaf ((hin _).trans hi) ((hin _).trans hp), h.cell_leaf hp]
      | false =>
          have hl : cell b' (leftLeaf i) = cell b (leftLeaf i) :=
            h.cell_leaf (by rwa [parent_leftLeaf])
          have hr : cell b' (rightLeaf i) = cell b (rightLeaf i) :=
            h.cell_leaf (by rwa [parent_rightLeaf])
          rw [getSize_pair hi hp, getSize_pair ((hin _).trans hi) ((hin _).trans hp), hl, hr]
          rcases h.cells i with hc | ⟨hs, hc⟩
          · rw [hc]
          · simp [hc, hs.left, hs.right]

/-! ## The steps of an allocation -/

theorem Twin.search (h : Twin b b') (size fuel nodeSize index : ℕ) :
    buddyAllocSearch b size fuel nodeSize index = buddyAllocSearch b' size fuel nodeSize index := by
  induction fuel generalizing nodeSize index with
  | zero => rfl
  | succ fuel ih => simp only [buddyAllocSearch, h.getSize, ih]

/-- The same write to a cell of both tables; a leaf is only ever cleared. -/
theorem Twin.update {b₁ b₁' : BitmapBuddy} {v : ℕ} (h : Twin b b') (hb : SameHeader b b₁)
    (hbbt : SameHeader b₁ b₁')
    (hc : cell b₁ = Function.update (cell b) i v) (hc' : cell b₁' = Function.update (cell b') i v)
    (hv : b.inBitmap (parent i) = true → v = 0) : Twin b₁ b₁' := by
  refine ⟨hbbt, fun j => ?_⟩
  by_cases hj : j = i
  · left
    rw [hc, hc', hj, Function.update_self, Function.update_self]
  · rw [hc', Function.update_of_ne hj]
    rcases h.cells j with hcell | ⟨hs, hcell⟩
    · left
      rw [hc, Function.update_of_ne hj, hcell]
    · right
      have hclear : ∀ k, parent k = j → cell b k = 0 → cell b₁ k = 0 := by
        intro k hk hzero
        rw [hc]
        by_cases hki : k = i
        · rw [hki, Function.update_self]
          exact hv (by rw [← hki, hk]; exact hs.bit)
        · rw [Function.update_of_ne hki, hzero]
      refine ⟨⟨?_, ?_, hclear _ (parent_leftLeaf j) hs.left,
        hclear _ (parent_rightLeaf j) hs.right⟩, hcell⟩
      · rw [hb.inBitmap, hs.bit]
      · rw [hb.inBitmap, hs.pair]

theorem SameHeader.bitmapSet (h : SameHeader b b') (i : ℕ) (v : Bool) :
    SameHeader (b.bitmapSet i v) (b'.bitmapSet i v) := by
  rw [h]
  rfl

theorem SameHeader.setByte (h : SameHeader b b') (i v : ℕ) :
    SameHeader (b.setByte i v) (b'.setByte i v) := by
  rw [h]
  rfl

theorem Twin.bitmapSet (h : Twin b b') (hs : Sized n b) (hi : b.inBitmap i = true) (v : Bool)
    (hv : b.inBitmap (parent i) = true → v = false) :
    Twin (b.bitmapSet i v) (b'.bitmapSet i v) := by
  refine h.update rfl (h.header.bitmapSet i v) (hs.cell_bitmapSet hi v)
    ((h.header.sized hs).cell_bitmapSet ((h.header.inBitmap i).trans hi) v) fun hp => ?_
  rw [hv hp]
  rfl

theorem Twin.setByte (h : Twin b b') (hi : b.inBitmap i = false) {v : ℕ} (hv : v < 256)
    (hp : b.inBitmap (parent i) = false) : Twin (b.setByte i v) (b'.setByte i v) := by
  refine h.update rfl (h.header.setByte i v) (cell_setByte hi hv)
    (cell_setByte ((h.header.inBitmap i).trans hi) hv) fun hp' => ?_
  simp [hp] at hp'

theorem getSize_lt (b : BitmapBuddy) (i : ℕ) : b.getSize i < 256 := by
  cases hi : b.inBitmap i with
  | false =>
      rw [getSize_byte hi, cell_of_not_inBitmap hi]
      exact (b.bbt i).isLt
  | true =>
      cases hp : b.inBitmap (parent i) with
      | true =>
          rw [getSize_leaf hi hp]
          split <;> omega
      | false =>
          rw [getSize_pair hi hp]
          split
          · omega
          · split <;> split <;> omega

theorem parent_not_inBitmap (h : b.inBitmap i = false) : b.inBitmap (parent i) = false := by
  simp only [BitmapBuddy.inBitmap, decide_eq_false_iff_not] at h ⊢
  unfold parent
  omega

theorem Twin.mark (h : Twin b b') (hs : Sized n b) (hi : OnRow (n - e) index) (hen : e ≤ n) :
    Twin (buddyMark b (2 ^ (e + 3)) index) (buddyMark b' (2 ^ (e + 3)) index) := by
  have hwe : n - e + e = n := Nat.sub_add_cancel hen
  obtain ⟨hhead, hcell⟩ := hs.cell_buddyMark hi hwe
  obtain ⟨-, hcell'⟩ := (h.header.sized hs).cell_buddyMark hi hwe
  refine h.update hhead ?_ hcell hcell' fun _ => rfl
  unfold buddyMark
  split
  · exact h.header.bitmapSet index false
  · exact h.header.setByte index 0

/-- One step of the climb, from a node inside the table. -/
theorem Twin.up (h : Twin b b') (hs : Sized n b) (hindex : index + 1 < 2 ^ (n + 1))
    (h0 : index ≠ 0) : Twin (buddyAllocUp b index) (buddyAllocUp b' index) := by
  have hbase := hs.base_succ
  have hlo := hs.lo
  have hrow : 2 ^ (n + 1) = 4 * 2 ^ (n - 1) := by
    rw [show n + 1 = n - 1 + 2 by omega, pow_add]
    ring
  have heven : 2 ^ (n - 1) = 2 * 2 ^ (n - 2) := by
    rw [show n - 1 = n - 2 + 1 by omega, pow_succ, mul_comm]
  have hgrand : b.inBitmap (parent (parent index)) = false := by
    simp only [BitmapBuddy.inBitmap, decide_eq_false_iff_not]
    unfold parent
    omega
  have hin := h.header.inBitmap
  unfold buddyAllocUp
  simp only [hin, h.getSize]
  cases hi : b.inBitmap index with
  | true =>
      cases hp : b.inBitmap (parent index) with
      | true =>
          obtain ⟨hl, hr⟩ := inBitmap_children hp
          have hscan : ∀ k, b.inBitmap k = true → parent k = parent index →
              b'.bitmapScanTest k = b.bitmapScanTest k := by
            intro k hk hpar
            have hc := h.cell_leaf (i := k) (by rw [hpar, hp])
            rw [cell_of_inBitmap hk, cell_of_inBitmap ((hin k).trans hk)] at hc
            cases hv : b'.bitmapScanTest k <;> cases hw : b.bitmapScanTest k <;> simp [hv, hw] at hc ⊢
          simp only [if_true, hscan _ hl (parent_leftLeaf _), hscan _ hr (parent_rightLeaf _)]
          exact h.bitmapSet hs hp _ fun hp' => by simp [hgrand] at hp'
      | false =>
          simp only [if_true, Bool.false_eq_true, if_false]
          exact h.setByte hp (max_lt (getSize_lt b _) (getSize_lt b _)) hgrand
  | false =>
      have hp := parent_not_inBitmap hi
      have hlt : index < b.base := by simpa [BitmapBuddy.inBitmap] using hi
      -- the row of the bytes ends with a right child, so the sibling is a byte as well
      have hl : b.inBitmap (leftLeaf (parent index)) = false := by
        simp only [BitmapBuddy.inBitmap, decide_eq_false_iff_not]
        unfold leftLeaf parent
        omega
      have hr : b.inBitmap (rightLeaf (parent index)) = false := by
        simp only [BitmapBuddy.inBitmap, decide_eq_false_iff_not]
        unfold rightLeaf parent
        omega
      have hbyte : ∀ k, b.inBitmap k = false → (b'.bbt k).toNat = (b.bbt k).toNat := by
        intro k hk
        rw [← cell_of_not_inBitmap hk, ← cell_of_not_inBitmap ((hin k).trans hk), h.cell_byte hk]
      simp only [Bool.false_eq_true, if_false, hbyte _ hl, hbyte _ hr]
      exact h.setByte hp (max_lt (b.bbt _).isLt (b.bbt _).isLt) hgrand

theorem parent_lt (h : index + 1 < 2 ^ (n + 1)) : parent index + 1 < 2 ^ (n + 1) := by
  have := Nat.two_pow_pos n
  unfold parent
  rw [pow_succ] at h ⊢
  omega

theorem buddyAllocUp_header (b : BitmapBuddy) (index : ℕ) :
    SameHeader b (buddyAllocUp b index) := by
  unfold buddyAllocUp
  simp only
  split
  · split
    · rfl
    · rfl
  · rfl

/-- The climb to the root ends on a table if it ends on its twin, and leaves twins. -/
theorem Twin.backtrack {fuel : ℕ} {after : BitmapBuddy} (h : Twin b b') (hs : Sized n b)
    (hindex : index + 1 < 2 ^ (n + 1)) (hclimb : buddyAllocBacktrack fuel b' index = some after) :
    ∃ t, buddyAllocBacktrack fuel b index = some t ∧ Twin t after ∧ SameHeader b t := by
  induction fuel generalizing b b' index with
  | zero =>
      unfold buddyAllocBacktrack at hclimb ⊢
      by_cases h0 : index = 0
      · simp only [h0, if_true, Option.some.injEq] at hclimb ⊢
        subst hclimb
        exact ⟨b, rfl, h, SameHeader.refl b⟩
      · simp [h0] at hclimb
  | succ fuel ih =>
      by_cases h0 : index = 0
      · unfold buddyAllocBacktrack at hclimb ⊢
        simp only [h0, if_true, Option.some.injEq] at hclimb ⊢
        subst hclimb
        exact ⟨b, rfl, h, SameHeader.refl b⟩
      · rw [buddyAllocBacktrack_step _ _ h0] at hclimb ⊢
        have hhead := buddyAllocUp_header b index
        obtain ⟨t, ht, htwin, hsame⟩ :=
          ih (h.up hs hindex h0) (hhead.sized hs) (parent_lt hindex) hclimb
        exact ⟨t, ht, htwin, hhead.trans hsame⟩

/-! ## The tree of a well-formed table -/

/-- A twin in which every unseen bit is cleared. -/
structure Settled (b b' : BitmapBuddy) : Prop extends Twin b b' where
  stray : ∀ i, Stray b i → cell b' i = 0

theorem Sized.exists_cleared (hs : Sized n b) (l : List ℕ) (hl : ∀ i ∈ l, b.inBitmap i = true) :
    ∃ b', SameHeader b b' ∧ ∀ i, cell b' i = if i ∈ l then 0 else cell b i := by
  induction l with
  | nil => exact ⟨b, SameHeader.refl b, by simp⟩
  | cons j l ih =>
      obtain ⟨b', hhead, hcell⟩ := ih fun i hi => hl i (List.mem_cons_of_mem j hi)
      have hj : b'.inBitmap j = true := (hhead.inBitmap j).trans (hl j List.mem_cons_self)
      refine ⟨b'.bitmapSet j false, hhead.trans rfl, fun i => ?_⟩
      rw [(hhead.sized hs).cell_bitmapSet hj, Function.update_apply]
      by_cases hij : i = j
      · simp [hij]
      · simp [hij, hcell]

theorem Sized.exists_settled (hs : Sized n b) : ∃ b', Settled b b' := by
  classical
  obtain ⟨b', hhead, hcell⟩ := hs.exists_cleared
    ((List.range (2 * b.base + 1)).filter fun i => Stray b i)
    fun i hi => (of_decide_eq_true (List.mem_filter.mp hi).2 : Stray b i).bit
  have hmem : ∀ i, i ∈ (List.range (2 * b.base + 1)).filter (fun i => Stray b i) ↔ Stray b i := by
    intro i
    rw [List.mem_filter, List.mem_range, decide_eq_true_eq, and_iff_right_iff_imp]
    intro hi
    have hp := hi.pair
    simp only [BitmapBuddy.inBitmap, decide_eq_false_iff_not] at hp
    unfold parent at hp
    omega
  refine ⟨b', ⟨hhead, fun i => ?_⟩, fun i hi => ?_⟩
  · rw [hcell]
    by_cases hi : Stray b i
    · exact Or.inr ⟨hi, if_pos ((hmem i).mpr hi)⟩
    · exact Or.inl (if_neg fun h => hi ((hmem i).mp h))
  · rw [hcell, if_pos ((hmem i).mpr hi)]

theorem inBitmap_nodeIndex (hs : Sized n b) (h : IsBlock n (base, d)) :
    (b.inBitmap (nodeIndex n d base) = true ↔ d ≤ 1) ∧
      (b.inBitmap (parent (nodeIndex n d base)) = true ↔ d = 0) := by
  have hle : d ≤ n := h.order_le
  have hlo := hs.lo
  have hrow : OnRow (n - d) (nodeIndex n d base) := onRow_nodeIndex h
  refine ⟨by rw [hs.inBitmap_iff hrow]; omega, ?_⟩
  rcases Nat.eq_or_lt_of_le hle with rfl | hlt
  · -- the root is its own parent here
    rw [Nat.sub_self] at hrow
    have hzero : parent (nodeIndex d d base) = 0 := by
      have := hrow.2
      unfold parent
      omega
    rw [hzero, hs.inBitmap_iff onRow_zero]
    omega
  · rw [show n - d = n - d - 1 + 1 by omega] at hrow
    rw [hs.inBitmap_iff hrow.parent]
    omega

/-- What the nodes of a settled table hold is what they read. -/
theorem Settled.cell_eq (h : Settled b b') (hs : Sized n b) (hblock : IsBlock n (base, d)) :
    cell b' (nodeIndex n d base) = mark d (b.getSize (nodeIndex n d base)) := by
  obtain ⟨hin, hpar⟩ := inBitmap_nodeIndex hs hblock
  have hbit : b.inBitmap (nodeIndex n d base) = true → cell b (nodeIndex n d base) = 0 ∨
      cell b (nodeIndex n d base) = 1 := by
    intro hb
    rw [cell_of_inBitmap hb]
    cases b.bitmapScanTest (nodeIndex n d base) <;> simp
  match d with
  | 0 =>
      have hb := hin.mpr (by omega)
      have hp := hpar.mpr rfl
      rw [h.cell_leaf hp, getSize_leaf hb hp]
      rcases hbit hb with hc | hc <;> simp [hc, mark]
  | 1 =>
      have hb := hin.mpr (by omega)
      have hp : b.inBitmap (parent (nodeIndex n 1 base)) = false := by
        rw [Bool.eq_false_iff, Ne, hpar]
        omega
      rw [getSize_pair hb hp]
      by_cases hl : cell b (leftLeaf (nodeIndex n 1 base)) = 0
      · by_cases hr : cell b (rightLeaf (nodeIndex n 1 base)) = 0
        · rw [h.stray _ ⟨hb, hp, hl, hr⟩]
          simp [hl, hr, mark]
        · rw [(h.cells _).resolve_right fun hst => hr hst.1.right]
          rcases hbit hb with hc | hc <;> simp [hc, hl, hr, mark]
      · rw [(h.cells _).resolve_right fun hst => hl hst.1.left]
        rcases hbit hb with hc | hc
        · simp [hc, mark]
        · by_cases hr : cell b (rightLeaf (nodeIndex n 1 base)) = 0 <;> simp [hc, hl, hr, mark]
  | d + 2 =>
      have hb : b.inBitmap (nodeIndex n (d + 2) base) = false := by
        rw [Bool.eq_false_iff, Ne, hin]
        omega
      rw [h.cell_byte hb, getSize_byte hb, mark, if_neg (by omega)]

theorem Settled.full (h : Settled b b') (hs : Sized n b) (hblock : IsBlock n (base, d))
    (hall : ∀ x, IsBlock n x → Within x (base, d) → b.getSize (nodeIndex n x.2 x.1) = x.2 + 3) :
    Full (cell b') d (nodeIndex n d base) := by
  have hcell : cell b' (nodeIndex n d base) = mark d (d + 3) := by
    rw [h.cell_eq hs hblock, hall _ hblock (within_refl _)]
  induction d generalizing base with
  | zero => exact hcell
  | succ d ih =>
      obtain ⟨hl, hr⟩ := children_nodeIndex hblock.1 hblock.order_le
      refine ⟨hcell, ?_, ?_⟩
      · rw [hl]
        refine ih hblock.left (fun x hx hin => hall x hx (hin.trans within_left)) ?_
        rw [h.cell_eq hs hblock.left, hall _ hblock.left within_left]
      · rw [hr]
        refine ih hblock.right (fun x hx hin => hall x hx (hin.trans within_right)) ?_
        rw [h.cell_eq hs hblock.right, hall _ hblock.right within_right]

theorem ReadsAs.of_free {x : ℕ × ℕ} {v : ℕ} (h : ReadsAs n used x v) (hx : IsFree n used x) :
    v = x.2 + 3 := by
  obtain ⟨-, hlarge⟩ := h.largest fun y hy hin => not_apart_of_within hin (hx.2 y hy)
  have hge := (hlarge x.2).mpr ⟨x.1, hx, within_refl x⟩
  have hle : ¬ x.2 + 1 + 3 ≤ v := fun hlt => by
    obtain ⟨o, -, hin⟩ := (hlarge (x.2 + 1)).mp hlt
    have := hin.order_le
    simp only at this
    omega
  omega

theorem ReadsAs.unique {x : ℕ × ℕ} {v w : ℕ} (h : ReadsAs n used x v) (h' : ReadsAs n used x w)
    (hnone : ∀ y ∈ used, ¬ Within x y) : v = w := by
  obtain ⟨hv, hlv⟩ := h.largest hnone
  obtain ⟨hw, hlw⟩ := h'.largest hnone
  have h1 := (hlv (v - 3)).trans (hlw (v - 3)).symm
  have h2 := (hlv (w - 3)).trans (hlw (w - 3)).symm
  omega

instance (x y : ℕ × ℕ) : Decidable (Apart x y) := inferInstanceAs (Decidable (_ ∨ _))

/-- The tree with the given blocks handed out that splits no free block. -/
def treeOf (used : List (ℕ × ℕ)) : (d : ℕ) → ℕ → Node d
  | 0, base => if (base, 0) ∈ used then .used else .free
  | d + 1, base =>
      if (base, d + 1) ∈ used then .used
      else if ∀ y ∈ used, Apart (base, d + 1) y then .free
      else .split (treeOf used d base) (treeOf used d (base + 2 ^ d))

theorem treeOf_used (h : (base, d) ∈ used) : treeOf used d base = .used := by
  cases d with
  | zero => rw [treeOf, if_pos h]
  | succ d => rw [treeOf, if_pos h]

/-- What a tree has to be to describe the node of a block that is not below an
allocated one. -/
structure Describes (n : ℕ) (b' : BitmapBuddy) (used : List (ℕ × ℕ)) (base : ℕ) (t : Node d) :
    Prop where
  tidy : t.Tidy
  blocks : ∀ y, y ∈ t.blocks base ↔ y ∈ used ∧ Within y (base, d)
  repr : StoresTree (cell b') t (nodeIndex n d base)

theorem WellFormedTree.apart_of_mem (h : WellFormedTree n b used) {x y : ℕ × ℕ} (hx : x ∈ used)
    (hy : y ∈ used) (hne : x ≠ y) : Apart x y := h.apart.forall hx hy hne

/-- The node of an allocated block. -/
theorem WellFormedTree.describes_used (h : WellFormedTree n b used) (hset : Settled b b')
    (hmem : (base, d) ∈ used) : Describes n b' used base (.used : Node d) := by
  have hblock := h.block _ hmem
  have hread := (h.reads _ hblock).marked hmem
  have hcell := hset.cell_eq h.sized hblock
  simp only at hread
  rw [hread] at hcell
  refine ⟨trivial, fun y => ?_, ?_⟩
  · simp only [Node.blocks, List.mem_singleton]
    constructor
    · rintro rfl
      exact ⟨hmem, within_refl _⟩
    · rintro ⟨hy, hin⟩
      by_contra hne
      exact not_apart_of_within hin (h.apart_of_mem hy hmem hne)
  · cases d with
    | zero => exact hcell
    | succ d =>
        obtain ⟨hl, hr⟩ := children_nodeIndex hblock.1 hblock.order_le
        have hbelow : ∀ x, IsBlock n x → Within x (base, d + 1) → x.2 < d + 1 →
            b.getSize (nodeIndex n x.2 x.1) = x.2 + 3 := fun x hx hin hlt =>
          (h.reads x hx).below _ hmem hin hlt
        refine ⟨by simpa [mark] using hcell, ?_, ?_⟩
        · rw [hl]
          refine hset.full h.sized hblock.left fun x hx hin => hbelow x hx ?_ ?_
          · exact hin.trans within_left
          · exact Nat.lt_succ_of_le hin.order_le
        · rw [hr]
          refine hset.full h.sized hblock.right fun x hx hin => hbelow x hx ?_ ?_
          · exact hin.trans within_right
          · exact Nat.lt_succ_of_le hin.order_le

/-- The node of a free block. -/
theorem WellFormedTree.describes_free (h : WellFormedTree n b used) (hset : Settled b b')
    (hfree : IsFree n used (base, d)) : Describes n b' used base (.free : Node d) := by
  refine ⟨trivial, fun y => ?_, ?_⟩
  · simp only [Node.blocks, List.not_mem_nil, false_iff]
    rintro ⟨hy, hin⟩
    exact not_apart_of_within hin (hfree.2 y hy).symm
  · refine hset.full h.sized hfree.1 fun x hx hin => (h.reads x hx).of_free ⟨hx, fun y hy => ?_⟩
    exact (apart_of_within (hfree.2 y hy).symm hin).symm

/-- Of two blocks that overlap, an allocated one lies within the node of another that
is not below it. -/
theorem WellFormedTree.within_of_overlap (h : WellFormedTree n b used) (hblock : IsBlock n (base, d))
    (htop : ∀ y ∈ used, ¬ Within (base, d) y) {y : ℕ × ℕ} (hy : y ∈ used)
    (hover : ¬ Apart (base, d) y) : Within y (base, d) := by
  rcases Nat.le_total y.2 d with hle | hle
  · exact within_of_not_apart (h.block y hy).1 hblock.1 hle fun ha => hover ha.symm
  · exact (htop y hy (within_of_not_apart hblock.1 (h.block y hy).1 hle hover)).elim

theorem WellFormedTree.describes (h : WellFormedTree n b used) (hset : Settled b b')
    (hblock : IsBlock n (base, d)) (htop : ∀ y ∈ used, Within (base, d) y → y = (base, d)) :
    Describes n b' used base (treeOf used d base) := by
  induction d generalizing base with
  | zero =>
      by_cases hmem : (base, 0) ∈ used
      · rw [treeOf_used hmem]
        exact h.describes_used hset hmem
      · have hnone : ∀ y ∈ used, ¬ Within (base, 0) y := fun y hy hin => by
          rw [htop y hy hin] at hy
          exact hmem hy
        rw [treeOf, if_neg hmem]
        refine h.describes_free hset ⟨hblock, fun y hy => ?_⟩
        by_contra hover
        have hin := h.within_of_overlap hblock hnone hy hover
        rw [hin.eq_of_order (Nat.le_zero.mp hin.order_le)] at hy
        exact hmem hy
  | succ d ih =>
      by_cases hmem : (base, d + 1) ∈ used
      · rw [treeOf_used hmem]
        exact h.describes_used hset hmem
      have hnone : ∀ y ∈ used, ¬ Within (base, d + 1) y := fun y hy hin => by
        rw [htop y hy hin] at hy
        exact hmem hy
      rw [treeOf, if_neg hmem]
      split
      · rename_i hapart
        exact h.describes_free hset ⟨hblock, hapart⟩
      · rename_i hover
        push Not at hover
        obtain ⟨z, hz, hzover⟩ := hover
        obtain ⟨hl, hr⟩ := children_nodeIndex hblock.1 hblock.order_le
        -- a half is not below an allocated block, because the whole is not
        have hhalf : ∀ c, Within (c, d) (base, d + 1) → ∀ y ∈ used, Within (c, d) y →
            y = (c, d) := by
          intro c hc y hy hin
          have hover : ¬ Apart (base, d + 1) y := fun ha =>
            not_apart_of_within hin (apart_of_within ha.symm hc).symm
          have hyin := h.within_of_overlap hblock hnone hy hover
          have hyle : y.2 ≤ d + 1 := hyin.order_le
          have hge : d ≤ y.2 := hin.order_le
          rcases Nat.eq_or_lt_of_le hyle with horder | hlt
          · rw [hyin.eq_of_order horder] at hy
            exact (hmem hy).elim
          · exact (hin.eq_of_order (by simp only; omega)).symm
        have hdl := ih hblock.left (hhalf base within_left)
        have hdr := ih hblock.right (hhalf (base + 2 ^ d) within_right)
        have hblocks : ∀ y, y ∈ (treeOf used d base).blocks base ++
            (treeOf used d (base + 2 ^ d)).blocks (base + 2 ^ d) ↔
              y ∈ used ∧ Within y (base, d + 1) := by
          intro y
          rw [List.mem_append, hdl.blocks, hdr.blocks]
          constructor
          · rintro (⟨hy, hin⟩ | ⟨hy, hin⟩)
            · exact ⟨hy, hin.trans within_left⟩
            · exact ⟨hy, hin.trans within_right⟩
          · rintro ⟨hy, hin⟩
            rcases within_half hblock.1 (h.block y hy).1 hin with rfl | hin | hin
            · exact (hmem hy).elim
            · exact Or.inl ⟨hy, hin⟩
            · exact Or.inr ⟨hy, hin⟩
        have hidle : ¬ ((treeOf used d base).Idle ∧ (treeOf used d (base + 2 ^ d)).Idle) := by
          rintro ⟨hli, hri⟩
          rw [idle_iff_blocks _ base] at hli
          rw [idle_iff_blocks _ (base + 2 ^ d)] at hri
          have := (hblocks z).mpr ⟨hz, h.within_of_overlap hblock hnone hz hzover⟩
          rw [hli, hri] at this
          exact List.not_mem_nil this
        have htidy : (Node.split (treeOf used d base) (treeOf used d (base + 2 ^ d))).Tidy :=
          ⟨hdl.tidy, hdr.tidy, hidle⟩
        refine ⟨htidy, hblocks, ?_, hl ▸ hdl.repr, hr ▸ hdr.repr, fun _ => hidle⟩
        rw [hset.cell_eq h.sized hblock]
        have hvalue := readsAs_value htidy hblock fun y hy => hnone y ((hblocks y).mp hy).1
        have hreads := hvalue.of_apart (fun y hy => ((hblocks y).mp hy).1) fun y hy => by
          by_cases hover : Apart (base, d + 1) y
          · exact Or.inr hover.symm
          · exact Or.inl ((hblocks y).mpr ⟨hy, h.within_of_overlap hblock hnone hy hover⟩)
        rw [(h.reads _ hblock).unique hreads hnone]

theorem nodup_of_apart {l : List (ℕ × ℕ)} (h : l.Pairwise Apart) : l.Nodup := by
  refine h.imp fun {x y} hxy hne => ?_
  subst hne
  exact not_apart_of_within (within_refl x) hxy

/-- A well-formed table has a twin that stands for a tidy tree with the same blocks. -/
theorem WellFormedTree.exists_tree (h : WellFormedTree n b used) : ∃ (b' : BitmapBuddy) (t : Node n),
    Twin b b' ∧ t.Tidy ∧ StoresTree (cell b') t 0 ∧ used.Perm (t.blocks 0) := by
  obtain ⟨b', hset⟩ := h.sized.exists_settled
  have hroot : IsBlock n (0, n) := ⟨dvd_zero _, by simp⟩
  have hin : ∀ y ∈ used, Within y (0, n) := fun y hy =>
    ⟨Nat.zero_le _, by have := (h.block y hy).2; simpa using this⟩
  have hd := h.describes hset hroot fun y hy hout => by
    have hle : y.2 ≤ n := (hin y hy).order_le
    exact (hin y hy).eq_of_order (le_antisymm hle hout.order_le)
  have hzero : nodeIndex n n 0 = 0 := by
    rw [nodeIndex, Nat.zero_add, Nat.div_self (Nat.two_pow_pos n)]
  have hrepr := hd.repr
  rw [hzero] at hrepr
  refine ⟨b', treeOf used n 0, hset.toTwin, hd.tidy, hrepr, ?_⟩
  rw [List.perm_ext_iff_of_nodup (nodup_of_apart h.apart)
    (nodup_of_apart (pairwise_apart_blocks _ 0))]
  intro y
  rw [hd.blocks]
  exact ⟨fun hy => ⟨hy, hin y hy⟩, fun hy => hy.1⟩

/-- A table whose twin stands for a tidy tree is well-formed for the blocks of the tree. -/
theorem wellFormed_of_tree (hs : Sized n b) (htwin : Twin b b') {t : Node n} (ht : t.Tidy)
    (hrepr : StoresTree (cell b') t 0) (hused : used.Perm (t.blocks 0)) :
    WellFormedTree n b used := by
  have hroot : IsBlock n (0, n) := ⟨dvd_zero _, by simp⟩
  have hzero : nodeIndex n n 0 = 0 := by
    rw [nodeIndex, Nat.zero_add, Nat.div_self (Nat.two_pow_pos n)]
  have hmem : ∀ y, y ∈ used ↔ y ∈ t.blocks 0 := fun y => hused.mem_iff
  refine ⟨hs, fun x hx => ?_, ?_, fun x hx => ?_⟩
  · have hin := mem_blocks_inside ((hmem x).mp hx)
    exact ⟨mem_blocks_aligned (dvd_zero _) ((hmem x).mp hx), by simpa using hin.2⟩
  · exact (hused.pairwise_iff fun hab => Or.symm hab).mpr (pairwise_apart_blocks t 0)
  · have hin : Within x (0, n) := ⟨Nat.zero_le _, by simpa using hx.2⟩
    have hr := readsAs_of_storesTree (htwin.header.sized hs) ht hroot (hzero.symm ▸ hrepr) hx hin
    rw [htwin.getSize] at hr
    exact hr.of_apart (fun y hy => (hmem y).mpr hy) fun y hy => Or.inl ((hmem y).mp hy)

/-! ## Allocation -/

theorem WellFormedTree.with_lock (h : WellFormedTree n b used) (lock : Spinlock) :
    WellFormedTree n { b with lock := lock } used :=
  ⟨⟨h.sized.size, h.sized.lo, h.sized.hi⟩, h.block, h.apart, h.reads⟩

/-- The root of a well-formed table knows of a block of order `e` where one is free. -/
theorem WellFormedTree.pow2_root (h : WellFormedTree n b used) (e : ℕ) :
    ¬ pow2 (b.bbt 0).toNat < 2 ^ (e + 3) ↔ ∃ o, IsFree n used (o, e) := by
  obtain ⟨b', t, htwin, ht, hrepr, hused⟩ := h.exists_tree
  have hroot : (b.bbt 0).toNat = value t := by
    have hout : b.inBitmap 0 = false := by
      rw [Bool.eq_false_iff, Ne, h.sized.inBitmap_iff onRow_zero]
      have := h.sized.lo
      omega
    rw [← cell_of_not_inBitmap hout, ← getSize_byte hout, ← htwin.getSize]
    exact (htwin.header.sized h.sized).getSize_eq onRow_zero (Nat.zero_add n) hrepr
  rw [hroot, not_lt, ← ge_iff_le, pow2_value_iff h.sized.hi, lt_room_iff ht (dvd_zero _)]
  refine exists_congr fun o => ?_
  constructor
  · rintro ⟨ho, hin, hapart⟩
    exact ⟨⟨ho, by simpa using hin.2⟩, fun y hy => hapart y (hused.subset hy)⟩
  · rintro ⟨hblock, hapart⟩
    exact ⟨hblock.1, ⟨Nat.zero_le _, by simpa using hblock.2⟩,
      fun y hy => hapart y (hused.symm.subset hy)⟩

/-- Search, mark and climb on a table with a free block of the wanted order. -/
theorem WellFormedTree.take (h : WellFormedTree n b used) (hen : e ≤ n)
    (hfree : ∃ o, IsFree n used (o, e)) : ∃ index after, OnRow (n - e) index ∧
      buddyAllocSearch b (2 ^ (e + 3)) 32 (2 ^ (n + 3)) 0 = some (2 ^ (e + 3), index) ∧
      buddyAllocBacktrack 32 (buddyMark b (2 ^ (e + 3)) index) index = some after ∧
      SameHeader b after ∧ IsFree n used (nodeOffset n e index, e) ∧
      WellFormedTree n after ((nodeOffset n e index, e) :: used) := by
  obtain ⟨b', t, htwin, ht, hrepr, hused⟩ := h.exists_tree
  have hs := h.sized
  have hs' := htwin.header.sized hs
  have hroom : e < t.room := by
    rw [lt_room_iff ht (dvd_zero _)]
    obtain ⟨o, hblock, hapart⟩ := hfree
    exact ⟨o, hblock.1, ⟨Nat.zero_le _, by simpa using hblock.2⟩,
      fun y hy => hapart y (hused.symm.subset hy)⟩
  obtain ⟨k⟩ := taken_exists hs' hen onRow_zero (Nat.zero_add n) hrepr hroom
  have halloc : Alloc e (nodeOffset n e k.index) t 0 k.tree := by
    have := k.alloc
    rwa [show nodeOffset n n 0 = 0 by simp [nodeOffset]] at this
  have hindex : k.index + 1 < 2 ^ (n + 1) :=
    k.row.2.trans_le (Nat.pow_le_pow_right (by omega) (by omega))
  have hmark := htwin.mark hs k.row hen
  have hhead := (hs.cell_buddyMark k.row (Nat.sub_add_cancel hen)).1
  obtain ⟨after, hclimb, hafter, hsame⟩ :=
    hmark.backtrack (hhead.sized hs) hindex (k.climb_root hs')
  have hheader := hhead.trans hsame
  have hsearch := k.search 32 (by have := hs.hi; omega)
  rw [← htwin.search] at hsearch
  have hblocks : ((nodeOffset n e k.index, e) :: used).Perm (k.tree.blocks 0) :=
    (hused.cons _).trans halloc.blocks.symm
  have hwf := wellFormed_of_tree (hheader.sized hs) hafter (halloc.tidy ht) k.repr hblocks
  refine ⟨k.index, after, k.row, hsearch, hclimb, hheader, ⟨hwf.block _ List.mem_cons_self, ?_⟩, hwf⟩
  exact fun y hy => (List.pairwise_cons.mp hwf.apart).1 y hy

/-- `buddy_alloc` on a well-formed table: `NULL` where no aligned block of the rounded
size is free, and otherwise the address of one that was free, which is then the one block
more, and whose bytes are the only ones cleared. -/
theorem buddyAlloc_of_wellFormed {h : KHeap} {size : ℕ} (hwf : WellFormedTree n h.buddy used)
    (hlock : h.buddy.lock.locked = false) (hpos : 0 < h.buddy.space)
    (hfits : h.buddy.space + 2 ^ (n + 3) ≤ 2 ^ 64) (hsize : blockSize size ≤ 2 ^ (n + 3)) :
    ∃ e ptr h', blockSize size = 2 ^ (e + 3) ∧ buddyAlloc h size = some (ptr, h') ∧
      (ptr = 0 ↔ ¬ ∃ o, IsFree n used (o, e)) ∧ (ptr = 0 → h'.mem = h.mem) ∧
      (ptr ≠ 0 → ∃ o, ptr = h.buddy.space + 8 * o ∧ IsFree n used (o, e) ∧
        WellFormedTree n h'.buddy ((o, e) :: used) ∧
        h'.mem = memset h.mem ptr 0#8 (blockSize size)) := by
  have hle : size ≤ 2 ^ (n + 3) :=
    (Nat.le_pow_clog (by omega) size).trans
      ((Nat.pow_le_pow_right (by omega) (le_max_right 3 (Nat.clog 2 size))).trans hsize)
  obtain ⟨e, hen, hround, hmax⟩ := roundSize_eq hwf.sized.hi hle
  have hblock : blockSize size = 2 ^ (e + 3) := by rw [blockSize, hmax]
  have hroot := hwf.pow2_root e
  by_cases hfree : ∃ o, IsFree n used (o, e)
  · obtain ⟨b, hb⟩ : ∃ b, { h.buddy with lock := ⟨true, some h.cpu.hartid⟩ } = b := ⟨_, rfl⟩
    have hwfb : WellFormedTree n b used := by rw [← hb]; exact hwf.with_lock _
    have hspace : b.space = h.buddy.space := by rw [← hb]
    obtain ⟨index, after, hrow, hsearch, hclimb, hheader, hisfree, hafter⟩ := hwfb.take hen hfree
    obtain ⟨cpu, hcall⟩ := buddyAlloc_of_climb hb hwfb.sized hlock (hspace.symm ▸ hfits) hen hround
      ((hwfb.pow2_root e).mpr hfree) hrow hsearch hclimb hheader
    rw [hspace] at hcall
    refine ⟨e, _, _, hblock, hcall, ⟨fun hnull => by omega, fun hnone => (hnone hfree).elim⟩,
      fun hnull => by omega, fun _ => ?_⟩
    exact ⟨_, rfl, hisfree, hafter.with_lock _, by rw [hblock]⟩
  · have hcall := buddyAlloc_eq_null hlock
      (by rw [hround]; exact not_le.mp fun hge => hfree (hroot.mp (not_lt.mpr hge)))
    exact ⟨e, 0, _, hblock, hcall, ⟨fun _ => hfree, fun _ => rfl⟩, fun _ => rfl,
      fun hne => (hne rfl).elim⟩

/-- A new table is well-formed with nothing allocated. -/
theorem wellFormed_new (hlo : 4 ≤ n) (hhi : n ≤ 27) (bbase : ℕ → Byte) :
    ∃ b, buddyNew (2 ^ (n + 3)) bbase = some b ∧ b.lock = initlock ∧ WellFormedTree n b [] := by
  obtain ⟨b, hnew, hsized, hlock, hrepr⟩ := buddyNew_spec hlo hhi bbase
  have htwin : Twin b b := ⟨SameHeader.refl b, fun _ => Or.inl rfl⟩
  have htidy : (.free : Node n).Tidy := trivial
  exact ⟨b, hnew, hlock, wellFormed_of_tree hsized htwin htidy hrepr (by simp [Node.blocks])⟩

/-- 20 bytes of a new heap of 128 bytes: a free block of 32 is handed out. -/
theorem buddyAlloc_twenty_bytes : ∃ h : KHeap, WellFormedTree 4 h.buddy [] ∧
    ∃ e ptr h', blockSize 20 = 2 ^ (e + 3) ∧ buddyAlloc h 20 = some (ptr, h') ∧
      (ptr = 0 ↔ ¬ ∃ o, IsFree 4 [] (o, e)) ∧ (ptr = 0 → h'.mem = h.mem) ∧
      (ptr ≠ 0 → ∃ o, ptr = h.buddy.space + 8 * o ∧ IsFree 4 [] (o, e) ∧
        WellFormedTree 4 h'.buddy [(o, e)] ∧ h'.mem = memset h.mem ptr 0#8 (blockSize 20)) := by
  obtain ⟨b, -, hlock, hwf⟩ := wellFormed_new (n := 4) (by omega) (by omega) fun _ => 0
  have hwf' : WellFormedTree 4 { b with space := 4096 } [] :=
    ⟨⟨hwf.sized.size, hwf.sized.lo, hwf.sized.hi⟩, hwf.block, hwf.apart, hwf.reads⟩
  refine ⟨⟨⟨0, true, 0, false⟩, { b with space := 4096 }, fun _ => 0⟩, hwf', ?_⟩
  refine buddyAlloc_of_wellFormed hwf' ?_ (by simp) (by simp) (by decide +kernel)
  rw [hlock]
  rfl

end K210Os
