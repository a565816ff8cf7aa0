import K210Os.BuddyTwin

/-!
# Sizes found in the tree

The size of a block is not stored. `buddy_free` and `buddy_size` find it by climbing from
the leaf of a pointer to the first node that reads 0, and `buddy_remain_size` adds up the
topmost nodes that read 0.
-/

namespace K210Os

open BitmapBuddy BuddyTree

variable {n d e o base i j q : ℕ} {used : List (ℕ × ℕ)} {b b' : BitmapBuddy} {x : ℕ × ℕ}

/-! ## Upward from a leaf -/

theorem parent_nodeIndex (n j q : ℕ) (h : 0 < (q + 2 ^ n) / 2 ^ j) :
    parent (nodeIndex n j q) = nodeIndex n (j + 1) q := by
  unfold parent nodeIndex
  rw [Nat.sub_add_cancel h, pow_succ, Nat.div_div_eq_div_mul]

theorem node_pos (hj : j ≤ n) : 2 ^ (n - j) ≤ (q + 2 ^ n) / 2 ^ j := by
  rw [Nat.le_div_iff_mul_le (Nat.two_pow_pos j), ← pow_add, Nat.sub_add_cancel hj]
  omega

theorem nodeIndex_ne_zero (hj : j < n) : nodeIndex n j q ≠ 0 := by
  have hpos := node_pos (q := q) hj.le
  have htwo : 2 ^ 1 ≤ 2 ^ (n - j) := Nat.pow_le_pow_right (by omega) (by omega)
  unfold nodeIndex
  omega

/-- The block of order `j` that unit `q` lies in. -/
def ancestor (q j : ℕ) : ℕ × ℕ := (q / 2 ^ j * 2 ^ j, j)

theorem isBlock_ancestor (hq : q < 2 ^ n) (hj : j ≤ n) : IsBlock n (ancestor q j) := by
  refine ⟨dvd_mul_left _ _, ?_⟩
  have hn : 2 ^ n = 2 ^ (n - j) * 2 ^ j := by rw [← pow_add, Nat.sub_add_cancel hj]
  have hlt : q / 2 ^ j < 2 ^ (n - j) := by
    rw [Nat.div_lt_iff_lt_mul (Nat.two_pow_pos j), ← hn]
    exact hq
  calc q / 2 ^ j * 2 ^ j + 2 ^ j = (q / 2 ^ j + 1) * 2 ^ j := by ring
    _ ≤ 2 ^ (n - j) * 2 ^ j := Nat.mul_le_mul_right _ hlt
    _ = 2 ^ n := hn.symm

theorem nodeIndex_ancestor (hj : j ≤ n) :
    nodeIndex n j (ancestor q j).1 = nodeIndex n j q := by
  have hpos := Nat.two_pow_pos j
  have hn : 2 ^ n = 2 ^ (n - j) * 2 ^ j := by rw [← pow_add, Nat.sub_add_cancel hj]
  unfold nodeIndex ancestor
  rw [hn, Nat.add_mul_div_right _ _ hpos, Nat.add_mul_div_right _ _ hpos,
    Nat.mul_div_cancel _ hpos]

theorem within_ancestor : Within (q, 0) (ancestor q j) := by
  have hpos := Nat.two_pow_pos j
  have hmod := Nat.div_add_mod q (2 ^ j)
  have hlt := Nat.mod_lt q hpos
  rw [mul_comm] at hmod
  refine ⟨?_, ?_⟩
  · simp only [ancestor]
    omega
  · simp only [ancestor, pow_zero]
    omega

/-- A unit of an aligned block has its ancestors of smaller order in it, and the one of
the block's order is the block. -/
theorem ancestor_within (hx : 2 ^ x.2 ∣ x.1) (hq : Within (q, 0) x) (hj : j ≤ x.2) :
    Within (ancestor q j) x := by
  refine within_of_not_apart (dvd_mul_left _ _) hx hj fun hapart => ?_
  exact not_apart_of_within hq (apart_of_within hapart.symm within_ancestor).symm

/-- The climb passes the nodes that do not read 0. -/
theorem buddyFreeFind_climb {m fuel : ℕ} (hm : j + m ≤ n)
    (hreads : ∀ k, j ≤ k → k < j + m → b.getSize (nodeIndex n k q) ≠ 0) :
    buddyFreeFind b (fuel + m) (2 ^ (j + 3)) (nodeIndex n j q) =
      buddyFreeFind b fuel (2 ^ (j + m + 3)) (nodeIndex n (j + m) q) := by
  induction m generalizing j with
  | zero => rfl
  | succ m ih =>
      have hpos : 0 < (q + 2 ^ n) / 2 ^ j :=
        (Nat.two_pow_pos (n - j)).trans_le (node_pos (by omega))
      have hdouble : 2 ^ (j + 3) * 2 = 2 ^ (j + 1 + 3) := by ring
      rw [← Nat.add_assoc, buddyFreeFind_step _ _ (hreads j le_rfl (by omega))
        (nodeIndex_ne_zero (by omega)), parent_nodeIndex n j q hpos, hdouble,
        ih (by omega) fun k hk hlt => hreads k (by omega) (by omega)]
      rw [show j + 1 + m = j + (m + 1) by omega]

/-- The three steps from the leaf of size 1 lead to the 8-byte node of the pointer. -/
theorem Sized.buddyFreeLeaf_eq (hs : Sized n b) (offset : ℕ) :
    buddyFreeLeaf 3 1 (offset + b.size - 1) = some (8, nodeIndex n 0 (offset / 8)) := by
  have hpos := Nat.two_pow_pos n
  have hsize : b.size = 8 * 2 ^ n := by rw [hs.size, pow_add]; ring
  have hleaf : parent (parent (parent (offset + b.size - 1))) = nodeIndex n 0 (offset / 8) := by
    unfold parent nodeIndex
    rw [pow_zero, Nat.div_one]
    omega
  simp [buddyFreeLeaf, hleaf]

theorem Sized.buddyFreeNode_climb (hs : Sized n b) {offset m : ℕ} (hm : m ≤ n)
    (hreads : ∀ k < m, b.getSize (nodeIndex n k (offset / 8)) ≠ 0) :
    buddyFreeNode b offset =
      buddyFreeFind b (32 - m) (2 ^ (m + 3)) (nodeIndex n m (offset / 8)) := by
  have hclimb : buddyFreeFind b (32 - m + m) (2 ^ (0 + 3)) (nodeIndex n 0 (offset / 8)) =
      buddyFreeFind b (32 - m) (2 ^ (0 + m + 3)) (nodeIndex n (0 + m) (offset / 8)) :=
    buddyFreeFind_climb (by omega) fun k _ hlt => hreads k (by omega)
  rw [Nat.sub_add_cancel (by have := hs.hi; omega), Nat.zero_add m] at hclimb
  simp only [buddyFreeNode, hs.buddyFreeLeaf_eq, Option.bind_eq_bind, Option.bind_some]
  exact hclimb

/-- From inside an allocated block the search stops at the block's node. -/
theorem WellFormedTree.buddyFreeNode_used (h : WellFormedTree n b used) (hmem : x ∈ used) {offset : ℕ}
    (hin : Within (offset / 8, 0) x) :
    buddyFreeNode b offset = some (2 ^ (x.2 + 3), nodeIndex n x.2 x.1) := by
  have hblock := h.block x hmem
  have hle := hblock.order_le
  have hq : offset / 8 < 2 ^ n := by
    have := hin.2
    have := hblock.2
    simp only [pow_zero] at *
    omega
  have htop : ancestor (offset / 8) x.2 = x :=
    (ancestor_within hblock.1 hin le_rfl).eq_of_order rfl
  have hindex : nodeIndex n x.2 (offset / 8) = nodeIndex n x.2 x.1 := by
    rw [← nodeIndex_ancestor hle, htop]
  rw [h.sized.buddyFreeNode_climb hle, hindex, buddyFreeFind_stop]
  · exact (h.reads x hblock).marked hmem
  · intro k hk
    have hread := (h.reads _ (isBlock_ancestor hq (by omega))).below x hmem
      (ancestor_within hblock.1 hin hk.le) hk
    rw [← nodeIndex_ancestor (by omega)]
    exact hread.trans_ne (by omega)

/-- Above a unit that is in no allocated block no node reads 0. -/
theorem WellFormedTree.getSize_ne_zero (h : WellFormedTree n b used) (hq : q < 2 ^ n)
    (hnone : ∀ y ∈ used, ¬ Within (q, 0) y) (hj : j ≤ n) :
    b.getSize (nodeIndex n j q) ≠ 0 := by
  have hunit : IsBlock n (q, 0) := ⟨by simp, by simp only [pow_zero]; omega⟩
  have hfree : IsFree n used (q, 0) := by
    refine ⟨hunit, fun y hy => ?_⟩
    by_contra hover
    exact hnone y hy (within_of_not_apart hunit.1 (h.block y hy).1 (Nat.zero_le _) hover)
  have hlarge := (h.reads _ (isBlock_ancestor hq hj)).largest fun y hy hin =>
    hnone y hy (within_ancestor.trans hin)
  rw [← nodeIndex_ancestor hj]
  have hge := (hlarge.2 0).mpr ⟨q, hfree, within_ancestor⟩
  simp only [ancestor] at hge ⊢
  omega

theorem parent_iterate_nodeIndex (hj : j ≤ n) :
    parent^[j] (nodeIndex n 0 q) = nodeIndex n j q := by
  induction j with
  | zero => rfl
  | succ j ih =>
      have hpos : 0 < (q + 2 ^ n) / 2 ^ j :=
        (Nat.two_pow_pos (n - j)).trans_le (node_pos (by omega))
      rw [Function.iterate_succ_apply', ih (by omega), parent_nodeIndex n j q hpos]

theorem nodeIndex_root (hq : q < 2 ^ n) : nodeIndex n n q = 0 := by
  have hpos := Nat.two_pow_pos n
  rw [nodeIndex, Nat.add_div_right _ hpos, Nat.div_eq_of_lt hq]

attribute [local simp] buddyFreeFind

/-- From a unit in no allocated block the search passes the root. -/
theorem WellFormedTree.buddyFreeNode_none (h : WellFormedTree n b used) {offset : ℕ}
    (hq : offset / 8 < 2 ^ n) (hnone : ∀ y ∈ used, ¬ Within (offset / 8, 0) y) :
    buddyFreeNode b offset = none := by
  have hreads := fun k (hk : k ≤ n) => h.getSize_ne_zero hq hnone hk
  have hroot := hreads n le_rfl
  rw [nodeIndex_root hq] at hroot
  rw [h.sized.buddyFreeNode_climb le_rfl fun k hk => hreads k hk.le, nodeIndex_root hq]
  unfold buddyFreeFind
  simp [hroot]

/-! ## Setting a node back -/

theorem getSize_congr (hheader : SameHeader b b') (hi : cell b' i = cell b i)
    (hl : cell b' (leftLeaf i) = cell b (leftLeaf i))
    (hr : cell b' (rightLeaf i) = cell b (rightLeaf i)) : b'.getSize i = b.getSize i := by
  have hin := hheader.inBitmap
  cases hb : b.inBitmap i with
  | false => rw [getSize_byte hb, getSize_byte ((hin i).trans hb), hi]
  | true =>
      cases hp : b.inBitmap (parent i) with
      | true => rw [getSize_leaf hb hp, getSize_leaf ((hin _).trans hb) ((hin _).trans hp), hi]
      | false =>
          rw [getSize_pair hb hp, getSize_pair ((hin _).trans hb) ((hin _).trans hp), hi, hl, hr]

/-- The node found for an allocated block is set back, and the block reads as wholly free
then. -/
theorem WellFormedTree.buddyUnmark_reads (h : WellFormedTree n b used) (hmem : x ∈ used) {y : ℕ × ℕ}
    (hy : IsBlock n y) (hin : Within y x) :
    (buddyUnmark b (2 ^ (x.2 + 3)) (nodeIndex n x.2 x.1)).getSize (nodeIndex n y.2 y.1) =
      y.2 + 3 := by
  have hblock := h.block x hmem
  have hle := hblock.order_le
  have hrow := onRow_nodeIndex hblock
  obtain ⟨hhead, hcell⟩ := h.sized.cell_buddyUnmark hrow (Nat.sub_add_cancel hle)
  generalize hgen : buddyUnmark b (2 ^ (x.2 + 3)) (nodeIndex n x.2 x.1) = b' at hhead hcell ⊢
  have hother : ∀ k, k ≠ nodeIndex n x.2 x.1 → cell b' k = cell b k := fun k hk => by
    rw [hcell, Function.update_of_ne hk]
  have hself : cell b' (nodeIndex n x.2 x.1) = mark x.2 (x.2 + 3) := by
    rw [hcell, Function.update_self]
  rcases Nat.eq_or_lt_of_le hin.order_le with horder | hlt
  · -- the node itself; on the 16-byte level its halves have to read free as well
    obtain rfl := hin.eq_of_order horder
    obtain ⟨o, e⟩ := y
    have hsame := hhead.inBitmap
    obtain ⟨hbit, hpar⟩ := inBitmap_nodeIndex h.sized hblock
    simp only at hself hother hbit hpar ⊢
    match e with
    | 0 =>
        have hb := hbit.mpr (by omega)
        have hp := hpar.mpr rfl
        rw [getSize_leaf ((hsame _).trans hb) ((hsame _).trans hp), hself]
        rfl
    | 1 =>
        have hb := hbit.mpr (by omega)
        have hp : b.inBitmap (parent (nodeIndex n 1 o)) = false := by
          rw [Bool.eq_false_iff, Ne, hpar]
          omega
        obtain ⟨hbl, hbr⟩ := inBitmap_children hb
        obtain ⟨hl, hr⟩ := children_nodeIndex hblock.1 hblock.order_le
        have hnl : leftLeaf (nodeIndex n 1 o) ≠ nodeIndex n 1 o := by unfold leftLeaf; omega
        have hnr : rightLeaf (nodeIndex n 1 o) ≠ nodeIndex n 1 o := by unfold rightLeaf; omega
        have hgl : b.getSize (leftLeaf (nodeIndex n 1 o)) = 3 := by
          rw [hl]
          exact (h.reads _ hblock.left).below _ hmem within_left (by simp)
        have hgr : b.getSize (rightLeaf (nodeIndex n 1 o)) = 3 := by
          rw [hr]
          exact (h.reads _ hblock.right).below _ hmem within_right (by simp)
        rw [getSize_leaf hbl (by rwa [parent_leftLeaf])] at hgl
        rw [getSize_leaf hbr (by rwa [parent_rightLeaf])] at hgr
        rw [getSize_pair ((hsame _).trans hb) ((hsame _).trans hp), hself, hother _ hnl, hother _ hnr]
        split at hgl
        · omega
        · split at hgr
          · omega
          · rename_i hcl hcr
            simp [mark, hcl, hcr]
    | e + 2 =>
        have hb : b.inBitmap (nodeIndex n (e + 2) o) = false := by
          rw [Bool.eq_false_iff, Ne, hbit]
          omega
        rw [getSize_byte ((hsame _).trans hb), hself, mark, if_neg (by omega)]
  · have hgt : nodeIndex n x.2 x.1 < nodeIndex n y.2 y.1 := by
      have hrowy := onRow_nodeIndex hy
      have hle' := hy.order_le
      have hpow : 2 ^ (n - x.2 + 1) ≤ 2 ^ (n - y.2) := Nat.pow_le_pow_right (by omega) (by omega)
      have := hrow.2
      have := hrowy.1
      omega
    rw [getSize_congr hhead (hother _ (by omega)) (hother _ (by unfold leftLeaf; omega))
      (hother _ (by unfold rightLeaf; omega))]
    exact (h.reads y hy).below x hmem hin hlt

/-! ## `buddy_free` and `buddy_size` on a pointer -/

theorem within_of_pointer {space p o e : ℕ} (hlo : space + 8 * o ≤ p)
    (hhi : p < space + 8 * o + 2 ^ (e + 3)) : Within ((p - space) / 8, 0) (o, e) := by
  rw [pow_add] at hhi
  refine ⟨?_, ?_⟩
  · simp only
    omega
  · simp only [pow_zero]
    omega

theorem pointer_of_within {space p o e : ℕ} (hspace : space ≤ p)
    (h : Within ((p - space) / 8, 0) (o, e)) :
    space + 8 * o ≤ p ∧ p < space + 8 * o + 2 ^ (e + 3) := by
  have h1 := h.1
  have h2 := h.2
  simp only [pow_zero] at h1 h2
  rw [pow_add]
  omega

theorem buddyFreeFind_lock (lock : Spinlock) (fuel nodeSize index : ℕ) :
    buddyFreeFind { b with lock := lock } fuel nodeSize index =
      buddyFreeFind b fuel nodeSize index := by
  induction fuel generalizing nodeSize index with
  | zero => unfold buddyFreeFind; rfl
  | succ fuel ih =>
      unfold buddyFreeFind
      simp only [ih]
      rfl

theorem buddyFreeNode_lock (lock : Spinlock) (offset : ℕ) :
    buddyFreeNode { b with lock := lock } offset = buddyFreeNode b offset := by
  simp only [buddyFreeNode, buddyFreeFind_lock]

theorem buddyFree_eq_none {h : KHeap} {p offset : ℕ} (hp : p ≠ 0)
    (hoffset : (p + 2 ^ 64 - h.buddy.space) % 2 ^ 64 = offset)
    (hnode : buddyFreeNode h.buddy offset = none) : buddyFree h p = none := by
  unfold buddyFree
  rw [if_neg hp]
  cases acquire h.cpu h.buddy.lock with
  | none => simp only [Option.bind_eq_bind, Option.bind_none]
  | some r =>
      simp only [Option.bind_eq_bind, Option.bind_some, hoffset, buddyFreeNode_lock, hnode,
        Option.bind_none, ite_self]

theorem buddySize_eq_some {p offset nodeSize index : ℕ}
    (hoffset : (p + 2 ^ 64 - b.space) % 2 ^ 64 = offset) (hlt : offset < b.size)
    (hnode : buddyFreeNode b offset = some (nodeSize, index)) : buddySize b p = some nodeSize := by
  simp only [buddySize, hoffset, hlt, decide_true, Bool.not_true, Bool.false_eq_true, if_false,
    hnode, Option.bind_eq_bind, Option.bind_some, Option.pure_def]

theorem offset_of_pointer {space p : ℕ} (hlo : space ≤ p) (hhi : p < 2 ^ 64) :
    (p + 2 ^ 64 - space) % 2 ^ 64 = p - space := by
  omega

/-- For a pointer into a live block the search of `buddy_free` stops at the node from which
`buddy_alloc` computed the block's address, setting it back leaves the block wholly free,
and `buddy_size` is its size. For any other pointer into the heap no node up to the root
reads 0, and `buddy_free` does not return. -/
theorem buddyFree_search {h : KHeap} (hwf : WellFormedTree n h.buddy used) (hpos : 0 < h.buddy.space)
    (hfits : h.buddy.space + 2 ^ (n + 3) ≤ 2 ^ 64) {p : ℕ} (hlo : h.buddy.space ≤ p)
    (hhi : p < h.buddy.space + 2 ^ (n + 3)) :
    (∀ o e, (o, e) ∈ used → h.buddy.space + 8 * o ≤ p → p < h.buddy.space + 8 * o + 2 ^ (e + 3) →
      ∃ index, (index + 1) * 2 ^ (e + 3) = 8 * o + h.buddy.size ∧
        buddyFreeNode h.buddy (p - h.buddy.space) = some (2 ^ (e + 3), index) ∧
        (∀ x, IsBlock n x → Within x (o, e) → (buddyUnmark h.buddy (2 ^ (e + 3)) index).getSize
          (nodeIndex n x.2 x.1) = x.2 + 3) ∧
        buddySize h.buddy p = some (2 ^ (e + 3))) ∧
    ((∀ o e, (o, e) ∈ used →
        ¬ (h.buddy.space + 8 * o ≤ p ∧ p < h.buddy.space + 8 * o + 2 ^ (e + 3))) →
      (∀ j ≤ n, h.buddy.getSize
        (parent^[j] ((p - h.buddy.space + h.buddy.size) / 8 - 1)) ≠ 0) ∧
      parent^[n] ((p - h.buddy.space + h.buddy.size) / 8 - 1) = 0 ∧ buddyFree h p = none) := by
  have hs := hwf.sized
  have hn3 : 2 ^ (n + 3) = 8 * 2 ^ n := by rw [pow_add]; ring
  have hoffset := offset_of_pointer hlo (hhi.trans_le hfits)
  have hq : (p - h.buddy.space) / 8 < 2 ^ n := by omega
  constructor
  · intro o e hmem hplo hphi
    have hblock := hwf.block _ hmem
    have hle : e ≤ n := hblock.order_le
    have hnode := hwf.buddyFreeNode_used hmem (within_of_pointer hplo hphi)
    refine ⟨nodeIndex n e o, ?_, hnode, fun x hx hin => hwf.buddyUnmark_reads hmem hx hin, ?_⟩
    · have hdvd : 2 ^ e ∣ o + 2 ^ n := Nat.dvd_add hblock.1 (pow_dvd_pow 2 hle)
      have hpos' : 0 < (o + 2 ^ n) / 2 ^ e := (Nat.two_pow_pos (n - e)).trans_le (node_pos hle)
      rw [nodeIndex, Nat.sub_add_cancel hpos', pow_add, ← mul_assoc, Nat.div_mul_cancel hdvd,
        hs.size, hn3]
      ring
    · refine buddySize_eq_some hoffset ?_ hnode
      rw [hs.size]
      omega
  · intro hnone
    have hunit : ∀ y ∈ used, ¬ Within ((p - h.buddy.space) / 8, 0) y := fun y hy hin =>
      hnone y.1 y.2 hy (pointer_of_within hlo hin)
    have hleaf : (p - h.buddy.space + h.buddy.size) / 8 - 1 =
        nodeIndex n 0 ((p - h.buddy.space) / 8) := by
      rw [nodeIndex, pow_zero, Nat.div_one, hs.size, hn3, Nat.add_mul_div_left _ _ (by omega)]
    rw [hleaf]
    refine ⟨fun j hj => ?_, ?_, ?_⟩
    · rw [parent_iterate_nodeIndex hj]
      exact hwf.getSize_ne_zero hq hunit hj
    · rw [parent_iterate_nodeIndex le_rfl, nodeIndex_root hq]
    · exact buddyFree_eq_none (by omega) hoffset (hwf.buddyFreeNode_none hq hunit)

theorem exists_one_block : ∃ (h : KHeap) (o : ℕ), WellFormedTree 4 h.buddy [(o, 1)] ∧
    h.buddy.space = 4096 := by
  obtain ⟨b, -, -, hwf⟩ := wellFormed_new (n := 4) (by omega) (by omega) fun _ => 0
  obtain ⟨index, after, -, -, -, -, -, hafter⟩ := hwf.take (e := 1) (by omega)
    ⟨0, ⟨dvd_zero _, by norm_num⟩, by simp⟩
  refine ⟨⟨⟨0, true, 0, false⟩, { after with space := 4096 }, fun _ => 0⟩,
    nodeOffset 4 1 index, ?_, rfl⟩
  exact ⟨⟨hafter.sized.size, hafter.sized.lo, hafter.sized.hi⟩, hafter.block, hafter.apart,
    hafter.reads⟩

/-- The fourth byte of the one block of a heap, 16 bytes long. -/
theorem buddyFree_search_one_block : ∃ (h : KHeap) (o index : ℕ),
    WellFormedTree 4 h.buddy [(o, 1)] ∧
      buddyFreeNode h.buddy (4096 + 8 * o + 3 - h.buddy.space) = some (16, index) ∧
      buddySize h.buddy (4096 + 8 * o + 3) = some 16 := by
  obtain ⟨h, o, hwf, hspace⟩ := exists_one_block
  have hin : o + 2 ^ 1 ≤ 2 ^ 4 := (hwf.block (o, 1) (by simp)).2
  obtain ⟨index, -, hnode, -, hsize⟩ := (buddyFree_search hwf (by omega) (by omega)
    (p := 4096 + 8 * o + 3) (by omega) (by omega)).1 o 1 (by simp) (by omega) (by omega)
  exact ⟨h, o, index, hwf, hnode, hsize⟩

/-! ## The walk of `buddy_remain_size` -/

/-- Bytes in blocks. -/
def bytesIn (l : List (ℕ × ℕ)) : ℕ := (l.map fun x => 2 ^ (x.2 + 3)).sum

theorem bytesIn_append (l₁ l₂ : List (ℕ × ℕ)) : bytesIn (l₁ ++ l₂) = bytesIn l₁ + bytesIn l₂ := by
  simp [bytesIn]

attribute [local simp] Node.blocks

/-- A tree that knows of no free block is filled by its blocks. -/
theorem bytesIn_of_room_zero (t : Node d) (base : ℕ) (hroom : t.room = 0) :
    bytesIn (t.blocks base) = 2 ^ (d + 3) := by
  induction t generalizing base with
  | free => simp [Node.room] at hroom
  | used => simp [Node.blocks, bytesIn]
  | @split d l r ihl ihr =>
      simp only [Node.room, Nat.max_eq_zero_iff] at hroom
      rw [Node.blocks, bytesIn_append, ihl base hroom.1, ihr _ hroom.2]
      ring

theorem value_eq_zero_iff (t : Node d) : value t = 0 ↔ t.room = 0 := by
  unfold value
  split <;> omega

/-- The next pending node is taken from the stack. -/
def resume (b : BitmapBuddy) (fuel : ℕ) (astack : List ℕ) (alloced : ℕ) : Option ℕ :=
  match astack with
  | [] => none
  | top :: astack => buddyRemainLoop b fuel top astack alloced

theorem Sized.row_lt (hs : Sized n b) {w i : ℕ} (hw : w ≤ n) (hi : OnRow w i) :
    i < b.size / 4 - 1 ∧ i ≠ 2 ^ 32 - 1 := by
  have hrow : 2 ^ (w + 1) ≤ 2 ^ (n + 1) := Nat.pow_le_pow_right (by omega) (by omega)
  have hbound : 2 ^ (n + 1) ≤ 2 ^ 28 := Nat.pow_le_pow_right (by omega) (by have := hs.hi; omega)
  have hquarter : b.size / 4 = 2 ^ (n + 1) := by
    rw [hs.size, show n + 3 = n + 1 + 2 by omega, pow_add _ _ 2]
    omega
  have hend := hi.2
  rw [hquarter]
  omega

theorem Sized.idxIllegal_iff (hs : Sized n b) {w i : ℕ} (hi : OnRow w i) :
    idxIllegal b i = true ↔ w ≤ n := by
  simp only [idxIllegal, decide_eq_true_eq]
  constructor
  · intro hlt
    have hquarter : b.size / 4 = 2 ^ (n + 1) := by
      rw [hs.size, show n + 3 = n + 1 + 2 by omega, pow_add _ _ 2]
      omega
    have hstart := hi.1
    have hpow : 2 ^ w < 2 ^ (n + 1) := by omega
    exact Nat.lt_succ_iff.mp ((Nat.pow_lt_pow_iff_right (by omega)).mp hpow)
  · exact fun hw => (hs.row_lt hw hi).1

theorem getSize2Loop_eq {w i fuel : ℕ} (hi : OnRow w i) (hfuel : w < fuel) (d : ℕ) :
    getSize2Loop fuel (2 ^ (w + d)) i = 2 ^ d := by
  induction w generalizing i fuel with
  | zero =>
      obtain ⟨fuel, rfl⟩ : ∃ f, fuel = f + 1 := ⟨fuel - 1, by omega⟩
      have hzero : i = 0 := by
        have := hi.2
        omega
      simp [getSize2Loop, hzero]
  | succ w ih =>
      obtain ⟨fuel, rfl⟩ : ∃ f, fuel = f + 1 := ⟨fuel - 1, by omega⟩
      have hne : i ≠ 0 := by
        have hstart := hi.1
        have hpow := Nat.two_pow_pos w
        rw [pow_succ] at hstart
        omega
      have hhalf : 2 ^ (w + 1 + d) / 2 = 2 ^ (w + d) := by
        rw [show w + 1 + d = w + d + 1 by omega, pow_succ, Nat.mul_div_cancel _ (by omega)]
      rw [getSize2Loop, if_pos hne, hhalf]
      exact ih hi.parent (by omega)

theorem Sized.getSize2_eq (hs : Sized n b) {w i : ℕ} (hi : OnRow w i) (hwd : w + d = n) :
    getSize2 b i = 2 ^ (d + 3) := by
  rw [getSize2, hs.size, ← hwd, Nat.add_assoc]
  exact getSize2Loop_eq hi (by have := hs.hi; omega) (d + 3)

attribute [local simp] buddyRemainLoop

/-- A round at a node that reads 0. -/
theorem Sized.remain_zero (hs : Sized n b) {w i : ℕ} (hi : OnRow w i) (hwd : w + d = n)
    (hzero : b.getSize i = 0) (fuel : ℕ) (astack : List ℕ) (alloced : ℕ) :
    buddyRemainLoop b (fuel + 1) i astack alloced =
      resume b fuel astack (alloced + 2 ^ (d + 3)) := by
  unfold buddyRemainLoop
  rw [if_neg (hs.row_lt (by omega) hi).2]
  simp only [hzero, if_true, hs.getSize2_eq hi hwd]
  cases astack <;> rfl

/-- A round at a leaf that does not read 0. -/
theorem Sized.remain_leaf (hs : Sized n b) (hi : OnRow n i) (hne : b.getSize i ≠ 0) (fuel : ℕ)
    (astack : List ℕ) (alloced : ℕ) :
    buddyRemainLoop b (fuel + 1) i astack alloced = resume b fuel astack alloced := by
  have hl : idxIllegal b (leftLeaf i) = false := by
    rw [Bool.eq_false_iff, Ne, hs.idxIllegal_iff hi.leftLeaf]
    omega
  have hr : idxIllegal b (rightLeaf i) = false := by
    rw [Bool.eq_false_iff, Ne, hs.idxIllegal_iff hi.rightLeaf]
    omega
  unfold buddyRemainLoop
  rw [if_neg (hs.row_lt le_rfl hi).2]
  simp only [hne, if_false, hl, hr, Bool.false_and, Bool.false_eq_true]
  cases astack <;> rfl

/-- A round at a node with children: the right one is pending, the left one is next. -/
theorem Sized.remain_inner (hs : Sized n b) {w i : ℕ} (hi : OnRow w i) (hw : w < n)
    (hne : b.getSize i ≠ 0) (fuel : ℕ) {astack : List ℕ} (hstack : astack.length < 50)
    (alloced : ℕ) :
    buddyRemainLoop b (fuel + 1) i astack alloced =
      buddyRemainLoop b fuel (leftLeaf i) (rightLeaf i :: astack) alloced := by
  have hl : idxIllegal b (leftLeaf i) = true := (hs.idxIllegal_iff hi.leftLeaf).mpr hw
  have hr : idxIllegal b (rightLeaf i) = true := (hs.idxIllegal_iff hi.rightLeaf).mpr hw
  rw [buddyRemainLoop.eq_def]
  simp only [(hs.row_lt hw.le hi).2, hne, if_false, hl, hr, hstack, decide_true, Bool.not_true,
    Bool.and_false, Bool.false_eq_true, if_true]

/-- A node that does not read 0 is walked like a split one. -/
theorem exists_halves {c : ℕ → ℕ} {t : Node (d + 1)} (hrepr : StoresTree c t i) (ht : value t ≠ 0)
    (base : ℕ) : ∃ l r : Node d, StoresTree c l (leftLeaf i) ∧ StoresTree c r (rightLeaf i) ∧
      t.blocks base = l.blocks base ++ r.blocks (base + 2 ^ d) := by
  cases t with
  | free => exact ⟨.free, .free, hrepr.2.1, hrepr.2.2, rfl⟩
  | used => simp at ht
  | split l r => exact ⟨l, r, hrepr.2.1, hrepr.2.2.1, rfl⟩

/-- The walk below a node adds up its blocks and goes on with the next pending node; the
stack grows by one cell a level. -/
theorem Sized.remain_subtree (hs : Sized n b) (htwin : Twin b b') {w : ℕ} (hi : OnRow w i)
    (hwd : w + d = n) {t : Node d} (hrepr : StoresTree (cell b') t i) (base : ℕ) :
    ∃ rounds < 2 ^ (d + 1), ∀ fuel astack alloced, astack.length + d ≤ 50 →
      buddyRemainLoop b (fuel + rounds) i astack alloced =
        resume b fuel astack (alloced + bytesIn (t.blocks base)) := by
  have hs' := htwin.header.sized hs
  induction d generalizing w i base with
  | zero =>
      obtain rfl : w = n := by omega
      have hread : b.getSize i = value t := by rw [← htwin.getSize, hs'.getSize_eq hi hwd hrepr]
      refine ⟨1, by omega, fun fuel astack alloced _ => ?_⟩
      rcases node_zero_cases t with rfl | rfl
      · rw [hs.remain_leaf hi (by simp [hread])]
        simp [Node.blocks, bytesIn]
      · rw [hs.remain_zero hi hwd (by simp [hread])]
        simp [Node.blocks, bytesIn]
  | succ d ih =>
      have hread : b.getSize i = value t := by rw [← htwin.getSize, hs'.getSize_eq hi hwd hrepr]
      by_cases hzero : value t = 0
      · have hbytes := bytesIn_of_room_zero t base ((value_eq_zero_iff t).mp hzero)
        refine ⟨1, Nat.one_lt_two_pow (by omega), fun fuel astack alloced _ => ?_⟩
        rw [hs.remain_zero hi hwd (hread.trans hzero), hbytes]
      · obtain ⟨l, r, hl, hr, hblocks⟩ := exists_halves hrepr hzero base
        obtain ⟨left, hleft, hwalkl⟩ := ih hi.leftLeaf (by omega) hl base
        obtain ⟨right, hright, hwalkr⟩ := ih hi.rightLeaf (by omega) hr (base + 2 ^ d)
        have hpow : 2 ^ (d + 1 + 1) = 2 ^ (d + 1) + 2 ^ (d + 1) := by ring
        refine ⟨right + left + 1, by omega, fun fuel astack alloced hstack => ?_⟩
        rw [← Nat.add_assoc, ← Nat.add_assoc]
        calc buddyRemainLoop b (fuel + right + left + 1) i astack alloced
            = buddyRemainLoop b (fuel + right + left) (leftLeaf i) (rightLeaf i :: astack) alloced :=
              hs.remain_inner hi (by omega) (by rwa [hread]) _ (by omega) alloced
          _ = buddyRemainLoop b (fuel + right) (rightLeaf i) astack
                (alloced + bytesIn (l.blocks base)) :=
              hwalkl _ _ _ (by rw [List.length_cons]; omega)
          _ = resume b fuel astack (alloced + bytesIn (t.blocks base)) := by
              rw [hwalkr _ _ _ (by omega), hblocks, bytesIn_append, Nat.add_assoc]

theorem bytesIn_perm {l₁ l₂ : List (ℕ × ℕ)} (h : l₁.Perm l₂) : bytesIn l₁ = bytesIn l₂ :=
  (h.map _).sum_nat

theorem bytesIn_le (t : Node d) (base : ℕ) : bytesIn (t.blocks base) ≤ 2 ^ (d + 3) := by
  induction t generalizing base with
  | free => simp [Node.blocks, bytesIn]
  | used => simp [Node.blocks, bytesIn]
  | @split d l r ihl ihr =>
      have hl := ihl base
      have hr := ihr (base + 2 ^ d)
      rw [Node.blocks, bytesIn_append, show d + 1 + 3 = d + 3 + 1 by omega, pow_succ]
      omega

/-- `buddy_remain_size` ends within its stack and returns what is not allocated. -/
theorem buddyRemainSize_eq (h : WellFormedTree n b used) :
    ∃ remain, buddyRemainSize b = some remain ∧ remain + bytesIn used = 2 ^ (n + 3) := by
  obtain ⟨b', t, htwin, -, hrepr, hused⟩ := h.exists_tree
  have hs := h.sized
  obtain ⟨rounds, hrounds, hwalk⟩ := hs.remain_subtree htwin onRow_zero (Nat.zero_add n) hrepr 0
  have hquarter : b.size / 4 = 2 ^ (n + 1) := by
    rw [hs.size, show n + 3 = n + 1 + 2 by omega, pow_add _ _ 2]
    omega
  have hfuel : b.size / 4 = b.size / 4 - rounds + rounds := by omega
  have hloop : buddyRemainLoop b (b.size / 4) 0 [2 ^ 32 - 1] 0 = some (bytesIn used) := by
    rw [hfuel, hwalk _ _ _ (by have := hs.hi; simp only [List.length_singleton]; omega),
      ← bytesIn_perm hused, Nat.zero_add]
    unfold resume buddyRemainLoop
    simp
  have hle : bytesIn used ≤ 2 ^ (n + 3) := by
    rw [bytesIn_perm hused]
    exact bytesIn_le t 0
  refine ⟨2 ^ (n + 3) - bytesIn used, ?_, Nat.sub_add_cancel hle⟩
  rw [buddyRemainSize, hloop, hs.size]
  rfl

/-- After one allocation of 16 bytes, 112 bytes of 128 remain. -/
theorem buddyRemainSize_one_block : ∃ h : KHeap, ∃ o, WellFormedTree 4 h.buddy [(o, 1)] ∧
    buddyRemainSize h.buddy = some 112 := by
  obtain ⟨h, o, hwf, -⟩ := exists_one_block
  obtain ⟨remain, hcall, hsum⟩ := buddyRemainSize_eq hwf
  have hremain : remain = 112 := by
    simp only [bytesIn, List.map_cons, List.map_nil, List.sum_cons, List.sum_nil] at hsum
    omega
  exact ⟨h, o, hwf, hremain ▸ hcall⟩

end K210Os
