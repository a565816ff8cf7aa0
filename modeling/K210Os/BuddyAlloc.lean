import K210Os.BuddyCells

/-!
# Allocation hands out one idle block

The descent and the climb of `buddy_alloc` are followed through one subtree at a
time: the climb from the marked node up to the root of a subtree is cut off, and
what it leaves behind stands for the subtree with one block handed out.
-/

namespace K210Os

open BitmapBuddy BuddyTree

/-- `b'` differs from `b` in the table only. -/
def SameHeader (b b' : BitmapBuddy) : Prop := b' = { b with bbt := b'.bbt }

theorem SameHeader.refl (b : BitmapBuddy) : SameHeader b b := rfl

theorem SameHeader.trans {b₁ b₂ b₃ : BitmapBuddy} (h : SameHeader b₁ b₂)
    (k : SameHeader b₂ b₃) : SameHeader b₁ b₃ := by
  unfold SameHeader at *
  rw [k, h]

theorem SameHeader.lock {b b' : BitmapBuddy} (h : SameHeader b b') : b'.lock = b.lock := by
  rw [h]

theorem SameHeader.space {b b' : BitmapBuddy} (h : SameHeader b b') : b'.space = b.space := by
  rw [h]

variable {n : ℕ} {b : BitmapBuddy}

theorem SameHeader.sized {b' : BitmapBuddy} (h : SameHeader b b') (hs : Sized n b) :
    Sized n b' := by
  rw [h]
  exact ⟨hs.size, hs.lo, hs.hi⟩

theorem Sized.scan_eq (h : Sized n b) {w d i : ℕ} (hi : OnRow w i) (hd : n ≤ w + 1)
    {t : Node d} (hwd : w + d = n) (ht : StoresTree (cell b) t i) :
    b.bitmapScanTest i = (value t != 0) := by
  have hin : b.inBitmap i = true := (h.inBitmap_iff hi).mpr hd
  have hcell := ht.cell
  have hd1 : d ≤ 1 := by omega
  simp only [K210Os.cell, hin, if_true, mark, hd1] at hcell
  by_cases hv : value t = 0 <;> simp_all

theorem Sized.cell_buddyAllocUp (h : Sized n b) {w d i index : ℕ} (hi : OnRow w i)
    (hwd : w + (d + 1) = n) {l r : Node d} (hl : StoresTree (cell b) l (leftLeaf i))
    (hr : StoresTree (cell b) r (rightLeaf i))
    (hindex : index = leftLeaf i ∨ index = rightLeaf i) :
    SameHeader b (buddyAllocUp b index) ∧
      cell (buddyAllocUp b index) =
        Function.update (cell b) i (mark (d + 1) (value (.split l r))) := by
  have hpar : parent index = i := by rcases hindex with rfl | rfl <;> simp
  have hrow : OnRow (w + 1) index := by
    rcases hindex with rfl | rfl
    · exact hi.leftLeaf
    · exact hi.rightLeaf
  have hin := h.inBitmap_iff hrow
  have hinp := h.inBitmap_iff hi
  have hvl := value_le l
  have hvr := value_le r
  have hn := h.hi
  have hw : w + 1 + d = n := by omega
  have hgl := h.getSize_eq hi.leftLeaf hw hl
  have hgr := h.getSize_eq hi.rightLeaf hw hr
  unfold buddyAllocUp
  simp only [hpar]
  match d, l, r with
  | 0, l, r =>
      have hp : b.inBitmap i = true := hinp.mpr (by omega)
      have hx : b.inBitmap index = true := hin.mpr (by omega)
      have hsl := h.scan_eq hi.leftLeaf (by omega) hw hl
      have hsr := h.scan_eq hi.rightLeaf (by omega) hw hr
      simp only [hx, hp, if_true]
      refine ⟨rfl, ?_⟩
      rw [h.cell_bitmapSet hp, hsl, hsr, value_split]
      congr 1
      simp only [mark, Nat.zero_add, le_refl, if_true]
      by_cases h1 : value l = 0 <;> by_cases h2 : value r = 0 <;> simp [h1, h2]
  | 1, l, r =>
      have hp : b.inBitmap i = false := by rw [Bool.eq_false_iff, Ne, hinp]; omega
      have hx : b.inBitmap index = true := hin.mpr (by omega)
      simp only [hx, hp, if_true, Bool.false_eq_true, if_false]
      refine ⟨rfl, ?_⟩
      rw [cell_setByte hp (by omega), hgl, hgr, value_split]
      rfl
  | d + 2, l, r =>
      have hp : b.inBitmap i = false := by rw [Bool.eq_false_iff, Ne, hinp]; omega
      have hx : b.inBitmap index = false := by rw [Bool.eq_false_iff, Ne, hin]; omega
      have hout : ∀ j, OnRow (w + 1) j → (b.bbt j).toNat = b.getSize j := by
        intro j hj
        have : b.inBitmap j = false := by
          rw [Bool.eq_false_iff, Ne, h.inBitmap_iff hj]
          omega
        simp [getSize, this]
      simp only [hx, Bool.false_eq_true, if_false]
      refine ⟨rfl, ?_⟩
      rw [hout _ hi.leftLeaf, hout _ hi.rightLeaf, hgl, hgr, cell_setByte hp (by omega),
        value_split]
      rfl

/-- Marking a node writes 0 to its cell, whatever the level. -/
theorem Sized.cell_buddyMark (h : Sized n b) {w e i : ℕ} (hi : OnRow w i) (hwe : w + e = n) :
    SameHeader b (buddyMark b (2 ^ (e + 3)) i) ∧
      cell (buddyMark b (2 ^ (e + 3)) i) = Function.update (cell b) i 0 := by
  have hin := h.inBitmap_iff hi
  have hsize : 2 ^ (e + 3) ≤ 16 ↔ e ≤ 1 := by
    rw [show 16 = 2 ^ 4 by norm_num, Nat.pow_le_pow_iff_right (by omega)]
    omega
  unfold buddyMark
  by_cases he : e ≤ 1
  · rw [if_pos (hsize.mpr he)]
    exact ⟨rfl, h.cell_bitmapSet (hin.mpr (by omega)) false⟩
  · rw [if_neg (by rwa [hsize])]
    have hout : b.inBitmap i = false := by rw [Bool.eq_false_iff, Ne, hin]; omega
    exact ⟨rfl, cell_setByte hout (by omega)⟩

theorem pow2_value_iff {d e : ℕ} (hd : d ≤ 27) (t : Node d) :
    pow2 (value t) ≥ 2 ^ (e + 3) ↔ e < t.room := by
  have hv := value_le t
  rw [pow2_eq _ (by omega), ge_iff_le, Nat.pow_le_pow_iff_right (by omega), le_value_iff]

/-- Offset, in blocks of 8 bytes, of what a node of order `d` manages. -/
def nodeOffset (n d i : ℕ) : ℕ := (i + 1) * 2 ^ d - 2 ^ n

theorem OnRow.mul_ge {w d i : ℕ} (h : OnRow w i) (hwd : w + d = n) :
    2 ^ n ≤ (i + 1) * 2 ^ d := by
  rw [← hwd, pow_add]
  exact Nat.mul_le_mul_right _ h.1

theorem nodeOffset_left (n d i : ℕ) : nodeOffset n d (leftLeaf i) = nodeOffset n (d + 1) i := by
  have : (i * 2 + 1 + 1) * 2 ^ d = (i + 1) * 2 ^ (d + 1) := by ring
  simp only [nodeOffset, leftLeaf, this]

theorem nodeOffset_right {w d i : ℕ} (h : OnRow w i) (hwd : w + (d + 1) = n) :
    nodeOffset n d (rightLeaf i) = nodeOffset n (d + 1) i + 2 ^ d := by
  have hge := h.mul_ge hwd
  have : (i * 2 + 2 + 1) * 2 ^ d = (i + 1) * 2 ^ (d + 1) + 2 ^ d := by ring
  simp only [nodeOffset, rightLeaf, this]
  exact Nat.sub_add_comm hge

/-- What the descent below node `i` finds, and what is left when the climb from
there is back at `i`. The descent reads the table before the mark is set. -/
structure BlockTaken (n e d i : ℕ) (b : BitmapBuddy) (t : Node d) where
  index : ℕ
  after : BitmapBuddy
  tree : Node d
  row : OnRow (n - e) index
  search : ∀ fuel, d - e < fuel →
    buddyAllocSearch b (2 ^ (e + 3)) fuel (2 ^ (d + 3)) i = some (2 ^ (e + 3), index)
  climb : ∀ fuel, buddyAllocBacktrack (fuel + (d - e)) (buddyMark b (2 ^ (e + 3)) index) index =
    buddyAllocBacktrack fuel after i
  header : SameHeader b after
  frame : ∀ j, ¬ Under i j → cell after j = cell b j
  repr : StoresTree (cell after) tree i
  alloc : Alloc e (nodeOffset n e index) t (nodeOffset n d i) tree

/-- At the node of the wanted order the whole node is taken. -/
theorem taken_here (hs : Sized n b) {w e i : ℕ} (hi : OnRow w i) (hwe : w + e = n)
    (ht : StoresTree (cell b) (.free : Node e) i) :
    Nonempty (BlockTaken n e e i b .free) := by
  obtain ⟨hhead, hcell⟩ := hs.cell_buddyMark hi hwe
  refine ⟨⟨i, buddyMark b (2 ^ (e + 3)) i, .used, ?_, ?_, ?_, hhead, ?_, ?_, ?_⟩⟩
  · rwa [show n - e = w by omega]
  · intro fuel hfuel
    obtain ⟨fuel, rfl⟩ : ∃ f, fuel = f + 1 := ⟨fuel - 1, by omega⟩
    simp [buddyAllocSearch]
  · intro fuel
    simp
  · intro j hj
    rw [hcell, Function.update_of_ne]
    rintro rfl
    exact hj (under_refl j)
  · rw [hcell]
    cases e with
    | zero => simp [StoresTree]
    | succ e =>
        have hlt : i < leftLeaf i ∧ i < rightLeaf i := by unfold leftLeaf rightLeaf; omega
        have hl : StoresTree (cell b) (.free : Node e) (leftLeaf i) := ht.2.1
        have hr : StoresTree (cell b) (.free : Node e) (rightLeaf i) := ht.2.2
        exact ⟨Function.update_self .., hl.congr_update hlt.1, hr.congr_update hlt.2⟩
  · exact .take trivial

theorem buddyAllocSearch_step {e d i fuel : ℕ} (hed : e ≤ d) :
    buddyAllocSearch b (2 ^ (e + 3)) (fuel + 1) (2 ^ (d + 1 + 3)) i =
      if pow2 (b.getSize (leftLeaf i)) ≥ 2 ^ (e + 3) then
        buddyAllocSearch b (2 ^ (e + 3)) fuel (2 ^ (d + 3)) (leftLeaf i)
      else buddyAllocSearch b (2 ^ (e + 3)) fuel (2 ^ (d + 3)) (rightLeaf i) := by
  have hne : 2 ^ (d + 1 + 3) ≠ 2 ^ (e + 3) := by
    intro heq
    have := Nat.pow_right_injective (le_refl 2) heq
    omega
  have hhalf : 2 ^ (d + 1 + 3) / 2 = 2 ^ (d + 3) := by
    rw [show d + 1 + 3 = d + 3 + 1 by omega, pow_succ, Nat.mul_div_cancel _ (by omega)]
  rw [buddyAllocSearch, if_neg hne, hhalf]

theorem buddyAllocBacktrack_step (fuel : ℕ) (b : BitmapBuddy) {index : ℕ} (h : index ≠ 0) :
    buddyAllocBacktrack (fuel + 1) b index =
      buddyAllocBacktrack fuel (buddyAllocUp b index) (parent index) := by
  rw [buddyAllocBacktrack, if_neg h]

/-- A block taken below the left child is taken below the node. -/
theorem BlockTaken.fromLeft (hs : Sized n b) {w e d i : ℕ} (hi : OnRow w i) (hwd : w + (d + 1) = n)
    (hed : e ≤ d) {l r : Node d} (hr : StoresTree (cell b) r (rightLeaf i))
    (hl : StoresTree (cell b) l (leftLeaf i)) (hroom : e < l.room)
    (k : BlockTaken n e d (leftLeaf i) b l) {t : Node (d + 1)}
    (halloc : ∀ l', Alloc e (nodeOffset n e k.index) l (nodeOffset n (d + 1) i) l' →
      Alloc e (nodeOffset n e k.index) t (nodeOffset n (d + 1) i) (.split l' r)) :
    Nonempty (BlockTaken n e (d + 1) i b t) := by
  have hs' := k.header.sized hs
  have hr' : StoresTree (cell k.after) r (rightLeaf i) :=
    hr.congr fun j hj => k.frame j fun hu => not_under_left_right hu hj
  obtain ⟨hhead, hcell⟩ := hs'.cell_buddyAllocUp hi hwd k.repr hr' (Or.inl rfl)
  have hlt : i < leftLeaf i ∧ i < rightLeaf i := by unfold leftLeaf rightLeaf; omega
  have htree := halloc k.tree (nodeOffset_left n d i ▸ k.alloc)
  refine ⟨⟨k.index, buddyAllocUp k.after (leftLeaf i), .split k.tree r, k.row, ?_, ?_,
    k.header.trans hhead, ?_, ?_, htree⟩⟩
  · intro fuel hfuel
    obtain ⟨fuel, rfl⟩ : ∃ f, fuel = f + 1 := ⟨fuel - 1, by omega⟩
    have hgl := hs.getSize_eq hi.leftLeaf (by omega) hl
    rw [buddyAllocSearch_step hed, hgl,
      if_pos ((pow2_value_iff (by have := hs.hi; omega) l).mpr hroom)]
    exact k.search fuel (by omega)
  · intro fuel
    rw [show fuel + (d + 1 - e) = fuel + 1 + (d - e) by omega, k.climb,
      buddyAllocBacktrack_step _ _ (by omega), parent_leftLeaf]
  · intro j hj
    rw [hcell, Function.update_of_ne (by rintro rfl; exact hj (under_refl j))]
    exact k.frame j fun hu => hj (under_of_left hu)
  · rw [hcell]
    refine ⟨Function.update_self .., k.repr.congr_update hlt.1, hr'.congr_update hlt.2, ?_⟩
    exact fun _ hidle => k.alloc.not_idle hidle.1

/-- A block taken below the right child is taken below the node; the descent goes
right only when the left child has no room. -/
theorem BlockTaken.fromRight (hs : Sized n b) {w e d i : ℕ} (hi : OnRow w i) (hwd : w + (d + 1) = n)
    (hed : e ≤ d) {l r : Node d} (hl : StoresTree (cell b) l (leftLeaf i))
    (hroom : ¬ e < l.room) (k : BlockTaken n e d (rightLeaf i) b r) :
    Nonempty (BlockTaken n e (d + 1) i b (.split l r)) := by
  have hs' := k.header.sized hs
  have hl' : StoresTree (cell k.after) l (leftLeaf i) :=
    hl.congr fun j hj => k.frame j fun hu => not_under_left_right hj hu
  obtain ⟨hhead, hcell⟩ := hs'.cell_buddyAllocUp hi hwd hl' k.repr (Or.inr rfl)
  have hlt : i < leftLeaf i ∧ i < rightLeaf i := by unfold leftLeaf rightLeaf; omega
  refine ⟨⟨k.index, buddyAllocUp k.after (rightLeaf i), .split l k.tree, k.row, ?_, ?_,
    k.header.trans hhead, ?_, ?_, ?_⟩⟩
  · intro fuel hfuel
    obtain ⟨fuel, rfl⟩ : ∃ f, fuel = f + 1 := ⟨fuel - 1, by omega⟩
    have hgl := hs.getSize_eq hi.leftLeaf (by omega) hl
    rw [buddyAllocSearch_step hed, hgl,
      if_neg (fun hge => hroom ((pow2_value_iff (by have := hs.hi; omega) l).mp hge))]
    exact k.search fuel (by omega)
  · intro fuel
    rw [show fuel + (d + 1 - e) = fuel + 1 + (d - e) by omega, k.climb,
      buddyAllocBacktrack_step _ _ (by omega), parent_rightLeaf]
  · intro j hj
    rw [hcell, Function.update_of_ne (by rintro rfl; exact hj (under_refl j))]
    exact k.frame j fun hu => hj (under_of_right hu)
  · rw [hcell]
    refine ⟨Function.update_self .., hl'.congr_update hlt.1, k.repr.congr_update hlt.2, ?_⟩
    exact fun _ hidle => k.alloc.not_idle hidle.2
  · exact .right (nodeOffset_right hi hwd ▸ k.alloc)

/-- Below every node with room for the wanted order a block of that order is
taken. -/
theorem taken_exists (hs : Sized n b) {e d : ℕ} (hed : e ≤ d) {w i : ℕ} (hi : OnRow w i)
    (hwd : w + d = n) {t : Node d} (ht : StoresTree (cell b) t i) (hroom : e < t.room) :
    Nonempty (BlockTaken n e d i b t) := by
  induction d generalizing w i with
  | zero =>
      obtain rfl : e = 0 := by omega
      obtain rfl : t = .free := eq_free_of_room (by have := room_le t; omega)
      exact taken_here hs hi hwd ht
  | succ d ih =>
      rcases Nat.lt_or_ge d e with hlt | hge
      · obtain rfl : e = d + 1 := by omega
        obtain rfl : t = .free := eq_free_of_room (by have := room_le t; omega)
        exact taken_here hs hi hwd ht
      · have hwd' : w + 1 + d = n := by omega
        cases t with
        | free =>
            obtain ⟨hl, hr⟩ := storesTree_free_children ht
            have hroom' : e < (Node.free : Node d).room := Nat.lt_succ_of_le hge
            obtain ⟨k⟩ := ih hge hi.leftLeaf hwd' hl hroom'
            exact k.fromLeft hs hi hwd hge hr hl hroom' fun _ hl' => .cut hl'
        | used => simp [Node.room] at hroom
        | split l r =>
            by_cases hl : e < l.room
            · obtain ⟨k⟩ := ih hge hi.leftLeaf hwd' ht.2.1 hl
              exact k.fromLeft hs hi hwd hge ht.2.2.1 ht.2.1 hl fun _ hl' => .left hl'
            · have hr : e < r.room := by
                simp only [Node.room, lt_max_iff] at hroom
                exact hroom.resolve_left hl
              obtain ⟨k⟩ := ih hge hi.rightLeaf hwd' ht.2.2.1 hr
              exact k.fromRight hs hi hwd hge ht.2.1 hl

end K210Os
