import K210Os.BuddyAlloc

/-!
# Release gives one block back

`buddy_free` joins two free halves when the logarithms of their sizes add up to
the logarithm of the whole. Apart from the bit levels, which are joined
correctly, that is never true of two free halves, and it is true of some halves
that are not free. `freeClimb` reads the children's values a climb will compare
from the table before the call, so that a caller can state on which tables the
comparison does no harm.
-/

namespace K210Os

open BitmapBuddy BuddyTree

def sibling (index : ℕ) : ℕ := if index % 2 = 1 then index + 1 else index - 1

@[simp] theorem sibling_leftLeaf (i : ℕ) : sibling (leftLeaf i) = rightLeaf i := by
  unfold sibling leftLeaf rightLeaf
  rw [if_pos (by omega)]

@[simp] theorem sibling_rightLeaf (i : ℕ) : sibling (rightLeaf i) = leftLeaf i := by
  unfold sibling leftLeaf rightLeaf
  rw [if_neg (by omega)]
  omega

/-- On the way from a node that gets the value `v` up to the root, `ok` accepts
the values of the two children of every byte node, with the logarithm of its size. -/
def freeClimb (ok : ℕ → ℕ → ℕ → Bool) (b : BitmapBuddy) : ℕ → ℕ → ℕ → ℕ → Bool
  | fuel, nodeSize, index, v =>
      if index = 0 then true
      else match fuel with
        | 0 => true
        | fuel + 1 =>
            let p := parent index
            let w := b.getSize (sibling index)
            if b.inBitmap p then
              freeClimb ok b fuel (nodeSize * 2) p (if v == 3 && w == 3 then 4 else 3)
            else ok v w (log2 (nodeSize * 2)) && freeClimb ok b fuel (nodeSize * 2) p (max v w)

variable {n : ℕ} {b : BitmapBuddy} {ok : ℕ → ℕ → ℕ → Bool}

/-- The parent of two nodes after a release: only the pair of smallest blocks is
ever joined. -/
def joinPair {d : ℕ} (l r : Node d) : Node (d + 1) :=
  if d = 0 ∧ l.room = 1 ∧ r.room = 1 then .free else .split l r

attribute [local simp] Node.room

theorem idle_iff_room (t : Node 0) : t.Idle ↔ t.room = 1 := by
  rcases node_zero_cases t with rfl | rfl <;> simp [Node.Idle, Node.room]

theorem joinPair_of_pos {d : ℕ} (hd : d ≠ 0) (l r : Node d) : joinPair l r = .split l r := by
  simp [joinPair, hd]

theorem value_joinPair_zero (l r : Node 0) (h : value l = 3 ∨ value r = 3) :
    value (joinPair l r) = if value l == 3 && value r == 3 then 4 else 3 := by
  rcases node_zero_cases l with rfl | rfl <;> rcases node_zero_cases r with rfl | rfl <;>
    simp [joinPair, value_split, Node.room] at h ⊢

theorem release_joinPair_left {e o base d : ℕ} {l l' r : Node d} (h : Release e o l base l') :
    Release e o (.split l r) base (joinPair l' r) := by
  unfold joinPair
  split
  · rename_i hjoin
    obtain ⟨rfl, hl, hr⟩ := hjoin
    exact .join (.left h) ⟨(idle_iff_room l').mpr hl, (idle_iff_room r).mpr hr⟩
  · exact .left h

theorem release_joinPair_right {e o base d : ℕ} {l r r' : Node d}
    (h : Release e o r (base + 2 ^ d) r') : Release e o (.split l r) base (joinPair l r') := by
  unfold joinPair
  split
  · rename_i hjoin
    obtain ⟨rfl, hl, hr⟩ := hjoin
    exact .join (.right h) ⟨(idle_iff_room l).mpr hl, (idle_iff_room r').mpr hr⟩
  · exact .right h

/-- The climb keeps a tree tidy where no two free halves meet on a byte level. -/
theorem joinPair_tidy {d : ℕ} {l r : Node d} (hl : l.Tidy) (hr : r.Tidy)
    (h : 1 ≤ d → ¬ (value l + 1 = d + 4 ∧ value r + 1 = d + 4)) : (joinPair l r).Tidy := by
  unfold joinPair
  split
  · trivial
  · rename_i hjoin
    refine ⟨hl, hr, fun hidle => ?_⟩
    rcases Nat.eq_zero_or_pos d with rfl | hd
    · exact hjoin ⟨rfl, (idle_iff_room l).mp hidle.1, (idle_iff_room r).mp hidle.2⟩
    · rw [idle_of_tidy_room hl hidle.1, idle_of_tidy_room hr hidle.2] at h
      exact h hd (by simp)

theorem storesTree_joinPair {c : ℕ → ℕ} {d i : ℕ} {l r : Node d}
    (hc : c i = mark (d + 1) (value (joinPair l r))) (hl : StoresTree c l (leftLeaf i))
    (hr : StoresTree c r (rightLeaf i)) : StoresTree c (joinPair l r) i := by
  unfold joinPair at hc ⊢
  split at hc
  · rename_i hjoin
    obtain ⟨rfl, hlr, hrr⟩ := hjoin
    rw [if_pos ⟨rfl, hlr, hrr⟩]
    rw [eq_free_of_room hlr] at hl
    rw [eq_free_of_room hrr] at hr
    rw [value_free] at hc
    exact ⟨hc, hl, hr⟩
  · rename_i hjoin
    rw [if_neg hjoin]
    refine ⟨hc, hl, hr, ?_⟩
    rintro rfl ⟨hli, hri⟩
    exact hjoin ⟨rfl, (idle_iff_room l).mp hli, (idle_iff_room r).mp hri⟩

/-- One step of the climb, where the comparison of sums does not hold. -/
theorem Sized.cell_buddyFreeUp (h : Sized n b) {w d i : ℕ} (hi : OnRow w i)
    (hwd : w + (d + 1) = n) {l r : Node d} (hl : StoresTree (cell b) l (leftLeaf i))
    (hr : StoresTree (cell b) r (rightLeaf i)) (hpair : d = 0 → value l = 3 ∨ value r = 3)
    (hsum : 1 ≤ d → value l + value r ≠ d + 4) :
    SameHeader b (buddyFreeUp b (2 ^ (d + 4)) i) ∧
      cell (buddyFreeUp b (2 ^ (d + 4)) i) =
        Function.update (cell b) i (mark (d + 1) (value (joinPair l r))) := by
  have hn := h.hi
  have hlog : log2 (2 ^ (d + 4)) = d + 4 := log2_two_pow _ (by omega)
  have hvl := value_le l
  have hvr := value_le r
  have hgl := h.getSize_eq hi.leftLeaf (show w + 1 + d = n by omega) hl
  have hgr := h.getSize_eq hi.rightLeaf (show w + 1 + d = n by omega) hr
  have hin := h.inBitmap_iff hi
  unfold buddyFreeUp
  simp only [hgl, hgr, hlog]
  rcases Nat.eq_zero_or_pos d with rfl | hd
  · have hp : b.inBitmap i = true := hin.mpr (by omega)
    rw [if_pos hp, h.cell_bitmapSet hp, value_joinPair_zero l r (hpair rfl)]
    refine ⟨rfl, ?_⟩
    congr 1
    split <;> simp [mark]
  · have hp : b.inBitmap i = false := by rw [Bool.eq_false_iff, Ne, hin]; omega
    rw [if_neg (by simp [hp]), if_neg (hsum hd), joinPair_of_pos (by omega), value_split]
    refine ⟨rfl, ?_⟩
    rw [cell_setByte hp (by omega), mark, if_neg (by omega)]

theorem Sized.cell_buddyUnmark (h : Sized n b) {w e i : ℕ} (hi : OnRow w i) (hwe : w + e = n) :
    SameHeader b (buddyUnmark b (2 ^ (e + 3)) i) ∧
      cell (buddyUnmark b (2 ^ (e + 3)) i) = Function.update (cell b) i (mark e (e + 3)) := by
  have hin := h.inBitmap_iff hi
  have hn := h.hi
  unfold buddyUnmark
  by_cases he : e ≤ 1
  · have hp : b.inBitmap i = true := hin.mpr (by omega)
    rw [if_pos hp, h.cell_bitmapSet hp]
    exact ⟨rfl, by simp [mark, he]⟩
  · have hp : b.inBitmap i = false := by rw [Bool.eq_false_iff, Ne, hin]; omega
    rw [if_neg (by simp [hp]), log2_two_pow _ (by omega), cell_setByte hp (by omega)]
    exact ⟨rfl, by simp [mark, he]⟩

theorem buddyFreeMerge_step (fuel nodeSize : ℕ) (b : BitmapBuddy) {index : ℕ} (h : index ≠ 0) :
    buddyFreeMerge (fuel + 1) b nodeSize index =
      buddyFreeMerge fuel (buddyFreeUp b (nodeSize * 2) (parent index)) (nodeSize * 2)
        (parent index) := by
  rw [buddyFreeMerge, if_neg h]

/-- One step of `freeClimb` at a child of node `i`, `w` being the other child. -/
theorem Sized.freeClimb_step (h : Sized n b) {w d i fuel v index : ℕ} (hi : OnRow w i)
    (hwd : w + (d + 1) = n) (hindex : index ≠ 0) (hpar : parent index = i)
    (hc : freeClimb ok b (fuel + 1) (2 ^ (d + 3)) index v = true) :
    (d = 0 → freeClimb ok b fuel (2 ^ (d + 4)) i
      (if v == 3 && b.getSize (sibling index) == 3 then 4 else 3) = true) ∧
    (1 ≤ d → ok v (b.getSize (sibling index)) (d + 4) = true ∧
      freeClimb ok b fuel (2 ^ (d + 4)) i (max v (b.getSize (sibling index))) = true) := by
  have hn := h.hi
  have hin := h.inBitmap_iff hi
  have hdouble : 2 ^ (d + 3) * 2 = 2 ^ (d + 4) := by ring
  rw [freeClimb, if_neg hindex] at hc
  simp only [hpar, hdouble, log2_two_pow (d + 4) (by omega)] at hc
  constructor
  · rintro rfl
    rwa [if_pos (hin.mpr (by omega))] at hc
  · intro hd
    have hp : b.inBitmap i = false := by rw [Bool.eq_false_iff, Ne, hin]; omega
    simpa [hp] using hc

attribute [local simp] buddyFreeFind

theorem buddyFreeFind_step (fuel nodeSize : ℕ) {index : ℕ} (h : b.getSize index ≠ 0)
    (h0 : index ≠ 0) :
    buddyFreeFind b (fuel + 1) nodeSize index =
      buddyFreeFind b fuel (nodeSize * 2) (parent index) := by
  rw [buddyFreeFind, if_neg h, if_neg h0]

theorem buddyFreeFind_stop (fuel nodeSize : ℕ) {index : ℕ} (h : b.getSize index = 0) :
    buddyFreeFind b fuel nodeSize index = some (nodeSize, index) := by
  cases fuel <;> simp [buddyFreeFind, h]

/-- From the leftmost leaf of a wholly free node the search leaves the node. -/
theorem Sized.buddyFreeFind_full (h : Sized n b) {w d i : ℕ} (hi : OnRow w i) (hwd : w + d = n)
    (h0 : i ≠ 0) (hfull : Full (cell b) d i) (fuel : ℕ) :
    buddyFreeFind b (fuel + (d + 1)) 8 ((i + 1) * 2 ^ d - 1) =
      buddyFreeFind b fuel (2 ^ (d + 4)) (parent i) := by
  induction d generalizing w i fuel with
  | zero =>
      have hg : b.getSize i = value (.free : Node 0) := h.getSize_eq hi hwd hfull
      simp only [pow_zero, Nat.mul_one, Nat.add_sub_cancel]
      exact buddyFreeFind_step _ _ (by simp [hg]) h0
  | succ d ih =>
      have hg : b.getSize i = value (.free : Node (d + 1)) := h.getSize_eq hi hwd hfull
      have hleaf : (i + 1) * 2 ^ (d + 1) - 1 = (leftLeaf i + 1) * 2 ^ d - 1 := by
        unfold leftLeaf
        congr 1
        ring
      rw [hleaf, show fuel + (d + 1 + 1) = fuel + 1 + (d + 1) by omega,
        ih hi.leftLeaf (by omega) (by unfold leftLeaf; omega) hfull.2.1, parent_leftLeaf,
        buddyFreeFind_step _ _ (by simp [hg]) h0]
      congr 1

/-- From the leaf at the start of an allocated block the search stops at the node
that was marked for the block. -/
theorem Sized.buddyFreeFind_used (h : Sized n b) {w e i : ℕ} (hi : OnRow w i) (hwe : w + e = n)
    (hused : StoresTree (cell b) (.used : Node e) i) (fuel : ℕ) :
    buddyFreeFind b (fuel + e) 8 ((i + 1) * 2 ^ e - 1) = some (2 ^ (e + 3), i) := by
  have hg : b.getSize i = 0 := by rw [h.getSize_eq hi hwe hused, value_used]
  cases e with
  | zero =>
      simp only [pow_zero, Nat.mul_one, Nat.add_sub_cancel]
      exact buddyFreeFind_stop _ _ hg
  | succ e =>
      have hleaf : (i + 1) * 2 ^ (e + 1) - 1 = (leftLeaf i + 1) * 2 ^ e - 1 := by
        unfold leftLeaf
        congr 1
        ring
      rw [hleaf, h.buddyFreeFind_full hi.leftLeaf (by omega) (by unfold leftLeaf; omega) hused.2.1,
        parent_leftLeaf, buddyFreeFind_stop _ _ hg]

/-- The node of the block of order `e` at offset `o`. -/
def nodeIndex (n e o : ℕ) : ℕ := (o + 2 ^ n) / 2 ^ e - 1

theorem nodeIndex_nodeOffset {w e i : ℕ} (hi : OnRow w i) (hwe : w + e = n) :
    nodeIndex n e (nodeOffset n e i) = i := by
  have hge := hi.mul_ge hwe
  rw [nodeIndex, nodeOffset, Nat.sub_add_cancel hge, Nat.mul_div_cancel _ (Nat.two_pow_pos e)]
  omega

/-- The block of order `e` at offset `o` below node `i` is marked at node `index`,
and this is what is left when the climb from there is back at `i`. -/
structure Given (ok : ℕ → ℕ → ℕ → Bool) (n e o d i fuel : ℕ) (b : BitmapBuddy)
    (t : Node d) where
  after : BitmapBuddy
  tree : Node d
  row : OnRow (n - e) (nodeIndex n e o)
  offset : nodeOffset n e (nodeIndex n e o) = o
  marked : StoresTree (cell b) (.used : Node e) (nodeIndex n e o)
  merge : ∀ f, buddyFreeMerge (f + (d - e)) (buddyUnmark b (2 ^ (e + 3)) (nodeIndex n e o))
    (2 ^ (e + 3)) (nodeIndex n e o) = buddyFreeMerge f after (2 ^ (d + 3)) i
  header : SameHeader b after
  frame : ∀ j, ¬ Under i j → cell after j = cell b j
  repr : StoresTree (cell after) tree i
  release : Release e o t (nodeOffset n d i) tree
  climbed : freeClimb ok b fuel (2 ^ (d + 3)) i (value tree) = true
  tidy : (∀ v w k, ok v w k = true → ¬ (v + 1 = k ∧ w + 1 = k)) → t.Tidy → tree.Tidy

/-- The marked node itself. -/
theorem given_here (hs : Sized n b) {w e i fuel : ℕ} (hi : OnRow w i) (hwe : w + e = n)
    (ht : StoresTree (cell b) (.used : Node e) i)
    (hc : freeClimb ok b fuel (2 ^ (e + 3)) i (e + 3) = true) :
    Nonempty (Given ok n e (nodeOffset n e i) e i fuel b .used) := by
  obtain ⟨hhead, hcell⟩ := hs.cell_buddyUnmark hi hwe
  have hindex := nodeIndex_nodeOffset hi hwe
  refine ⟨⟨buddyUnmark b (2 ^ (e + 3)) i, .free, ?_, ?_, ?_, ?_, hhead, ?_, ?_, .drop, ?_, ?_⟩⟩
  · rw [hindex, show n - e = w by omega]
    exact hi
  · rw [hindex]
  · rwa [hindex]
  · intro f
    rw [hindex, Nat.sub_self, Nat.add_zero]
  · intro j hj
    rw [hcell, Function.update_of_ne]
    rintro rfl
    exact hj (under_refl j)
  · rw [hcell]
    cases e with
    | zero => exact Function.update_self ..
    | succ e =>
        have hlt : i < leftLeaf i ∧ i < rightLeaf i := by unfold leftLeaf rightLeaf; omega
        have hl : StoresTree (cell b) (.free : Node e) (leftLeaf i) := ht.2.1
        have hr : StoresTree (cell b) (.free : Node e) (rightLeaf i) := ht.2.2
        exact ⟨Function.update_self .., hl.congr_update hlt.1, hr.congr_update hlt.2⟩
  · rwa [value_free]
  · exact fun _ _ => trivial

/-- A release makes the smallest blocks it touches free, never used. -/
theorem value_of_release {e o base : ℕ} {t t' : Node 0} (h : Release e o t base t') :
    value t' = 3 := by
  cases h with
  | drop => simp
  | join _ _ => simp

variable {w d i e o fuel : ℕ}

/-- What the step from a child to its parent needs: the table of the climb at the
parent, and what `freeClimb` says there. -/
theorem Sized.climb_up (h : Sized n b) (hi : OnRow w i) (hwd : w + (d + 1) = n)
    (hok : ∀ v w k, ok v w k = true → v + w ≠ k) {index : ℕ} (hindex : index ≠ 0)
    (hpar : parent index = i) {s s' : Node d} (hs' : d = 0 → value s' = 3)
    (hsib : b.getSize (sibling index) = value s)
    (hc : freeClimb ok b (fuel + 1) (2 ^ (d + 3)) index (value s') = true) :
    (1 ≤ d → ok (value s') (value s) (d + 4) = true) ∧
      (1 ≤ d → value s' + value s ≠ d + 4) ∧
      freeClimb ok b fuel (2 ^ (d + 4)) i (value (joinPair s' s)) = true ∧
      freeClimb ok b fuel (2 ^ (d + 4)) i (value (joinPair s s')) = true := by
  obtain ⟨hzero, hpos⟩ := h.freeClimb_step hi hwd hindex hpar hc
  rw [hsib] at hzero hpos
  refine ⟨fun hd => (hpos hd).1, fun hd => hok _ _ _ (hpos hd).1, ?_⟩
  rcases Nat.eq_zero_or_pos d with rfl | hd
  · rw [value_joinPair_zero _ _ (Or.inl (hs' rfl)), value_joinPair_zero _ _ (Or.inr (hs' rfl)),
      Bool.and_comm (value s == 3)]
    exact ⟨hzero rfl, hzero rfl⟩
  · rw [joinPair_of_pos (by omega), joinPair_of_pos (by omega), value_split, value_split,
      max_comm (value s)]
    exact ⟨(hpos hd).2, (hpos hd).2⟩

theorem Given.fromLeft (hs : Sized n b) (hi : OnRow w i) (hwd : w + (d + 1) = n) (hed : e ≤ d)
    (hok : ∀ v w k, ok v w k = true → v + w ≠ k) {l r : Node d}
    (hr : StoresTree (cell b) r (rightLeaf i)) (k : Given ok n e o d (leftLeaf i) (fuel + 1) b l) :
    Nonempty (Given ok n e o (d + 1) i fuel b (.split l r)) := by
  have hs' := k.header.sized hs
  have hr' : StoresTree (cell k.after) r (rightLeaf i) :=
    hr.congr fun j hj => k.frame j fun hu => not_under_left_right hu hj
  have hne : leftLeaf i ≠ 0 := by unfold leftLeaf; omega
  have hlt : i < leftLeaf i ∧ i < rightLeaf i := by unfold leftLeaf rightLeaf; omega
  have hsib : b.getSize (sibling (leftLeaf i)) = value r := by
    rw [sibling_leftLeaf]
    exact hs.getSize_eq hi.rightLeaf (by omega) hr
  have hzero : d = 0 → value k.tree = 3 := by
    rintro rfl
    exact value_of_release k.release
  obtain ⟨hokd, hsum, hclimb, -⟩ :=
    hs.climb_up hi hwd hok hne (parent_leftLeaf i) hzero hsib k.climbed
  obtain ⟨hhead, hcell⟩ :=
    hs'.cell_buddyFreeUp hi hwd k.repr hr' (fun hd => Or.inl (hzero hd)) hsum
  refine ⟨⟨buddyFreeUp k.after (2 ^ (d + 4)) i, joinPair k.tree r, k.row, k.offset, k.marked, ?_,
    k.header.trans hhead, ?_, ?_, ?_, hclimb, ?_⟩⟩
  · intro f
    rw [show f + (d + 1 - e) = f + 1 + (d - e) by omega, k.merge, buddyFreeMerge_step _ _ _ hne,
      parent_leftLeaf, show 2 ^ (d + 3) * 2 = 2 ^ (d + 4) by ring]
  · intro j hj
    rw [hcell, Function.update_of_ne (by rintro rfl; exact hj (under_refl j))]
    exact k.frame j fun hu => hj (under_of_left hu)
  · rw [hcell]
    exact storesTree_joinPair (Function.update_self ..) (k.repr.congr_update hlt.1)
      (hr'.congr_update hlt.2)
  · exact release_joinPair_left (nodeOffset_left n d i ▸ k.release)
  · intro hfull ht
    exact joinPair_tidy (k.tidy hfull ht.1) ht.2.1 fun hd => hfull _ _ _ (hokd hd)

theorem Given.fromRight (hs : Sized n b) (hi : OnRow w i) (hwd : w + (d + 1) = n) (hed : e ≤ d)
    (hok : ∀ v w k, ok v w k = true → v + w ≠ k) {l r : Node d}
    (hl : StoresTree (cell b) l (leftLeaf i)) (k : Given ok n e o d (rightLeaf i) (fuel + 1) b r) :
    Nonempty (Given ok n e o (d + 1) i fuel b (.split l r)) := by
  have hs' := k.header.sized hs
  have hl' : StoresTree (cell k.after) l (leftLeaf i) :=
    hl.congr fun j hj => k.frame j fun hu => not_under_left_right hj hu
  have hne : rightLeaf i ≠ 0 := by unfold rightLeaf; omega
  have hlt : i < leftLeaf i ∧ i < rightLeaf i := by unfold leftLeaf rightLeaf; omega
  have hsib : b.getSize (sibling (rightLeaf i)) = value l := by
    rw [sibling_rightLeaf]
    exact hs.getSize_eq hi.leftLeaf (by omega) hl
  have hzero : d = 0 → value k.tree = 3 := by
    rintro rfl
    exact value_of_release k.release
  obtain ⟨hokd, hsum, -, hclimb⟩ :=
    hs.climb_up hi hwd hok hne (parent_rightLeaf i) hzero hsib k.climbed
  obtain ⟨hhead, hcell⟩ :=
    hs'.cell_buddyFreeUp hi hwd hl' k.repr (fun hd => Or.inr (hzero hd))
      fun hd => by rw [Nat.add_comm]; exact hsum hd
  refine ⟨⟨buddyFreeUp k.after (2 ^ (d + 4)) i, joinPair l k.tree, k.row, k.offset, k.marked, ?_,
    k.header.trans hhead, ?_, ?_, ?_, hclimb, ?_⟩⟩
  · intro f
    rw [show f + (d + 1 - e) = f + 1 + (d - e) by omega, k.merge, buddyFreeMerge_step _ _ _ hne,
      parent_rightLeaf, show 2 ^ (d + 3) * 2 = 2 ^ (d + 4) by ring]
  · intro j hj
    rw [hcell, Function.update_of_ne (by rintro rfl; exact hj (under_refl j))]
    exact k.frame j fun hu => hj (under_of_right hu)
  · rw [hcell]
    exact storesTree_joinPair (Function.update_self ..) (hl'.congr_update hlt.1)
      (k.repr.congr_update hlt.2)
  · exact release_joinPair_right (nodeOffset_right hi hwd ▸ k.release)
  · intro hfull ht
    refine joinPair_tidy ht.1 (k.tidy hfull ht.2.1) fun hd hboth => ?_
    exact hfull _ _ _ (hokd hd) hboth.symm

/-- Every block handed out below a node is found and given back. -/
theorem given_exists (hs : Sized n b) (hok : ∀ v w k, ok v w k = true → v + w ≠ k)
    (hi : OnRow w i) (hwd : w + d = n) {t : Node d} (ht : StoresTree (cell b) t i)
    (hmem : (o, e) ∈ t.blocks (nodeOffset n d i))
    (hc : freeClimb ok b (fuel + (d - e)) (2 ^ (e + 3)) (nodeIndex n e o) (e + 3) = true) :
    e ≤ d ∧ Nonempty (Given ok n e o d i fuel b t) := by
  induction t generalizing w i fuel with
  | free => simp [Node.blocks] at hmem
  | used =>
      simp only [Node.blocks, List.mem_singleton, Prod.mk.injEq] at hmem
      obtain ⟨rfl, rfl⟩ := hmem
      rw [nodeIndex_nodeOffset hi hwd, Nat.sub_self, Nat.add_zero] at hc
      exact ⟨le_rfl, given_here hs hi hwd ht hc⟩
  | @split d l r ihl ihr =>
      simp only [Node.blocks, List.mem_append] at hmem
      have hed : e ≤ d := by
        have hle : 2 ^ e ≤ 2 ^ d := by
          rcases hmem with hmem | hmem <;>
          · have := mem_blocks_inside hmem
            simp only at this
            omega
        exact (Nat.pow_le_pow_iff_right (by omega)).mp hle
      rw [show fuel + (d + 1 - e) = fuel + 1 + (d - e) by omega] at hc
      refine ⟨by omega, ?_⟩
      rcases hmem with hmem | hmem
      · rw [← nodeOffset_left] at hmem
        obtain ⟨-, ⟨k⟩⟩ := ihl hi.leftLeaf (by omega) ht.2.1 hmem hc
        exact k.fromLeft hs hi hwd hed hok ht.2.2.1
      · rw [← nodeOffset_right hi hwd] at hmem
        obtain ⟨-, ⟨k⟩⟩ := ihr hi.rightLeaf (by omega) ht.2.2.1 hmem hc
        exact k.fromRight hs hi hwd hed hok ht.2.1

end K210Os
