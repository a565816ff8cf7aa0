import K210Os.BuddyHeap

/-!
# Well-formed tables

What the nodes of a table read for a set of allocated blocks, through `get_size` alone,
and the tree that such a table stands for. The bit of a 16-byte node whose halves are
both used up is not seen through `get_size`; a table is compared with its twin, in which
these bits are clear.
-/

namespace K210Os

open BitmapBuddy BuddyTree

variable {n d e o base : ℕ} {used : List (ℕ × ℕ)} {x y : ℕ × ℕ}

/-- An aligned block, given by offset and order, of a heap of order `n`. Every node of
the tree manages one. -/
def IsBlock (n : ℕ) (x : ℕ × ℕ) : Prop := 2 ^ x.2 ∣ x.1 ∧ x.1 + 2 ^ x.2 ≤ 2 ^ n

def Within (x y : ℕ × ℕ) : Prop := y.1 ≤ x.1 ∧ x.1 + 2 ^ x.2 ≤ y.1 + 2 ^ y.2

/-- An aligned block that overlaps no allocated one. -/
def IsFree (n : ℕ) (used : List (ℕ × ℕ)) (x : ℕ × ℕ) : Prop :=
  IsBlock n x ∧ ∀ y ∈ used, Apart x y

/-- What the node of block `x` has to read: 0 when the block is allocated, the whole
block below an allocated one, and else the logarithm of the largest free block in it. -/
structure ReadsAs (n : ℕ) (used : List (ℕ × ℕ)) (x : ℕ × ℕ) (v : ℕ) : Prop where
  marked : x ∈ used → v = 0
  below : ∀ y ∈ used, Within x y → x.2 < y.2 → v = x.2 + 3
  largest : (∀ y ∈ used, ¬ Within x y) → (v = 0 ∨ 3 ≤ v) ∧
    ∀ e, e + 3 ≤ v ↔ ∃ o, IsFree n used (o, e) ∧ Within (o, e) x

/-- The table over `2 ^ n` blocks of 8 bytes reads as it must for the allocated
blocks, which do not overlap. -/
structure WellFormedTree (n : ℕ) (b : BitmapBuddy) (used : List (ℕ × ℕ)) : Prop where
  sized : Sized n b
  block : ∀ x ∈ used, IsBlock n x
  apart : used.Pairwise Apart
  reads : ∀ x, IsBlock n x → ReadsAs n used x (b.getSize (nodeIndex n x.2 x.1))

theorem IsBlock.order_le (h : IsBlock n x) : x.2 ≤ n := by
  have hle : 2 ^ x.2 ≤ 2 ^ n := by
    have := h.2
    omega
  exact (Nat.pow_le_pow_iff_right (by omega)).mp hle

theorem within_refl (x : ℕ × ℕ) : Within x x := ⟨le_rfl, le_rfl⟩

theorem Within.trans {z : ℕ × ℕ} (h : Within x y) (h' : Within y z) : Within x z :=
  ⟨h'.1.trans h.1, h.2.trans h'.2⟩

theorem Within.order_le (h : Within x y) : x.2 ≤ y.2 := by
  have hle : 2 ^ x.2 ≤ 2 ^ y.2 := by
    have := h.1
    have := h.2
    omega
  exact (Nat.pow_le_pow_iff_right (by omega)).mp hle

theorem Within.eq_of_order (h : Within x y) (horder : x.2 = y.2) : x = y := by
  have h1 := h.1
  have h2 := h.2
  rw [horder] at h2
  exact Prod.ext (by omega) horder

theorem not_apart_of_within (h : Within x y) : ¬ Apart x y := by
  have := h.1
  have := h.2
  have := Nat.two_pow_pos x.2
  have := Nat.two_pow_pos y.2
  simp only [Apart]
  omega

/-- Of two aligned blocks that overlap the smaller one lies within the larger. -/
theorem within_of_not_apart (hx : 2 ^ x.2 ∣ x.1) (hy : 2 ^ y.2 ∣ y.1) (horder : x.2 ≤ y.2)
    (h : ¬ Apart x y) : Within x y := by
  obtain ⟨a, ha⟩ := hx
  obtain ⟨c, hc⟩ := (pow_dvd_pow 2 horder).trans hy
  obtain ⟨f, hf⟩ := pow_dvd_pow 2 horder
  have hpos := Nat.two_pow_pos x.2
  simp only [Apart, not_or, not_le] at h
  rw [Within, ha, hc, hf]
  rw [ha, hc, hf, ← Nat.mul_succ, ← Nat.mul_add, Nat.mul_lt_mul_left hpos,
    Nat.mul_lt_mul_left hpos] at h
  rw [← Nat.mul_succ, ← Nat.mul_add]
  exact ⟨Nat.mul_le_mul_left _ (by omega), Nat.mul_le_mul_left _ (by omega)⟩

theorem within_left : Within (base, d) (base, d + 1) :=
  ⟨le_rfl, Nat.add_le_add_left (Nat.pow_le_pow_right (by omega) (Nat.le_succ d)) _⟩

theorem within_right : Within (base + 2 ^ d, d) (base, d + 1) := by
  have hpow : 2 ^ (d + 1) = 2 ^ d + 2 ^ d := by ring
  exact ⟨Nat.le_add_right _ _, by simp only [hpow]; omega⟩

/-- A block within a node that splits lies in one of its halves, or is the whole. -/
theorem within_half (hbase : 2 ^ (d + 1) ∣ base) (hx : 2 ^ x.2 ∣ x.1)
    (h : Within x (base, d + 1)) :
    x = (base, d + 1) ∨ Within x (base, d) ∨ Within x (base + 2 ^ d, d) := by
  rcases Nat.eq_or_lt_of_le h.order_le with horder | hlt
  · exact Or.inl (h.eq_of_order horder)
  · right
    have hle : x.2 ≤ d := Nat.lt_succ_iff.mp hlt
    have hhalf : 2 ^ d ∣ base := (pow_dvd_pow 2 (Nat.le_succ d)).trans hbase
    have hpow : 2 ^ (d + 1) = 2 ^ d + 2 ^ d := by ring
    have h1 := h.1
    have h2 := h.2
    simp only [hpow] at h1 h2
    by_cases hleft : Apart x (base, d)
    · right
      have := Nat.two_pow_pos x.2
      simp only [Apart] at hleft
      refine ⟨?_, ?_⟩ <;> simp only <;> omega
    · left
      exact within_of_not_apart hx hhalf hle hleft

/-! ## Trees -/

theorem exists_block_of_room {t : Node d} (ht : t.Tidy) (hbase : 2 ^ d ∣ base)
    (hroom : e < t.room) : ∃ o, 2 ^ e ∣ o ∧ Within (o, e) (base, d) ∧
      ∀ y ∈ t.blocks base, Apart (o, e) y := by
  induction t generalizing base with
  | @free d =>
      have hle : e ≤ d := Nat.lt_succ_iff.mp hroom
      exact ⟨base, (pow_dvd_pow 2 hle).trans hbase,
        ⟨le_rfl, Nat.add_le_add_left (Nat.pow_le_pow_right (by omega) hle) _⟩, by simp [Node.blocks]⟩
  | used => simp [Node.room] at hroom
  | @split d l r ihl ihr =>
      have hpow : 2 ^ (d + 1) = 2 ^ d + 2 ^ d := by ring
      have hhalf : 2 ^ d ∣ base := (pow_dvd_pow 2 (Nat.le_succ d)).trans hbase
      simp only [Node.room, lt_max_iff] at hroom
      rcases hroom with hroom | hroom
      · obtain ⟨o, ho, hin, hapart⟩ := ihl ht.1 hhalf hroom
        have hin1 := hin.1
        have hin2 := hin.2
        simp only at hin1 hin2
        refine ⟨o, ho, ⟨hin.1, by simp only [hpow]; omega⟩, fun y hy => ?_⟩
        rcases List.mem_append.mp hy with hy | hy
        · exact hapart y hy
        · have := mem_blocks_inside hy
          left
          simp only
          omega
      · obtain ⟨o, ho, hin, hapart⟩ := ihr ht.2.1 (Nat.dvd_add hhalf (dvd_refl _)) hroom
        have hin1 := hin.1
        have hin2 := hin.2
        simp only at hin1 hin2
        refine ⟨o, ho, ⟨by simp only; omega, by simp only [hpow]; omega⟩, fun y hy => ?_⟩
        rcases List.mem_append.mp hy with hy | hy
        · have := mem_blocks_inside hy
          right
          simp only
          omega
        · exact hapart y hy

/-- The room of a tidy tree is that of its largest free block. -/
theorem lt_room_iff {t : Node d} (ht : t.Tidy) (hbase : 2 ^ d ∣ base) :
    e < t.room ↔ ∃ o, 2 ^ e ∣ o ∧ Within (o, e) (base, d) ∧ ∀ y ∈ t.blocks base, Apart (o, e) y := by
  constructor
  · exact exists_block_of_room ht hbase
  · rintro ⟨o, ho, hin, hapart⟩
    exact lt_room_of_apart ht hbase ho hin.1 hin.2 hapart

/-! ## From a tree to what its nodes read -/

theorem onRow_nodeIndex (h : IsBlock n x) : OnRow (n - x.2) (nodeIndex n x.2 x.1) := by
  have hle := h.order_le
  have hpos := Nat.two_pow_pos x.2
  obtain ⟨m, hm⟩ := h.1
  have hin := h.2
  have hn : 2 ^ n = 2 ^ x.2 * 2 ^ (n - x.2) := by rw [← pow_add, Nat.add_sub_cancel' hle]
  have hindex : nodeIndex n x.2 x.1 + 1 = m + 2 ^ (n - x.2) := by
    rw [nodeIndex, hm, hn, ← Nat.mul_add, Nat.mul_div_cancel_left _ hpos]
    have := Nat.two_pow_pos (n - x.2)
    omega
  have hlt : m < 2 ^ (n - x.2) := by
    rw [hm, hn, ← Nat.mul_succ] at hin
    exact Nat.le_of_mul_le_mul_left hin hpos
  rw [OnRow, hindex, pow_succ]
  omega

/-- The children of a node that splits manage the halves of its block. -/
theorem children_nodeIndex (hbase : 2 ^ (d + 1) ∣ base) (hd : d + 1 ≤ n) :
    leftLeaf (nodeIndex n (d + 1) base) = nodeIndex n d base ∧
      rightLeaf (nodeIndex n (d + 1) base) = nodeIndex n d (base + 2 ^ d) := by
  obtain ⟨m, rfl⟩ := hbase
  have hn : 2 ^ n = 2 ^ (d + 1) * 2 ^ (n - (d + 1)) := by rw [← pow_add, Nat.add_sub_cancel' hd]
  have hpos := Nat.two_pow_pos d
  have hq := Nat.two_pow_pos (n - (d + 1))
  have hwhole : (2 ^ (d + 1) * m + 2 ^ n) / 2 ^ (d + 1) = m + 2 ^ (n - (d + 1)) := by
    rw [hn, ← Nat.mul_add, Nat.mul_div_cancel_left _ (Nat.two_pow_pos _)]
  have hleft : (2 ^ (d + 1) * m + 2 ^ n) / 2 ^ d = 2 * (m + 2 ^ (n - (d + 1))) := by
    rw [hn, ← Nat.mul_add, pow_succ, Nat.mul_assoc, Nat.mul_div_cancel_left _ hpos]
  have hright : (2 ^ (d + 1) * m + 2 ^ d + 2 ^ n) / 2 ^ d = 2 * (m + 2 ^ (n - (d + 1))) + 1 := by
    rw [show 2 ^ (d + 1) * m + 2 ^ d + 2 ^ n = 2 ^ (d + 1) * m + 2 ^ n + 2 ^ d by omega,
      Nat.add_div_right _ hpos, hleft]
  unfold nodeIndex leftLeaf rightLeaf
  rw [hwhole, hleft, hright]
  omega

theorem IsBlock.left (h : IsBlock n (base, d + 1)) : IsBlock n (base, d) := by
  have hin : base + 2 ^ (d + 1) ≤ 2 ^ n := h.2
  have hle : base + 2 ^ d ≤ 2 ^ n := by
    rw [pow_succ] at hin
    omega
  exact ⟨(pow_dvd_pow 2 (Nat.le_succ d)).trans h.1, hle⟩

theorem IsBlock.right (h : IsBlock n (base, d + 1)) : IsBlock n (base + 2 ^ d, d) := by
  have hin : base + 2 ^ (d + 1) ≤ 2 ^ n := h.2
  have hle : base + 2 ^ d + 2 ^ d ≤ 2 ^ n := by
    rw [pow_succ] at hin
    omega
  exact ⟨Nat.dvd_add ((pow_dvd_pow 2 (Nat.le_succ d)).trans h.1) (dvd_refl _), hle⟩

theorem IsBlock.of_within (h : IsBlock n y) (hx : 2 ^ x.2 ∣ x.1) (hin : Within x y) :
    IsBlock n x := ⟨hx, hin.2.trans h.2⟩

theorem apart_of_within {z : ℕ × ℕ} (h : Apart z y) (hin : Within x y) : Apart z x := by
  have := hin.1
  have := hin.2
  simp only [Apart] at h ⊢
  omega

/-- Blocks apart from a node do not matter for what it reads. -/
theorem ReadsAs.of_apart {v : ℕ} {used' : List (ℕ × ℕ)} (h : ReadsAs n used x v)
    (hsub : ∀ y ∈ used, y ∈ used') (hother : ∀ y ∈ used', y ∈ used ∨ Apart y x) :
    ReadsAs n used' x v := by
  have hin : ∀ y ∈ used', Within x y → y ∈ used := by
    intro y hy hxy
    rcases hother y hy with hy | hy
    · exact hy
    · exact (not_apart_of_within hxy hy.symm).elim
  refine ⟨fun hx => h.marked (hin x hx (within_refl x)), fun y hy hxy => h.below y (hin y hy hxy) hxy,
    fun hnone => ?_⟩
  obtain ⟨hzero, hlarge⟩ := h.largest fun y hy => hnone y (hsub y hy)
  refine ⟨hzero, fun e => (hlarge e).trans (exists_congr fun o => and_congr_left fun hox => ?_)⟩
  refine and_congr_right fun _ => ⟨fun hfree y hy => ?_, fun hfree y hy => hfree y (hsub y hy)⟩
  rcases hother y hy with hy | hy
  · exact hfree y hy
  · exact (apart_of_within hy hox).symm

variable {b : BitmapBuddy}

theorem Sized.getSize_full (hs : Sized n b) (hblock : IsBlock n (base, d))
    (hfull : Full (cell b) d (nodeIndex n d base)) (hx : IsBlock n x) (hin : Within x (base, d)) :
    b.getSize (nodeIndex n x.2 x.1) = x.2 + 3 := by
  have hnode : ∀ {d base}, IsBlock n (base, d) → Full (cell b) d (nodeIndex n d base) →
      b.getSize (nodeIndex n d base) = d + 3 := by
    intro d base hblock hfull
    have hle := hblock.order_le
    have hg := hs.getSize_eq (onRow_nodeIndex hblock) (Nat.sub_add_cancel hle)
      (t := (.free : Node d)) hfull
    rwa [value_free] at hg
  induction d generalizing base with
  | zero =>
      obtain rfl := hin.eq_of_order (Nat.le_zero.mp hin.order_le)
      exact hnode hblock hfull
  | succ d ih =>
      obtain ⟨hl, hr⟩ := children_nodeIndex hblock.1 hblock.order_le
      rcases within_half hblock.1 hx.1 hin with rfl | hin | hin
      · exact hnode hblock hfull
      · exact ih hblock.left (hl ▸ hfull.2.1) hin
      · exact ih hblock.right (hr ▸ hfull.2.2) hin

theorem value_zero_or (t : Node d) : value t = 0 ∨ 3 ≤ value t := by
  unfold value
  split <;> omega

/-- The node of a tidy tree reads the logarithm of its largest free block. -/
theorem readsAs_value {t : Node d} (ht : t.Tidy) (hblock : IsBlock n (base, d))
    (hnone : ∀ y ∈ t.blocks base, ¬ Within (base, d) y) :
    ReadsAs n (t.blocks base) (base, d) (value t) := by
  refine ⟨fun hx => (hnone _ hx (within_refl _)).elim, fun y hy hxy => (hnone y hy hxy).elim,
    fun _ => ⟨value_zero_or t, fun e => ?_⟩⟩
  rw [le_value_iff, lt_room_iff ht hblock.1]
  constructor
  · rintro ⟨o, ho, hin, hapart⟩
    exact ⟨o, ⟨hblock.of_within ho hin, hapart⟩, hin⟩
  · rintro ⟨o, ⟨hb, hapart⟩, hin⟩
    exact ⟨o, hb.1, hin, hapart⟩

theorem readsAs_of_storesTree (hs : Sized n b) {t : Node d} (ht : t.Tidy)
    (hblock : IsBlock n (base, d)) (hrepr : StoresTree (cell b) t (nodeIndex n d base))
    (hx : IsBlock n x) (hin : Within x (base, d)) :
    ReadsAs n (t.blocks base) x (b.getSize (nodeIndex n x.2 x.1)) := by
  induction t generalizing base with
  | @free d =>
      rw [hs.getSize_full hblock hrepr hx hin]
      refine ⟨by simp [Node.blocks], by simp [Node.blocks], fun _ => ⟨Or.inr (by omega), fun e => ?_⟩⟩
      constructor
      · intro he
        have hle : e ≤ x.2 := by omega
        have hwithin : Within (x.1, e) x :=
          ⟨le_rfl, Nat.add_le_add_left (Nat.pow_le_pow_right (by omega) hle) _⟩
        exact ⟨x.1, ⟨hx.of_within ((pow_dvd_pow 2 hle).trans hx.1) hwithin, by simp [Node.blocks]⟩,
          hwithin⟩
      · rintro ⟨o, -, hwithin⟩
        have := hwithin.order_le
        simp only at this
        omega
  | @used d =>
      have hmem : ∀ y, y ∈ (Node.used : Node d).blocks base ↔ y = (base, d) := by
        simp [Node.blocks]
      rcases Nat.eq_or_lt_of_le hin.order_le with horder | hlt
      · obtain rfl := hin.eq_of_order horder
        have hg := hs.getSize_eq (onRow_nodeIndex hblock) (Nat.sub_add_cancel hblock.order_le) hrepr
        rw [value_used] at hg
        refine ⟨fun _ => hg, fun y hy _ hlt => ?_, fun hnone => ?_⟩
        · rw [(hmem y).mp hy] at hlt
          exact (lt_irrefl _ hlt).elim
        · exact (hnone _ ((hmem _).mpr rfl) (within_refl _)).elim
      · cases d with
        | zero => exact absurd hlt (Nat.not_lt_zero _)
        | succ d =>
            obtain ⟨hl, hr⟩ := children_nodeIndex hblock.1 hblock.order_le
            have hg : b.getSize (nodeIndex n x.2 x.1) = x.2 + 3 := by
              rcases within_half hblock.1 hx.1 hin with rfl | hin | hin
              · exact (lt_irrefl _ hlt).elim
              · exact hs.getSize_full hblock.left (hl ▸ hrepr.2.1) hx hin
              · exact hs.getSize_full hblock.right (hr ▸ hrepr.2.2) hx hin
            refine ⟨fun hx' => ?_, fun _ _ _ _ => hg, fun hnone => ?_⟩
            · rw [(hmem x).mp hx'] at hlt
              exact (lt_irrefl _ hlt).elim
            · exact (hnone _ ((hmem _).mpr rfl) hin).elim
  | @split d l r ihl ihr =>
      obtain ⟨hl, hr⟩ := children_nodeIndex hblock.1 hblock.order_le
      have hinl : ∀ y ∈ l.blocks base, Within y (base, d) := fun y hy => mem_blocks_inside hy
      have hinr : ∀ y ∈ r.blocks (base + 2 ^ d), Within y (base + 2 ^ d, d) := fun y hy =>
        mem_blocks_inside hy
      have hhalves : Apart (base, d) (base + 2 ^ d, d) := Or.inl le_rfl
      rcases within_half hblock.1 hx.1 hin with rfl | hin | hin
      · have hg := hs.getSize_eq (onRow_nodeIndex hblock) (Nat.sub_add_cancel hblock.order_le) hrepr
        rw [hg]
        refine readsAs_value ht hblock fun y hy hwithin => ?_
        have horder := hwithin.order_le
        rcases List.mem_append.mp hy with hy | hy
        · have := (hinl y hy).order_le
          simp only at this horder
          omega
        · have := (hinr y hy).order_le
          simp only at this horder
          omega
      · refine (ihl ht.1 hblock.left (hl ▸ hrepr.2.1) hin).of_apart
          (fun y hy => List.mem_append_left _ hy) fun y hy => ?_
        refine (List.mem_append.mp hy).imp_right fun hy => ?_
        exact apart_of_within (apart_of_within hhalves (hinr y hy)).symm hin
      · refine (ihr ht.2.1 hblock.right (hr ▸ hrepr.2.2.1) hin).of_apart
          (fun y hy => List.mem_append_right _ hy) fun y hy => ?_
        refine (List.mem_append.mp hy).symm.imp_right fun hy => ?_
        exact apart_of_within (apart_of_within hhalves.symm (hinl y hy)).symm hin

end K210Os
