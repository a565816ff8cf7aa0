import Mathlib.Data.List.Perm.Basic
import Mathlib.Data.Nat.Notation
import Mathlib.Tactic.Ring

/-!
# Binary buddy trees

A tree of order `d` describes how `2 ^ d` units starting at a base are handed
out: a node is wholly free, handed out as one block, or split into two halves.
Being inside, aligned and disjoint is a property of the shape and needs no
invariant. Allocation and release are relations, so that an implementation may
choose where it takes a block and which idle halves it joins again.
-/

namespace K210Os.BuddyTree

inductive Node : ℕ → Type
  | free {d : ℕ} : Node d
  | used {d : ℕ} : Node d
  | split {d : ℕ} (l r : Node d) : Node (d + 1)

namespace Node

/-- The blocks handed out, from left to right, as pairs of offset and order. -/
def blocks : {d : ℕ} → Node d → ℕ → List (ℕ × ℕ)
  | _, .free, _ => []
  | d, .used, base => [(base, d)]
  | d + 1, .split l r, base => l.blocks base ++ r.blocks (base + 2 ^ d)

/-- No block below the node is handed out. -/
def Idle : {d : ℕ} → Node d → Prop
  | _, .free => True
  | _, .used => False
  | _, .split l r => l.Idle ∧ r.Idle

/-- One more than the order of the largest free block the nodes know of, 0 if
there is none. -/
def room : {d : ℕ} → Node d → ℕ
  | d, .free => d + 1
  | _, .used => 0
  | _, .split l r => max l.room r.room

/-- Every split is there because a block below it is handed out. -/
def Tidy : {d : ℕ} → Node d → Prop
  | _, .free => True
  | _, .used => True
  | _, .split l r => l.Tidy ∧ r.Tidy ∧ ¬ (l.Idle ∧ r.Idle)

end Node

open Node

attribute [local simp] blocks Idle room Tidy

/-- Two blocks, given by offset and order, do not overlap. -/
def Apart (x y : ℕ × ℕ) : Prop := x.1 + 2 ^ x.2 ≤ y.1 ∨ y.1 + 2 ^ y.2 ≤ x.1

instance : Std.Symm Apart := ⟨fun _ _ => Or.symm⟩

variable {d : ℕ}

theorem idle_iff_blocks (t : Node d) (base : ℕ) : t.Idle ↔ t.blocks base = [] := by
  induction t generalizing base with
  | free => simp [Idle, blocks]
  | used => simp [Idle, blocks]
  | split l r ihl ihr =>
      simp only [Idle, blocks, List.append_eq_nil_iff]
      rw [ihl base, ihr]

theorem mem_blocks_inside {t : Node d} {base : ℕ} {x : ℕ × ℕ} (h : x ∈ t.blocks base) :
    base ≤ x.1 ∧ x.1 + 2 ^ x.2 ≤ base + 2 ^ d := by
  induction t generalizing base with
  | free => simp [blocks] at h
  | used =>
      simp only [blocks, List.mem_singleton] at h
      subst h
      exact ⟨le_rfl, le_rfl⟩
  | @split d l r ihl ihr =>
      simp only [blocks, List.mem_append] at h
      have hpow : 2 ^ (d + 1) = 2 ^ d + 2 ^ d := by ring
      have hpos := Nat.two_pow_pos d
      rcases h with h | h
      · have := ihl h
        omega
      · have := ihr h
        omega

theorem mem_blocks_aligned {t : Node d} {base : ℕ} (hbase : 2 ^ d ∣ base) {x : ℕ × ℕ}
    (h : x ∈ t.blocks base) : 2 ^ x.2 ∣ x.1 := by
  induction t generalizing base with
  | free => simp [blocks] at h
  | used =>
      simp only [blocks, List.mem_singleton] at h
      subst h
      exact hbase
  | @split d l r ihl ihr =>
      have hhalf : 2 ^ d ∣ base := (pow_dvd_pow 2 (Nat.le_succ d)).trans hbase
      simp only [blocks, List.mem_append] at h
      rcases h with h | h
      · exact ihl hhalf h
      · exact ihr (Nat.dvd_add hhalf (dvd_refl _)) h

theorem pairwise_apart_blocks (t : Node d) (base : ℕ) :
    (t.blocks base).Pairwise Apart := by
  induction t generalizing base with
  | free => simp [blocks]
  | used => simp [blocks]
  | split l r ihl ihr =>
      simp only [blocks, List.pairwise_append]
      refine ⟨ihl base, ihr _, ?_⟩
      intro x hx y hy
      have hl := mem_blocks_inside hx
      have hr := mem_blocks_inside hy
      exact Or.inl (by omega)

theorem room_le (t : Node d) : t.room ≤ d + 1 := by
  induction t with
  | free => exact le_rfl
  | used => exact Nat.zero_le _
  | split l r ihl ihr => simp only [room]; omega

/-- A node that knows of a block of its own order is wholly free. -/
theorem eq_free_of_room {t : Node d} (h : t.room = d + 1) : t = .free := by
  cases t with
  | free => rfl
  | used => simp [room] at h
  | split l r =>
      have hl := room_le l
      have hr := room_le r
      simp only [room] at h
      omega

theorem idle_of_tidy_room {t : Node d} (ht : t.Tidy) (hi : t.Idle) : t = .free := by
  cases t with
  | free => rfl
  | used => exact hi.elim
  | split l r => exact (ht.2.2 hi).elim

/-- A node at `base` becomes `t'` when an idle block of order `e` at offset `o`
below it is handed out; free nodes on the way are split. -/
inductive Alloc (e o : ℕ) : {d : ℕ} → Node d → ℕ → Node d → Prop
  | take {t : Node e} : t.Idle → Alloc e o t o .used
  | cut {d base : ℕ} {l' : Node d} :
      Alloc e o (.free : Node d) base l' → Alloc e o .free base (.split l' .free)
  | left {d base : ℕ} {l l' r : Node d} :
      Alloc e o l base l' → Alloc e o (.split l r) base (.split l' r)
  | right {d base : ℕ} {l r r' : Node d} :
      Alloc e o r (base + 2 ^ d) r' → Alloc e o (.split l r) base (.split l r')

theorem Alloc.blocks {e o base : ℕ} {t t' : Node d} (h : Alloc e o t base t') :
    (t'.blocks base).Perm ((o, e) :: t.blocks base) := by
  induction h with
  | take hi => rw [(idle_iff_blocks _ o).mp hi]; rfl
  | cut _ ih => simpa [Node.blocks] using ih
  | left _ ih => exact ih.append_right _
  | @right d base l r r' _ ih =>
      simp only [Node.blocks]
      exact (ih.append_left _).trans List.perm_middle

theorem Alloc.not_idle {e o base : ℕ} {t t' : Node d} (h : Alloc e o t base t') :
    ¬ t'.Idle := by
  rw [idle_iff_blocks t' base]
  intro hnil
  have := h.blocks
  rw [hnil] at this
  exact absurd this.symm.eq_nil (by simp)

theorem Alloc.tidy {e o base : ℕ} {t t' : Node d} (h : Alloc e o t base t')
    (ht : t.Tidy) : t'.Tidy := by
  induction h with
  | take _ => trivial
  | cut h ih => exact ⟨ih trivial, trivial, fun hi => h.not_idle hi.1⟩
  | left h ih => exact ⟨ih ht.1, ht.2.1, fun hi => h.not_idle hi.1⟩
  | right h ih => exact ⟨ht.1, ih ht.2.1, fun hi => h.not_idle hi.2⟩

/-- A node at `base` becomes `t'` when the block of order `e` at offset `o` below
it is given back; idle nodes on the way may be joined into free ones. -/
inductive Release (e o : ℕ) : {d : ℕ} → Node d → ℕ → Node d → Prop
  | drop : Release e o (.used : Node e) o .free
  | left {d base : ℕ} {l l' r : Node d} :
      Release e o l base l' → Release e o (.split l r) base (.split l' r)
  | right {d base : ℕ} {l r r' : Node d} :
      Release e o r (base + 2 ^ d) r' → Release e o (.split l r) base (.split l r')
  | join {d base : ℕ} {t t' : Node d} :
      Release e o t base t' → t'.Idle → Release e o t base .free

theorem Release.blocks {e o base : ℕ} {t t' : Node d} (h : Release e o t base t') :
    (t.blocks base).Perm ((o, e) :: t'.blocks base) := by
  induction h with
  | drop => rfl
  | left _ ih => exact ih.append_right _
  | @right d base l r r' _ ih =>
      simp only [Node.blocks]
      exact (ih.append_left _).trans List.perm_middle
  | @join d base t t' _ hi ih => rwa [(idle_iff_blocks t' base).mp hi] at ih

/-- In a tidy tree every aligned block that is apart from all blocks handed out
lies below a free node, so `room` knows of a block at least as large. -/
theorem lt_room_of_apart {t : Node d} (ht : t.Tidy) {base e o : ℕ} (hbase : 2 ^ d ∣ base)
    (ho : 2 ^ e ∣ o) (hlo : base ≤ o) (hhi : o + 2 ^ e ≤ base + 2 ^ d)
    (hapart : ∀ x ∈ t.blocks base, Apart (o, e) x) : e < t.room := by
  induction t generalizing base with
  | @free d =>
      have : 2 ^ e ≤ 2 ^ d := by omega
      have : e ≤ d := (Nat.pow_le_pow_iff_right (by omega)).mp this
      simp only [room]
      omega
  | @used d =>
      have hx := hapart (base, d) (by simp [blocks])
      have := Nat.two_pow_pos e
      simp only [Apart] at hx
      omega
  | @split d l r ihl ihr =>
      have hpow : 2 ^ (d + 1) = 2 ^ d + 2 ^ d := by ring
      have hhalf : 2 ^ d ∣ base := (pow_dvd_pow 2 (Nat.le_succ d)).trans hbase
      have hpos := Nat.two_pow_pos d
      rcases Nat.lt_or_ge d e with hde | hde
      · -- the block covers both halves, so nothing below is handed out
        have hge : 2 ^ (d + 1) ≤ 2 ^ e := Nat.pow_le_pow_right (by omega) hde
        have hnone : Node.blocks (.split l r) base = [] := by
          rw [List.eq_nil_iff_forall_not_mem]
          intro x hx
          have hin := mem_blocks_inside hx
          have hne := hapart x hx
          have := Nat.two_pow_pos x.2
          simp only [Apart] at hne
          omega
        exact (ht.2.2 ((idle_iff_blocks _ base).mpr hnone)).elim
      · -- alignment keeps the block on one side of the middle
        have hside : o + 2 ^ e ≤ base + 2 ^ d ∨ base + 2 ^ d ≤ o := by
          obtain ⟨m, hm⟩ : 2 ^ e ∣ base + 2 ^ d :=
            Nat.dvd_add ((pow_dvd_pow 2 hde).trans hhalf) (pow_dvd_pow 2 hde)
          obtain ⟨n, hn⟩ := ho
          rcases Nat.lt_or_ge n m with hnm | hnm
          · left
            rw [hm, hn]
            calc 2 ^ e * n + 2 ^ e = 2 ^ e * (n + 1) := by ring
              _ ≤ 2 ^ e * m := Nat.mul_le_mul_left _ hnm
          · right
            rw [hm, hn]
            exact Nat.mul_le_mul_left _ hnm
        simp only [blocks, List.mem_append] at hapart
        simp only [room, lt_max_iff]
        rcases hside with hside | hside
        · exact Or.inl (ihl ht.1 hhalf hlo hside fun x hx => hapart x (Or.inl hx))
        · refine Or.inr (ihr ht.2.1 (Nat.dvd_add hhalf (dvd_refl _)) hside ?_
            fun x hx => hapart x (Or.inr hx))
          omega

end K210Os.BuddyTree
