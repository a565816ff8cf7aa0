import Mathlib.Data.List.Induction
import Mathlib.Data.Nat.Notation

/-!
# Trees of nodes in a shared store

`child` says which node the entry `i` of a node points to. A tree of depth `d`
is a set of nodes each of which is reached from the root by exactly one path of at
most `d` entries. A fresh node without children can be attached to an empty entry;
no other path changes.
-/

namespace K210Os.RadixTree

variable {ν ι : Type*} {child child' : ν → ι → Option ν} {root n g : ν} {d : ℕ}
  {p q : List ι} {i : ι} {nodes nodes' : List ν}

def walk (child : ν → ι → Option ν) : ν → List ι → Option ν
  | n, [] => some n
  | n, i :: p => (child n i).bind fun m => walk child m p

@[simp] theorem walk_nil : walk child n [] = some n := rfl

attribute [local simp] walk

theorem walk_append (child : ν → ι → Option ν) (n : ν) (p q : List ι) :
    walk child n (p ++ q) = (walk child n p).bind fun m => walk child m q := by
  induction p generalizing n with
  | nil => rfl
  | cons i p ih =>
      simp only [List.cons_append, walk]
      cases child n i with
      | none => rfl
      | some m => exact ih m

/-- The last entry of a path. -/
theorem walk_snoc : walk child n (p ++ [i]) = (walk child n p).bind fun m => child m i := by
  rw [walk_append]
  congr 1
  funext m
  simp only [walk]
  cases child m i <;> rfl

theorem walk_snoc_eq_some {m : ν} :
    walk child n (p ++ [i]) = some m ↔ ∃ k, walk child n p = some k ∧ child k i = some m := by
  rw [walk_snoc, Option.bind_eq_some_iff]

structure Tree (child : ν → ι → Option ν) (root : ν) (d : ℕ) (nodes : List ν) : Prop where
  nodup : nodes.Nodup
  mem_iff : ∀ n, n ∈ nodes ↔ ∃ p : List ι, p.length ≤ d ∧ walk child root p = some n
  unique : ∀ p q n, p.length ≤ d → q.length ≤ d → walk child root p = some n →
    walk child root q = some n → p = q

/-- A root without children. -/
theorem Tree.single (h : ∀ i, child root i = none) : Tree child root d [root] := by
  have hnil : ∀ p n, walk child root p = some n → p = [] ∧ n = root := by
    intro p n hp
    cases p with
    | nil => exact ⟨rfl, (Option.some.inj hp).symm⟩
    | cons i p => simp [walk, h i] at hp
  refine ⟨by simp, fun n => ?_, fun p q n _ _ hp hq => ?_⟩
  · rw [List.mem_singleton]
    constructor
    · rintro rfl
      exact ⟨[], Nat.zero_le d, rfl⟩
    · rintro ⟨p, -, hp⟩
      exact (hnil p n hp).2
  · rw [(hnil p n hp).1, (hnil q n hq).1]

theorem Tree.mem_of_walk (h : Tree child root d nodes) (hp : p.length ≤ d)
    (hw : walk child root p = some n) : n ∈ nodes :=
  (h.mem_iff n).mpr ⟨p, hp, hw⟩

/-- A walk only reads the entries that it follows. -/
theorem walk_congr_prefix
    (hc : ∀ q m i, q ++ [i] <+: p → walk child root q = some m → child' m i = child m i) :
    walk child' root p = walk child root p := by
  induction p using List.reverseRecOn with
  | nil => rfl
  | append_singleton p i ih =>
      have hwalk := ih fun q m j hq hw => hc q m j (hq.trans (List.prefix_append p [i])) hw
      rw [walk_snoc, walk_snoc, hwalk]
      cases hw : walk child root p with
      | none => rfl
      | some m => exact hc p m i List.prefix_rfl hw

/-- Walks only read the entries of nodes that are reached by shorter paths. -/
theorem walk_congr
    (hc : ∀ q m i, q.length < d → walk child root q = some m → child' m i = child m i)
    (hp : p.length ≤ d) : walk child' root p = walk child root p := by
  apply walk_congr_prefix
  intro q m i hq hw
  have hlen := hq.length_le
  simp only [List.length_append, List.length_singleton] at hlen
  exact hc q m i (by omega) hw

theorem Tree.congr (h : Tree child root d nodes)
    (hc : ∀ q m i, q.length < d → walk child root q = some m → child' m i = child m i) :
    Tree child' root d nodes := by
  refine ⟨h.nodup, fun n => ?_, fun p q n hp hq hwp hwq => ?_⟩
  · rw [h.mem_iff]
    constructor
    · rintro ⟨p, hp, hw⟩
      exact ⟨p, hp, (walk_congr hc hp).trans hw⟩
    · rintro ⟨p, hp, hw⟩
      exact ⟨p, hp, (walk_congr hc hp).symm.trans hw⟩
  · rw [walk_congr hc hp] at hwp
    rw [walk_congr hc hq] at hwq
    exact h.unique p q n hp hq hwp hwq

/-- `child'` is `child` with the fresh node `g`, which has no children, at the empty
entry `i` of the node `n` at path `p`. -/
structure Attach (child child' : ν → ι → Option ν) (root : ν) (d : ℕ) (nodes : List ν)
    (p : List ι) (n : ν) (i : ι) (g : ν) : Prop where
  short : p.length < d
  path : walk child root p = some n
  empty : child n i = none
  fresh : g ∉ nodes
  here : child' n i = some g
  other : ∀ m j, m ∈ nodes → (m, j) ≠ (n, i) → child' m j = child m j
  leaf : ∀ j, child' g j = none

/-- Every path of the tree is still there. -/
theorem Attach.walk_old (a : Attach child child' root d nodes p n i g)
    (h : Tree child root d nodes) {m : ν} (hq : q.length ≤ d) (hw : walk child root q = some m) :
    walk child' root q = some m := by
  induction q using List.reverseRecOn generalizing m with
  | nil => exact hw
  | append_singleton q j ih =>
      simp only [List.length_append, List.length_singleton] at hq
      obtain ⟨k, hk, hkj⟩ := walk_snoc_eq_some.mp hw
      refine walk_snoc_eq_some.mpr ⟨k, ih (by omega) hk, ?_⟩
      rw [a.other k j (h.mem_of_walk (by omega) hk), hkj]
      rintro heq
      obtain ⟨rfl, rfl⟩ := Prod.mk.inj heq
      rw [a.empty] at hkj
      contradiction

/-- The only new path is the one to the new node. -/
theorem Attach.walk_new (a : Attach child child' root d nodes p n i g)
    (h : Tree child root d nodes) {m : ν} (hq : q.length ≤ d) (hw : walk child' root q = some m) :
    walk child root q = some m ∨ q = p ++ [i] ∧ m = g := by
  induction q using List.reverseRecOn generalizing m with
  | nil => exact Or.inl hw
  | append_singleton q j ih =>
      simp only [List.length_append, List.length_singleton] at hq
      obtain ⟨k, hk, hkj⟩ := walk_snoc_eq_some.mp hw
      rcases ih (by omega) hk with hold | ⟨rfl, rfl⟩
      · by_cases heq : (k, j) = (n, i)
        · obtain ⟨rfl, rfl⟩ := Prod.mk.inj heq
          right
          rw [a.here] at hkj
          have hpq := h.unique q p k (by omega) (Nat.le_of_lt a.short) hold a.path
          exact ⟨by rw [hpq], (Option.some.inj hkj).symm⟩
        · left
          rw [a.other k j (h.mem_of_walk (by omega) hold) heq] at hkj
          exact walk_snoc_eq_some.mpr ⟨k, hold, hkj⟩
      · rw [a.leaf j] at hkj
        contradiction

theorem Attach.walk_here (a : Attach child child' root d nodes p n i g)
    (h : Tree child root d nodes) : walk child' root (p ++ [i]) = some g :=
  walk_snoc_eq_some.mpr ⟨n, a.walk_old h (Nat.le_of_lt a.short) a.path, a.here⟩

theorem Attach.tree (a : Attach child child' root d nodes p n i g) (h : Tree child root d nodes)
    (hnodes : nodes'.Perm (g :: nodes)) : Tree child' root d nodes' := by
  have hshort := a.short
  have hlen : (p ++ [i]).length ≤ d := by simp only [List.length_append, List.length_singleton]; omega
  refine ⟨hnodes.nodup_iff.mpr (List.nodup_cons.mpr ⟨a.fresh, h.nodup⟩), fun m => ?_, ?_⟩
  · rw [hnodes.mem_iff, List.mem_cons]
    constructor
    · rintro (rfl | hm)
      · exact ⟨p ++ [i], hlen, a.walk_here h⟩
      · obtain ⟨q, hq, hw⟩ := (h.mem_iff m).mp hm
        exact ⟨q, hq, a.walk_old h hq hw⟩
    · rintro ⟨q, hq, hw⟩
      rcases a.walk_new h hq hw with hold | ⟨-, rfl⟩
      · exact Or.inr (h.mem_of_walk hq hold)
      · exact Or.inl rfl
  · intro q r m hq hr hwq hwr
    rcases a.walk_new h hq hwq with holdq | ⟨rfl, rfl⟩
    · rcases a.walk_new h hr hwr with holdr | ⟨rfl, rfl⟩
      · exact h.unique q r m hq hr holdq holdr
      · exact (a.fresh (h.mem_of_walk hq holdq)).elim
    · rcases a.walk_new h hr hwr with holdr | ⟨rfl, -⟩
      · exact (a.fresh (h.mem_of_walk hr holdr)).elim
      · rfl

end K210Os.RadixTree
